/-
  BitcoinSpoon.Loop.SortedMap — a list sorted by key, as a finite map.

  Keys are compared by a total order. A list is split at a key into the entries before and
  behind it, and what is put between them is a change of the map (`Represents.put`,
  `Represents.drop`). Nothing here names a program.
-/

import Mathlib.Data.Finmap

namespace BitcoinSpoon.Loop

variable {κ V : Type}

/-- `compare a b` is negative, zero or positive as `a` is less than, equal to or greater
    than `b`. -/
structure KeyOrder (κ : Type) where
  compare : κ → κ → Int
  eq_iff : ∀ a b, compare a b = 0 ↔ a = b
  swap : ∀ a b, compare a b < 0 ↔ 0 < compare b a
  trans : ∀ a b c, compare a b < 0 → compare b c < 0 → compare a c < 0

variable (order : KeyOrder κ)

/-- Strictly sorted. -/
def Ascending (l : List (κ × V)) : Prop := l.Pairwise fun a b => order.compare a.1 b.1 < 0

/-- `pre` is before the key and `post` behind it. -/
structure SplitAt (key : κ) (pre post : List (κ × V)) : Prop where
  before : ∀ e ∈ pre, order.compare e.1 key < 0
  behind : ∀ e ∈ post, order.compare key e.1 < 0

/-- The entries of the list are those of the map, in order. -/
structure Represents [DecidableEq κ] (l : List (κ × V)) (m : Finmap fun _ : κ => V) : Prop where
  ascending : Ascending order l
  lookup : ∀ k v, m.lookup k = some v ↔ (k, v) ∈ l

variable {order} {key : κ} {value : V} {l pre post : List (κ × V)}

theorem KeyOrder.self (order : KeyOrder κ) (a : κ) : order.compare a a = 0 := (order.eq_iff a a).2 rfl

theorem KeyOrder.ne_of_lt (order : KeyOrder κ) {a b : κ} (h : order.compare a b < 0) : a ≠ b := by
  rintro rfl
  have hself := order.self a
  omega

theorem ascending_nil : Ascending order ([] : List (κ × V)) := List.Pairwise.nil

theorem ascending_append : Ascending order (pre ++ post) ↔
    Ascending order pre ∧ Ascending order post ∧ ∀ a ∈ pre, ∀ b ∈ post, order.compare a.1 b.1 < 0 := List.pairwise_append

/-- What is sorted stays so with the key between its two parts. -/
theorem SplitAt.put (h : SplitAt order key pre post) (hsorted : Ascending order (pre ++ post)) :
    Ascending order (pre ++ (key, value) :: post) := by
  obtain ⟨hpre, hpost, hcross⟩ := ascending_append.1 hsorted
  refine ascending_append.2 ⟨hpre, List.Pairwise.cons h.behind hpost, fun a ha b hb => ?_⟩
  rcases List.mem_cons.1 hb with rfl | hb
  · exact h.before a ha
  · exact hcross a ha b hb

theorem Ascending.split (h : Ascending order (pre ++ (key, value) :: post)) : SplitAt order key pre post := by
  obtain ⟨-, hrest, hcross⟩ := ascending_append.1 h
  exact ⟨fun e he => hcross e he _ List.mem_cons_self, (List.pairwise_cons.1 hrest).1⟩

theorem Ascending.drop (h : Ascending order (pre ++ (key, value) :: post)) : Ascending order (pre ++ post) :=
  h.sublist (List.Sublist.append (List.Sublist.refl pre) (List.sublist_cons_self _ post))

/-- The key itself is in neither part. -/
theorem SplitAt.ne (h : SplitAt order key pre post) {e : κ × V} (he : e ∈ pre ++ post) : e.1 ≠ key := by
  rcases List.mem_append.1 he with he | he
  · exact order.ne_of_lt (h.before e he)
  · exact (order.ne_of_lt (h.behind e he)).symm

theorem Ascending.keys_nodup (h : Ascending order l) : (l.map Prod.fst).Nodup :=
  List.pairwise_map.2 (h.imp fun hlt => order.ne_of_lt hlt)

/-- One value for a key. -/
theorem Ascending.unique (h : Ascending order l) {k : κ} {v w : V} (hv : (k, v) ∈ l) (hw : (k, w) ∈ l) : v = w := by
  have heq := List.inj_on_of_nodup_map h.keys_nodup hv hw rfl
  exact congrArg Prod.snd heq

/-! ## The map -/

variable [DecidableEq κ] {m : Finmap fun _ : κ => V}

theorem represents_nil : Represents order ([] : List (κ × V)) ∅ where
  ascending := ascending_nil
  lookup k v := by
    rw [Finmap.lookup_empty]
    simp

/-- The list has the key, or not; with a new value between its parts it is the map with the
    key set. -/
theorem Represents.put (h : Represents order l m) (hsplit : SplitAt order key pre post)
    (hl : l = pre ++ post ∨ ∃ old, l = pre ++ (key, old) :: post) :
    Represents order (pre ++ (key, value) :: post) (m.insert key value) := by
  have hsorted : Ascending order (pre ++ post) := by
    rcases hl with rfl | ⟨old, rfl⟩
    · exact h.ascending
    · exact h.ascending.drop
  have hothers : ∀ k v, k ≠ key → ((k, v) ∈ pre ++ (key, value) :: post ↔ (k, v) ∈ l) := by
    intro k v hk
    rcases hl with rfl | ⟨old, rfl⟩ <;> simp [hk]
  refine ⟨hsplit.put hsorted, fun k v => ?_⟩
  by_cases hk : k = key
  · subst hk
    rw [Finmap.lookup_insert]
    constructor
    · intro heq
      cases heq
      simp
    · intro hmem
      have hself : (k, value) ∈ pre ++ (k, value) :: post := by simp
      rw [(hsplit.put hsorted).unique hmem hself]
  · rw [Finmap.lookup_insert_of_ne m hk, h.lookup, hothers k v hk]

/-- Without the key it is the map without it. -/
theorem Represents.drop (h : Represents order l m) (hsplit : SplitAt order key pre post)
    (hl : l = pre ++ post ∨ ∃ old, l = pre ++ (key, old) :: post) : Represents order (pre ++ post) (m.erase key) := by
  have hsorted : Ascending order (pre ++ post) := by
    rcases hl with rfl | ⟨old, rfl⟩
    · exact h.ascending
    · exact h.ascending.drop
  refine ⟨hsorted, fun k v => ?_⟩
  by_cases hk : k = key
  · subst hk
    rw [Finmap.lookup_erase]
    exact iff_of_false (by simp) fun hmem => hsplit.ne hmem rfl
  · rw [Finmap.lookup_erase_ne hk, h.lookup]
    rcases hl with rfl | ⟨old, rfl⟩ <;> simp [hk]

theorem Represents.length (h : Represents order l m) : l.length = m.keys.card := by
  have hkeys : m.keys = (l.map Prod.fst).toFinset := by
    ext k
    rw [Finmap.mem_keys, ← Finmap.lookup_isSome, Option.isSome_iff_exists, List.mem_toFinset, List.mem_map]
    constructor
    · rintro ⟨v, hv⟩
      exact ⟨(k, v), (h.lookup k v).1 hv, rfl⟩
    · rintro ⟨⟨k, v⟩, hmem, rfl⟩
      exact ⟨v, (h.lookup k v).2 hmem⟩
  rw [hkeys, List.toFinset_card_of_nodup h.ascending.keys_nodup, List.length_map]

end BitcoinSpoon.Loop
