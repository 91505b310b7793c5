/-
  BitcoinSpoon.Merkle.Whole — a partial tree against the whole tree with the same root.

  While no two different pairs in play have the same hash, a node of the partial tree with
  the value of a node of the whole tree has that node's children (`Faithful`). If moreover
  no two children of the partial tree are equal, every flagged leaf stands at a place of
  its own in one level of the whole tree (`matched_sublist`). Nothing here names a program.
-/

import BitcoinSpoon.Merkle.Tree
import Mathlib.Data.List.Nodup
import Mathlib.Data.Nat.Log

namespace BitcoinSpoon.Merkle

variable {α : Type} (join : Option α → Option α → α)

/-- The root of the tree of least height over the leaves. -/
def root (leaves : List α) : Option α := node join leaves (Nat.clog 2 leaves.length) 0

/-- The nodes `height` levels below the node at `level` and `pos`. -/
def below (leaves : List α) (level height pos : Nat) : List α :=
  if height ≤ level then (segment height pos).filterMap (node join leaves (level - height)) else []

theorem below_zero (leaves : List α) (level pos : Nat) :
    below join leaves level 0 pos = (node join leaves level pos).toList := by
  rw [below, if_pos (Nat.zero_le _), segment_zero, Nat.sub_zero]
  cases h : node join leaves level pos <;> simp [h]

theorem below_succ (leaves : List α) (level height pos : Nat) :
    below join leaves (level + 1) (height + 1) pos =
      below join leaves level height (2 * pos) ++ below join leaves level height (2 * pos + 1) := by
  unfold below
  by_cases h : height ≤ level
  · rw [if_pos h, if_pos h, if_pos (by omega), segment_succ, List.filterMap_append, Nat.add_sub_add_right]
  · rw [if_neg h, if_neg h, if_neg (by omega)]
    rfl

theorem filterMap_range (leaves : List α) (n : Nat) : (List.range n).filterMap (leaves[·]?) = leaves.take n := by
  induction n with
  | zero => rfl
  | succ n ih =>
    rw [List.range_succ, List.filterMap_append, ih, List.take_add_one]
    cases h : leaves[n]? <;> simp [h]

/-- The row of leaves. -/
theorem below_leaves {leaves : List α} {height : Nat} (h : leaves.length ≤ 2 ^ height) :
    below join leaves height height 0 = leaves := by
  rw [below, if_pos (Nat.le_refl _), Nat.sub_self, segment, Nat.zero_mul, ← List.range_eq_range']
  show (List.range (2 ^ height)).filterMap (leaves[·]?) = leaves
  rw [filterMap_range, List.take_of_length_le h]

/-! ## Partial trees of a height -/

namespace Partial

/-- Leaves are flagged at height 0 only, and a node stands one above its children. -/
def OfHeight : Partial α → Nat → Prop
  | spent, _ => True
  | taken flagged _, height => flagged = true → height = 0
  | node left right, height => ∃ h, height = h + 1 ∧ left.OfHeight h ∧ right.OfHeight h

/-- A tree without a value has no leaf with a hash. -/
theorem matched_of_value_none {t : Partial α} (h : t.value join = none) : t.matched.filterMap id = [] := by
  cases t with
  | spent => rfl
  | taken flagged hash =>
    obtain rfl : hash = none := h
    cases flagged <;> rfl
  | node left right => cases h

end Partial

theorem tree_ofHeight (height : Nat) (bits : List Bool) (hashes : List α) : (tree height bits hashes).OfHeight height := by
  unfold tree
  induction height generalizing bits hashes with
  | zero =>
    rcases bits with _ | ⟨_ | _, bits⟩
    · trivial
    · exact fun _ => rfl
    · exact fun _ => rfl
  | succ height ih =>
    rcases bits with _ | ⟨_ | _, bits⟩
    · trivial
    · exact fun h => by cases h
    · exact ⟨height, rfl, ih _ _, ih _ _⟩

/-! ## The same root -/

/-- The children of a partial tree against a whole one: a pair with the hash of a pair of
    the whole tree is that pair (an absent right child being the left one), and none has
    the hash of a leaf. -/
structure Faithful (leaves : List α) (children : List (Option α × Option α)) : Prop where
  pair : ∀ x ∈ children, ∀ level pos a, node join leaves level (2 * pos) = some a →
    join x.1 x.2 = join (some a) (node join leaves level (2 * pos + 1)) →
    x.1 = some a ∧ x.2.getD a = (node join leaves level (2 * pos + 1)).getD a
  leaf : ∀ x ∈ children, join x.1 x.2 ∉ leaves

/-- No two children that are both there are equal. -/
def Distinct (children : List (Option α × Option α)) : Prop := ∀ x ∈ children, ∀ a, x.1 = some a → x.2 ≠ some a

namespace Partial

/-- The values of the two children of every opened node. -/
def childValues (t : Partial α) : List (Option α × Option α) :=
  t.children.map fun x => (x.1.value join, x.2.value join)

theorem childValues_node (left right : Partial α) :
    (node left right).childValues join =
      (left.value join, right.value join) :: (left.childValues join ++ right.childValues join) := by
  simp [childValues, children]

end Partial

variable {join}

theorem Faithful.mono {leaves : List α} {children more : List (Option α × Option α)} (h : Faithful join leaves more)
    (hs : children ⊆ more) : Faithful join leaves children :=
  ⟨fun x hx => h.pair x (hs hx), fun x hx => h.leaf x (hs hx)⟩

theorem Distinct.mono {children more : List (Option α × Option α)} (h : Distinct more) (hs : children ⊆ more) :
    Distinct children := fun x hx => h x (hs hx)

/-- Every flagged leaf of a node stands at its own place below the node of the whole tree
    with the same value. -/
theorem matched_sublist_below {leaves : List α} {t : Partial α} {height level pos : Nat} {a : α}
    (hf : Faithful join leaves (t.childValues join)) (hd : Distinct (t.childValues join)) (hh : t.OfHeight height)
    (hv : t.value join = some a) (hn : node join leaves level pos = some a) :
    (t.matched.filterMap id).Sublist (below join leaves level height pos) := by
  induction t generalizing height level pos a with
  | spent => exact List.nil_sublist _
  | taken flagged hash =>
    obtain rfl : hash = some a := hv
    cases flagged with
    | false => exact List.nil_sublist _
    | true =>
      obtain rfl : height = 0 := hh rfl
      rw [below_zero, hn]
      exact List.Sublist.refl _
  | node left right ihl ihr =>
    obtain ⟨h, rfl, hhl, hhr⟩ := hh
    rw [Partial.childValues_node] at hf hd
    have hmem : (left.value join, right.value join) ∈
        (left.value join, right.value join) :: (left.childValues join ++ right.childValues join) := List.mem_cons_self
    have hsubl : left.childValues join ⊆
        (left.value join, right.value join) :: (left.childValues join ++ right.childValues join) :=
      List.subset_cons_of_subset _ (List.subset_append_left _ _)
    have hsubr : right.childValues join ⊆
        (left.value join, right.value join) :: (left.childValues join ++ right.childValues join) :=
      List.subset_cons_of_subset _ (List.subset_append_right _ _)
    obtain rfl := Option.some.inj hv
    cases level with
    | zero => exact absurd (List.mem_of_getElem? hn) (hf.leaf _ hmem)
    | succ level =>
      rw [node] at hn
      cases hl : node join leaves level (2 * pos) with
      | none =>
        rw [hl] at hn
        cases hn
      | some b =>
        rw [hl] at hn
        obtain ⟨hleft, hright⟩ := hf.pair _ hmem level pos b hl (Option.some.inj hn).symm
        dsimp only at hleft hright
        rw [below_succ, Partial.matched, List.filterMap_append]
        apply List.Sublist.append
        · exact ihl (hf.mono hsubl) (hd.mono hsubl) hhl hleft hl
        · cases hr : right.value join with
          | none =>
            rw [Partial.matched_of_value_none join hr]
            exact List.nil_sublist _
          | some r =>
            rw [hr, Option.getD_some] at hright
            apply ihr (hf.mono hsubr) (hd.mono hsubr) hhr hr
            cases hnr : node join leaves level (2 * pos + 1) with
            | some r' =>
              rw [hnr, Option.getD_some] at hright
              rw [hright]
            | none =>
              -- a copy that was supplied
              rw [hnr, Option.getD_none] at hright
              exact absurd (hr.trans (congrArg some hright)) (hd _ hmem b hleft)

/-- Pairs of the whole tree with the same hash have the same left child. -/
def Injective (join : Option α → Option α → α) (leaves : List α) : Prop :=
  ∀ level p q a b, node join leaves level (2 * p) = some a → node join leaves level (2 * q) = some b →
    join (some a) (node join leaves level (2 * p + 1)) = join (some b) (node join leaves level (2 * q + 1)) → a = b

/-- With distinct leaves no two places of a level have the same hash. -/
theorem node_inj {leaves : List α} (hinj : Injective join leaves) (hnd : leaves.Nodup) {level p q : Nat} {a : α}
    (hp : node join leaves level p = some a) (hq : node join leaves level q = some a) : p = q := by
  induction level generalizing p q a with
  | zero =>
    obtain ⟨hlt, hp⟩ := List.getElem?_eq_some_iff.mp hp
    obtain ⟨hlt', hq⟩ := List.getElem?_eq_some_iff.mp hq
    exact (hnd.getElem_inj_iff).mp (hp.trans hq.symm)
  | succ level ih =>
    rw [node] at hp hq
    cases hl : node join leaves level (2 * p) with
    | none =>
      rw [hl] at hp
      cases hp
    | some b =>
      cases hl' : node join leaves level (2 * q) with
      | none =>
        rw [hl'] at hq
        cases hq
      | some b' =>
        rw [hl] at hp
        rw [hl'] at hq
        obtain rfl := hinj level p q b b' hl hl' (Option.some.inj (hp.trans hq.symm))
        have := ih hl hl'
        omega

theorem below_nodup {leaves : List α} (hinj : Injective join leaves) (hnd : leaves.Nodup) (level height pos : Nat) :
    (below join leaves level height pos).Nodup := by
  unfold below
  split
  · apply List.Nodup.filterMap
    · intro p q a hp hq
      exact node_inj hinj hnd hp hq
    · exact List.nodup_range'
  · exact List.nodup_nil

end BitcoinSpoon.Merkle
