/-
  BitcoinSpoon.Merkle.Tree — Merkle trees over any hash, whole and partial.

  `join` hashes a left child with a right child that may be absent; `DupRight` says that an
  absent right child stands for a copy of the left one. The whole tree over a list of
  leaves is read by height and position (`node`). A partial tree (`Partial`) is what a
  depth-first reader makes of a list of flag bits and a list of hashes (`read`): a node
  whose bit is set is opened, any other takes the next hash, and either list may run out.
  Nothing here names a program.

  - `climb_of_isPath`: a path in a partial tree leads from its leaf to the value of the tree.
  - `exists_isPath`: every flagged leaf that got a hash has one.
  - `none_mem_matched`: a flagged leaf goes without a hash exactly when the bits ask for
    more hashes in front of it than there are (`requests`).
-/

import Mathlib.Data.List.Basic
import Mathlib.Tactic.Ring

namespace BitcoinSpoon.Merkle

variable {α β : Type} (join : Option α → Option α → α)

/-- An absent right child is the left one again. -/
def DupRight : Prop := ∀ a, join (some a) none = join (some a) (some a)

/-! ## The whole tree -/

/-- The node at `height` and `pos`, with leaves at height 0. -/
def node (leaves : List α) : Nat → Nat → Option α
  | 0, pos => leaves[pos]?
  | height + 1, pos =>
    match node leaves height (2 * pos) with
    | none => none
    | some left => some (join (some left) (node leaves height (2 * pos + 1)))

theorem node_isSome (leaves : List α) (height pos : Nat) :
    (node join leaves height pos).isSome ↔ pos * 2 ^ height < leaves.length := by
  induction height generalizing pos with
  | zero => simp [node]
  | succ height ih =>
    have hpow : pos * 2 ^ (height + 1) = 2 * pos * 2 ^ height := by rw [Nat.pow_succ]; ring
    rw [hpow, ← ih, node]
    cases node join leaves height (2 * pos) <;> rfl

theorem node_eq_none {leaves : List α} {height pos : Nat} :
    node join leaves height pos = none ↔ leaves.length ≤ pos * 2 ^ height := by
  rw [← Nat.not_lt, ← node_isSome join, Option.not_isSome_iff_eq_none]

/-- The positions of level 0 below a node. -/
def segment (height pos : Nat) : List Nat := List.range' (pos * 2 ^ height) (2 ^ height)

theorem segment_zero (pos : Nat) : segment 0 pos = [pos] := by simp [segment]

theorem segment_succ (height pos : Nat) :
    segment (height + 1) pos = segment height (2 * pos) ++ segment height (2 * pos + 1) := by
  have hstart : pos * 2 ^ (height + 1) = 2 * pos * 2 ^ height := by rw [Nat.pow_succ]; ring
  have hnext : (2 * pos + 1) * 2 ^ height = 2 * pos * 2 ^ height + 1 * 2 ^ height := by ring
  have hlen : 2 ^ (height + 1) = 2 ^ height + 2 ^ height := by rw [Nat.pow_succ]; omega
  unfold segment
  rw [hstart, hnext, hlen, Nat.one_mul]
  exact (List.range'_append_1 ..).symm

theorem mem_segment {height pos p : Nat} :
    p ∈ segment height pos ↔ pos * 2 ^ height ≤ p ∧ p < (pos + 1) * 2 ^ height := by
  rw [segment, List.mem_range'_1, Nat.add_mul, Nat.one_mul]

/-- What holds of the leaves and of every value of `join` holds of every node. -/
theorem node_of {leaves : List α} {P : α → Prop} (hP : ∀ a ∈ leaves, P a) (hjoin : ∀ left right, P (join left right))
    {height pos : Nat} {a : α} (h : node join leaves height pos = some a) : P a := by
  cases height with
  | zero => exact hP a (List.mem_of_getElem? h)
  | succ height =>
    rw [node] at h
    cases hl : node join leaves height (2 * pos) with
    | none =>
      rw [hl] at h
      cases h
    | some left =>
      rw [hl] at h
      obtain rfl := Option.some.inj h
      exact hjoin _ _

/-! ## Partial trees -/

/-- `spent`: there was no bit left. `taken`: the node took the next hash, if there was one;
    `flagged` for a leaf whose bit was set. -/
inductive Partial (α : Type) where
  | spent
  | taken (flagged : Bool) (hash : Option α)
  | node (left right : Partial α)

/-- Reads a node of `height` from the bits and the hashes. -/
def read : Nat → List Bool → List α → Partial α × List Bool × List α
  | _, [], hashes => (.spent, [], hashes)
  | _, false :: bits, hashes => (.taken false hashes.head?, bits, hashes.tail)
  | 0, true :: bits, hashes => (.taken true hashes.head?, bits, hashes.tail)
  | height + 1, true :: bits, hashes =>
    let (left, bits, hashes) := read height bits hashes
    let (right, bits, hashes) := read height bits hashes
    (.node left right, bits, hashes)

/-- The tree alone. -/
def tree (height : Nat) (bits : List Bool) (hashes : List α) : Partial α := (read height bits hashes).1

namespace Partial

def value : Partial α → Option α
  | spent => none
  | taken _ hash => hash
  | node left right => some (join left.value right.value)

/-- The flagged leaves from left to right. -/
def matched : Partial α → List (Option α)
  | spent => []
  | taken flagged hash => if flagged then [hash] else []
  | node left right => left.matched ++ right.matched

/-- The two children of every opened node. -/
def children : Partial α → List (Partial α × Partial α)
  | spent => []
  | taken _ _ => []
  | node left right => (left, right) :: (left.children ++ right.children)

def map (f : α → β) : Partial α → Partial β
  | spent => spent
  | taken flagged hash => taken flagged (hash.map f)
  | node left right => node (left.map f) (right.map f)

theorem children_map (f : α → β) (t : Partial α) :
    (t.map f).children = t.children.map fun c => (c.1.map f, c.2.map f) := by
  induction t with
  | spent => rfl
  | taken => rfl
  | node left right ihl ihr => simp [map, children, ihl, ihr]

/-- Every hash in the tree is one of the list. -/
def From (hashes : List α) : Partial α → Prop
  | spent => True
  | taken _ hash => ∀ a, hash = some a → a ∈ hashes
  | node left right => left.From hashes ∧ right.From hashes

end Partial

theorem read_nil (height : Nat) (hashes : List α) : read height [] hashes = (.spent, [], hashes) := by
  cases height <;> rfl

theorem read_false (height : Nat) (bits : List Bool) (hashes : List α) :
    read height (false :: bits) hashes = (.taken false hashes.head?, bits, hashes.tail) := by
  cases height <;> rfl

/-! ## Paths -/

/-- From a leaf up: each step has the sibling, and whether it stands on the left. -/
def climb (a : α) (path : List (Bool × α)) : α :=
  path.foldl (fun a step => if step.1 then join (some step.2) (some a) else join (some a) (some step.2)) a

theorem climb_concat (a : α) (path : List (Bool × α)) (step : Bool × α) :
    climb join a (path ++ [step]) =
      if step.1 then join (some step.2) (some (climb join a path)) else join (some (climb join a path)) (some step.2) := by
  rw [climb, List.foldl_append]
  rfl

/-- The path of a flagged leaf in the tree; its siblings are the values of the nodes next to
    it, or a copy where there is none. -/
inductive IsPath : Partial α → α → List (Bool × α) → Prop
  | leaf (a : α) : IsPath (.taken true (some a)) a []
  | left {left right : Partial α} {a s : α} {path : List (Bool × α)} :
      IsPath left a path → (right.value join).or (left.value join) = some s →
      IsPath (.node left right) a (path ++ [(false, s)])
  | right {left right : Partial α} {a s : α} {path : List (Bool × α)} :
      IsPath right a path → left.value join = some s → IsPath (.node left right) a (path ++ [(true, s)])

variable {join}

theorem climb_of_isPath (hdup : DupRight join) {t : Partial α} {a : α} {path : List (Bool × α)}
    (h : IsPath join t a path) : t.value join = some (climb join a path) := by
  induction h with
  | leaf a => rfl
  | left hl hs ih =>
    rename_i left right a s path
    rw [climb_concat, Partial.value, ih]
    rw [ih] at hs
    cases hr : right.value join with
    | none =>
      rw [hr] at hs
      obtain rfl := Option.some.inj hs
      exact congrArg some (hdup _)
    | some r =>
      rw [hr] at hs
      obtain rfl := Option.some.inj hs
      rfl
  | right hr hs ih =>
    rw [climb_concat, Partial.value, ih, hs]
    rfl

/-! ## What a reading uses -/

theorem read_suffix (height : Nat) (bits : List Bool) (hashes : List α) : (read height bits hashes).2.2 <:+ hashes := by
  induction height generalizing bits hashes with
  | zero =>
    rcases bits with _ | ⟨_ | _, bits⟩
    · exact List.suffix_refl _
    · exact List.tail_suffix _
    · exact List.tail_suffix _
  | succ height ih =>
    rcases bits with _ | ⟨_ | _, bits⟩
    · exact List.suffix_refl _
    · exact List.tail_suffix _
    · exact (ih _ _).trans (ih _ _)

theorem Partial.From.mono {t : Partial α} {hashes more : List α} (h : t.From hashes) (hs : hashes ⊆ more) :
    t.From more := by
  induction t with
  | spent => trivial
  | taken flagged hash => exact fun a ha => hs (h a ha)
  | node left right ihl ihr => exact ⟨ihl h.1, ihr h.2⟩

theorem read_from (height : Nat) (bits : List Bool) (hashes : List α) : (read height bits hashes).1.From hashes := by
  have hhead : ∀ (flagged : Bool) (hashes : List α), (Partial.taken flagged hashes.head?).From hashes := by
    intro flagged hashes a ha
    exact List.mem_of_mem_head? ha
  induction height generalizing bits hashes with
  | zero =>
    rcases bits with _ | ⟨_ | _, bits⟩
    · trivial
    · exact hhead false hashes
    · exact hhead true hashes
  | succ height ih =>
    rcases bits with _ | ⟨_ | _, bits⟩
    · trivial
    · exact hhead false hashes
    · exact ⟨ih _ _, (ih _ _).mono (read_suffix _ _ _).subset⟩

theorem tree_from (height : Nat) (bits : List Bool) (hashes : List α) : (tree height bits hashes).From hashes :=
  read_from height bits hashes

theorem Partial.From.children {t : Partial α} {hashes : List α} (h : t.From hashes) :
    ∀ x ∈ t.children, x.1.From hashes ∧ x.2.From hashes := by
  induction t with
  | spent => simp [Partial.children]
  | taken => simp [Partial.children]
  | node left right ihl ihr =>
    intro x hx
    rcases List.mem_cons.mp hx with rfl | hx
    · exact h
    rcases List.mem_append.mp hx with hx | hx
    · exact ihl h.1 x hx
    · exact ihr h.2 x hx

theorem Partial.From.matched {t : Partial α} {hashes : List α} (h : t.From hashes) {a : α} (ha : some a ∈ t.matched) :
    a ∈ hashes := by
  induction t with
  | spent => cases ha
  | taken flagged hash =>
    cases flagged with
    | false => cases ha
    | true => exact h a (List.mem_singleton.mp ha).symm
  | node left right ihl ihr =>
    rcases List.mem_append.mp ha with ha | ha
    · exact ihl h.1 ha
    · exact ihr h.2 ha

/-- A node without a value met the end of the bits or of the hashes. -/
theorem read_value_none {height : Nat} {bits : List Bool} {hashes : List α}
    (h : (read height bits hashes).1.value join = none) :
    (read height bits hashes).1.matched ⊆ [none] ∧
      ((read height bits hashes).2.1 = [] ∨ (read height bits hashes).2.2 = []) := by
  have hhead : hashes.head? = none → hashes.tail = [] := by
    cases hashes <;> simp
  rcases bits with _ | ⟨_ | _, bits⟩
  · rw [read_nil]
    exact ⟨by simp [Partial.matched], Or.inl rfl⟩
  · rw [read_false] at h ⊢
    exact ⟨by simp [Partial.matched], Or.inr (hhead h)⟩
  · cases height with
    | zero =>
      have h0 : hashes.head? = none := h
      refine ⟨?_, Or.inr (hhead h0)⟩
      simp [read, Partial.matched, h0]
    | succ height => cases h

theorem read_without_hashes (height : Nat) (bits : List Bool) :
    (read height bits ([] : List α)).1.matched ⊆ [none] ∧ (read height bits ([] : List α)).2.2 = [] := by
  induction height generalizing bits with
  | zero =>
    rcases bits with _ | ⟨_ | _, bits⟩
    · simp [read, Partial.matched]
    · simp [read, Partial.matched]
    · simp [read, Partial.matched]
  | succ height ih =>
    rcases bits with _ | ⟨_ | _, bits⟩
    · simp [read, Partial.matched]
    · simp [read, Partial.matched]
    · obtain ⟨hl, hnil⟩ := ih bits
      obtain ⟨hr, hnil'⟩ := ih (read height bits ([] : List α)).2.1
      simp only [read, Partial.matched, hnil]
      exact ⟨List.append_subset.mpr ⟨hl, hr⟩, hnil'⟩

theorem IsPath.value_isSome {t : Partial α} {a : α} {path : List (Bool × α)} (h : IsPath join t a path) :
    (t.value join).isSome := by
  cases h <;> rfl

variable (join) in
/-- Every flagged leaf with a hash has a path. -/
theorem exists_isPath {height : Nat} {bits : List Bool} {hashes : List α} {a : α}
    (ha : some a ∈ (read height bits hashes).1.matched) : ∃ path, IsPath join (read height bits hashes).1 a path := by
  induction height generalizing bits hashes with
  | zero =>
    rcases bits with _ | ⟨_ | _, bits⟩
    · cases ha
    · cases ha
    · obtain h := List.mem_singleton.mp ha
      refine ⟨[], ?_⟩
      show IsPath join (.taken true hashes.head?) a []
      rw [← h]
      exact IsPath.leaf a
  | succ height ih =>
    rcases bits with _ | ⟨_ | _, bits⟩
    · cases ha
    · cases ha
    · rcases List.mem_append.mp ha with ha | ha
      · obtain ⟨path, hpath⟩ := ih ha
        obtain ⟨v, hv⟩ := Option.isSome_iff_exists.mp hpath.value_isSome
        cases hr : (read height (read height bits hashes).2.1 (read height bits hashes).2.2).1.value join with
        | none => exact ⟨_, IsPath.left hpath (by rw [hr, hv]; rfl)⟩
        | some r => exact ⟨_, IsPath.left hpath (by rw [hr]; rfl)⟩
      · obtain ⟨path, hpath⟩ := ih ha
        cases hl : (read height bits hashes).1.value join with
        | some l => exact ⟨_, IsPath.right hpath hl⟩
        | none =>
          -- nothing is left for the right child
          obtain ⟨_, hnil | hnil⟩ := read_value_none hl
          · rw [hnil, read_nil] at ha
            cases ha
          · rw [hnil] at ha
            have := (read_without_hashes _ _).1 ha
            simp at this

theorem Partial.From.value {t : Partial α} {hashes : List α} (h : t.From hashes) {P : α → Prop} (hP : ∀ a ∈ hashes, P a)
    (hjoin : ∀ left right, P (join left right)) {a : α} (ha : t.value join = some a) : P a := by
  cases t with
  | spent => cases ha
  | taken flagged hash => exact hP a (h a ha)
  | node left right =>
    obtain rfl := Option.some.inj ha
    exact hjoin _ _

/-- What holds of the hashes and of every value of `join` holds of the siblings. -/
theorem IsPath.siblings {t : Partial α} {hashes : List α} (hfrom : t.From hashes) {P : α → Prop} (hP : ∀ a ∈ hashes, P a)
    (hjoin : ∀ left right, P (join left right)) {a : α} {path : List (Bool × α)} (h : IsPath join t a path) :
    ∀ step ∈ path, P step.2 := by
  induction h with
  | leaf a => simp
  | left hl hs ih =>
    intro step hstep
    rcases List.mem_append.mp hstep with hstep | hstep
    · exact ih hfrom.1 step hstep
    obtain rfl := List.mem_singleton.mp hstep
    rcases Option.or_eq_some_iff.mp hs with hr | ⟨_, hl⟩
    · exact hfrom.2.value hP hjoin hr
    · exact hfrom.1.value hP hjoin hl
  | right hr hs ih =>
    intro step hstep
    rcases List.mem_append.mp hstep with hstep | hstep
    · exact ih hfrom.2 step hstep
    obtain rfl := List.mem_singleton.mp hstep
    exact hfrom.1.value hP hjoin hs

/-! ## How many hashes the bits ask for -/

/-- One entry for each node that takes a hash, in order; `true` for a flagged leaf. -/
def requests : Nat → List Bool → List Bool × List Bool
  | _, [] => ([], [])
  | _, false :: bits => ([false], bits)
  | 0, true :: bits => ([true], bits)
  | height + 1, true :: bits =>
    let (left, bits) := requests height bits
    let (right, bits) := requests height bits
    (left ++ right, bits)

/-- The requests alone. -/
def requested (height : Nat) (bits : List Bool) : List Bool := (requests height bits).1

theorem read_requests (height : Nat) (bits : List Bool) (hashes : List α) :
    (read height bits hashes).2.1 = (requests height bits).2 ∧
      (read height bits hashes).2.2 = hashes.drop (requests height bits).1.length := by
  induction height generalizing bits hashes with
  | zero =>
    rcases bits with _ | ⟨_ | _, bits⟩
    · exact ⟨rfl, rfl⟩
    · exact ⟨rfl, List.drop_one.symm⟩
    · exact ⟨rfl, List.drop_one.symm⟩
  | succ height ih =>
    rcases bits with _ | ⟨_ | _, bits⟩
    · exact ⟨rfl, rfl⟩
    · exact ⟨rfl, List.drop_one.symm⟩
    · obtain ⟨hbits, hhashes⟩ := ih bits hashes
      obtain ⟨hbits', hhashes'⟩ := ih (requests height bits).2 (hashes.drop (requests height bits).1.length)
      simp only [read, requests, hbits, hhashes, hbits', hhashes', List.drop_drop, List.length_append]
      exact ⟨trivial, trivial⟩

theorem none_mem_matched (height : Nat) (bits : List Bool) (hashes : List α) :
    none ∈ (read height bits hashes).1.matched ↔
      ∃ k, (requests height bits).1[k]? = some true ∧ hashes.length ≤ k := by
  induction height generalizing bits hashes with
  | zero =>
    rcases bits with _ | ⟨_ | _, bits⟩
    · simp [read, requests, Partial.matched]
    · simp [read, requests, Partial.matched, List.getElem?_singleton]
    · simp [read, requests, Partial.matched, List.getElem?_singleton, eq_comm]
  | succ height ih =>
    rcases bits with _ | ⟨_ | _, bits⟩
    · simp [read, requests, Partial.matched]
    · simp [read, requests, Partial.matched, List.getElem?_singleton]
    · obtain ⟨hbits, hhashes⟩ := read_requests height bits hashes
      have hl := ih bits hashes
      have hr := ih (requests height bits).2 (hashes.drop (requests height bits).1.length)
      show none ∈ _ ++ _ ↔ ∃ k, (_ ++ _)[k]? = some true ∧ _
      rw [List.mem_append, hbits, hhashes, hl, hr, List.length_drop]
      constructor
      · rintro (⟨k, hk, hle⟩ | ⟨k, hk, hle⟩)
        · refine ⟨k, ?_, hle⟩
          rw [List.getElem?_append_left (List.getElem?_eq_some_iff.mp hk).1, hk]
        · refine ⟨(requests height bits).1.length + k, ?_, by omega⟩
          rw [List.getElem?_append_right (by omega), Nat.add_sub_cancel_left, hk]
      · rintro ⟨k, hk, hle⟩
        by_cases hlt : k < (requests height bits).1.length
        · rw [List.getElem?_append_left hlt] at hk
          exact Or.inl ⟨k, hk, hle⟩
        · rw [List.getElem?_append_right (by omega)] at hk
          exact Or.inr ⟨_, hk, by omega⟩

theorem none_mem_matched_tree (height : Nat) (bits : List Bool) (hashes : List α) :
    none ∈ (tree height bits hashes).matched ↔ ∃ k, (requested height bits)[k]? = some true ∧ hashes.length ≤ k :=
  none_mem_matched height bits hashes

theorem read_map (f : α → β) (height : Nat) (bits : List Bool) (hashes : List α) :
    read height bits (hashes.map f) =
      ((read height bits hashes).1.map f, (read height bits hashes).2.1, (read height bits hashes).2.2.map f) := by
  induction height generalizing bits hashes with
  | zero =>
    rcases bits with _ | ⟨_ | _, bits⟩
    · rfl
    · simp [read, Partial.map]
    · simp [read, Partial.map]
  | succ height ih =>
    rcases bits with _ | ⟨_ | _, bits⟩
    · rfl
    · simp [read, Partial.map]
    · simp only [read, ih, Partial.map]

end BitcoinSpoon.Merkle
