/-
  BitcoinSpoon.Loop.SortSearch — sorting and searching by a comparison.

  `qsort` and `bsearch` as their documentation has them: they do what they are for when the
  comparison is consistent on what they are given, and nothing is known of them when it is
  not. A loop that searches for an element, adds it where it finds none and sorts again
  collects every element exactly when the comparison is consistent and an element to be
  added ties with no other (`addMissing_right_iff`): what ties is taken for the same.
  Nothing here names a program.
-/

import BitcoinSpoon.Loop.Rules
import Mathlib.Data.List.Sort

namespace BitcoinSpoon.Loop

variable {α : Type}

structure SortLibrary (α : Type) where
  qsort : (α → α → Int) → List α → List α
  /-- The comparison, the key and the array. -/
  bsearch : (α → α → Int) → α → List α → Option α

/-- The comparison is a total preorder on the list. -/
structure Consistent (compare : α → α → Int) (l : List α) : Prop where
  swap : ∀ a ∈ l, ∀ b ∈ l, compare a b < 0 ↔ 0 < compare b a
  chain : ∀ a ∈ l, ∀ b ∈ l, ∀ c ∈ l, compare a b ≤ 0 → compare b c ≤ 0 → compare a c ≤ 0

def Sorted (compare : α → α → Int) (l : List α) : Prop := l.Pairwise fun a b => compare a b ≤ 0

structure SortLibrary.Lawful (lib : SortLibrary α) : Prop where
  qsort_perm : ∀ compare l, Consistent compare l → (lib.qsort compare l).Perm l
  qsort_sorted : ∀ compare l, Consistent compare l → Sorted compare (lib.qsort compare l)
  bsearch_found : ∀ compare key l x, Consistent compare (key :: l) → Sorted compare l →
    lib.bsearch compare key l = some x → x ∈ l ∧ compare key x = 0
  bsearch_missing : ∀ compare key l, Consistent compare (key :: l) → Sorted compare l →
    lib.bsearch compare key l = none → ∀ x ∈ l, compare key x ≠ 0

/-- Adds what a search does not find, and sorts after each addition. -/
def addMissing (lib : SortLibrary α) (compare : α → α → Int) (array additions : List α) : List α :=
  additions.foldl (fun array x => if (lib.bsearch compare x array).isSome then array else lib.qsort compare (array ++ [x])) array

variable {compare : α → α → Int} {lib : SortLibrary α} {l m : List α}

theorem Consistent.mono (h : Consistent compare l) (hsub : m ⊆ l) : Consistent compare m :=
  ⟨fun a ha b hb => h.swap a (hsub ha) b (hsub hb),
    fun a ha b hb c hc => h.chain a (hsub ha) b (hsub hb) c (hsub hc)⟩

theorem Consistent.self (h : Consistent compare l) {a : α} (ha : a ∈ l) : compare a a = 0 := by
  have hswap := h.swap a ha a ha
  omega

theorem Consistent.symm (h : Consistent compare l) {a b : α} (ha : a ∈ l) (hb : b ∈ l) (hab : compare a b = 0) :
    compare b a = 0 := by
  have hswap := h.swap a ha b hb
  have hswap' := h.swap b hb a ha
  omega

/-- All elements, each once. -/
def Collects (result receive additions : List α) : Prop := result.Nodup ∧ ∀ x, x ∈ result ↔ x ∈ receive ∨ x ∈ additions

/-- No addition ties with another element. -/
def Untied (compare : α → α → Int) (receive additions : List α) : Prop :=
  ∀ x ∈ additions, x ∉ receive → ∀ y ∈ receive ++ additions, compare x y = 0 → y = x

theorem addMissing_collects (hlib : lib.Lawful) {receive additions : List α} (hreceive : receive.Nodup)
    (hconsistent : Consistent compare (receive ++ additions)) (huntied : Untied compare receive additions) :
    Collects (addMissing lib compare (lib.qsort compare receive) additions) receive additions := by
  have hfirst : Consistent compare receive := hconsistent.mono (List.subset_append_left _ _)
  have hperm := hlib.qsort_perm compare receive hfirst
  -- what has been collected from the elements visited so far, in order
  have hall := foldl_rule (fun (visited array : List α) => Sorted compare array ∧ Collects array receive visited)
    (l := additions)
    (f := fun array x => if (lib.bsearch compare x array).isSome then array else lib.qsort compare (array ++ [x]))
    (s := lib.qsort compare receive)
    ⟨hlib.qsort_sorted compare receive hfirst, hperm.nodup_iff.2 hreceive, fun x => by rw [hperm.mem_iff]; simp⟩
    (by
      rintro visited x rest hl array ⟨hsorted, hnodup, hmem⟩
      have hx : x ∈ additions := by rw [hl]; simp
      have hsub : x :: array ⊆ receive ++ additions := by
        intro y hy
        rcases List.mem_cons.1 hy with rfl | hy
        · exact List.mem_append_right _ hx
        · rcases (hmem y).1 hy with hy | hy
          · exact List.mem_append_left _ hy
          · exact List.mem_append_right _ (by rw [hl]; exact List.mem_append_left _ hy)
      have hcons := hconsistent.mono hsub
      cases hsearch : lib.bsearch compare x array with
      | some y =>
        obtain ⟨hy, htie⟩ := hlib.bsearch_found compare x array y hcons hsorted hsearch
        have hold : x ∈ array := by
          by_cases hreceived : x ∈ receive
          · exact (hmem x).2 (Or.inl hreceived)
          · rw [← huntied x hx hreceived y (hsub (List.mem_cons_of_mem _ hy)) htie]
            exact hy
        refine ⟨hsorted, hnodup, fun z => ?_⟩
        show z ∈ array ↔ _
        rw [hmem z, List.mem_append, List.mem_singleton, ← or_assoc]
        constructor
        · exact Or.inl
        · rintro (h | rfl)
          · exact h
          · exact (hmem z).1 hold
      | none =>
        have hmissing := hlib.bsearch_missing compare x array hcons hsorted hsearch
        have hnew : x ∉ array := fun hold => hmissing x hold (hcons.self List.mem_cons_self)
        have hgrown : Consistent compare (array ++ [x]) := hcons.mono (by
          intro y hy
          rcases List.mem_append.1 hy with hy | hy
          · exact List.mem_cons_of_mem _ hy
          · rw [List.mem_singleton.1 hy]
            exact List.mem_cons_self)
        have hperm := hlib.qsort_perm compare (array ++ [x]) hgrown
        refine ⟨hlib.qsort_sorted compare _ hgrown, hperm.nodup_iff.2 ?_, fun z => ?_⟩
        · rw [List.nodup_append_comm]
          exact List.nodup_cons.2 ⟨hnew, hnodup⟩
        · show z ∈ lib.qsort compare (array ++ [x]) ↔ _
          rw [hperm.mem_iff, List.mem_append, hmem z, List.mem_append, or_assoc])
  exact hall.2

/-! ## A library that does no more than it promises -/

/-- The list in order, through its elements: there the comparison is total. -/
def sortedWhere (compare : α → α → Int) (l : List α) : List α :=
  (l.attach.mergeSort fun a b => decide (compare a.1 b.1 ≤ 0)).map Subtype.val

theorem sortedWhere_perm (compare : α → α → Int) (l : List α) : (sortedWhere compare l).Perm l := by
  have hperm := (List.mergeSort_perm l.attach fun a b => decide (compare a.1 b.1 ≤ 0)).map Subtype.val
  rwa [List.attach_map_subtype_val] at hperm

theorem sortedWhere_sorted (h : Consistent compare l) : Sorted compare (sortedWhere compare l) := by
  have hsorted := @List.pairwise_mergeSort _ (fun a b : { x // x ∈ l } => decide (compare a.1 b.1 ≤ 0))
    (fun a b c hab hbc => decide_eq_true (h.chain a a.2 b b.2 c c.2 (of_decide_eq_true hab) (of_decide_eq_true hbc)))
    (fun a b => by
      have hswap := h.swap b b.2 a a.2
      by_cases hab : compare a b ≤ 0
      · rw [decide_eq_true hab, Bool.true_or]
      · rw [decide_eq_true (show compare b a ≤ 0 by omega), Bool.or_true])
    l.attach
  refine (List.pairwise_map.2 ?_)
  exact hsorted.imp fun hab => of_decide_eq_true hab

open Classical in
/-- Where nothing is promised it gives nothing back. -/
noncomputable def bareLibrary : SortLibrary α where
  qsort compare l := if Consistent compare l then sortedWhere compare l else []
  bsearch compare key l := l.find? fun x => compare key x = 0

theorem bareLibrary_qsort (h : Consistent compare l) : bareLibrary.qsort compare l = sortedWhere compare l := if_pos h

theorem bareLibrary_qsort_nil (h : ¬ Consistent compare l) : bareLibrary.qsort compare l = [] := if_neg h

theorem bareLibrary_lawful : (bareLibrary : SortLibrary α).Lawful where
  qsort_perm compare l h := by
    rw [bareLibrary_qsort h]
    exact sortedWhere_perm compare l
  qsort_sorted compare l h := by
    rw [bareLibrary_qsort h]
    exact sortedWhere_sorted h
  bsearch_found compare key l x _ _ h :=
    ⟨List.mem_of_find?_eq_some h, of_decide_eq_true (@List.find?_some _ (fun x => decide (compare key x = 0)) _ _ h)⟩
  bsearch_missing compare key l _ _ h x hx := by
    have hnone := List.find?_eq_none.1 h x hx
    rwa [decide_eq_true_eq] at hnone

theorem bareLibrary_subset (compare : α → α → Int) (l : List α) : bareLibrary.qsort compare l ⊆ l := by
  by_cases h : Consistent compare l
  · rw [bareLibrary_qsort h]
    exact (sortedWhere_perm compare l).subset
  · rw [bareLibrary_qsort_nil h]
    exact List.nil_subset l

theorem bareLibrary_consistent (compare : α → α → Int) (l : List α) : Consistent compare (bareLibrary.qsort compare l) := by
  by_cases h : Consistent compare l
  · exact h.mono (bareLibrary_subset compare l)
  · rw [bareLibrary_qsort_nil h]
    exact ⟨fun a ha => absurd ha List.not_mem_nil, fun a ha => absurd ha List.not_mem_nil⟩

/-- What it collects is consistent, and no two elements tie of which one was added. -/
theorem addMissing_bare (compare : α → α → Int) (receive additions : List α) :
    Consistent compare (addMissing bareLibrary compare (bareLibrary.qsort compare receive) additions) ∧
      ∀ x ∈ addMissing bareLibrary compare (bareLibrary.qsort compare receive) additions, x ∉ receive →
        ∀ y ∈ addMissing bareLibrary compare (bareLibrary.qsort compare receive) additions, compare x y = 0 → y = x := by
  refine foldl_inv (fun array : List α => Consistent compare array ∧
    ∀ x ∈ array, x ∉ receive → ∀ y ∈ array, compare x y = 0 → y = x)
    ⟨bareLibrary_consistent compare receive, fun x hx hnot => absurd (bareLibrary_subset compare receive hx) hnot⟩ ?_
  rintro x - array ⟨hcons, huntied⟩
  cases hsearch : bareLibrary.bsearch compare x array with
  | some y => exact ⟨hcons, huntied⟩
  | none =>
    refine ⟨bareLibrary_consistent compare _, ?_⟩
    have hmissing : ∀ y ∈ array, compare x y ≠ 0 := fun y hy => by
      have hnone := List.find?_eq_none.1 hsearch y hy
      rwa [decide_eq_true_eq] at hnone
    intro a ha hnot b hb htie
    have hgrown := bareLibrary_consistent compare (array ++ [x])
    change a ∈ bareLibrary.qsort compare (array ++ [x]) at ha
    change b ∈ bareLibrary.qsort compare (array ++ [x]) at hb
    rcases List.mem_append.1 (bareLibrary_subset compare _ ha) with ha' | ha'
    · rcases List.mem_append.1 (bareLibrary_subset compare _ hb) with hb' | hb'
      · exact huntied a ha' hnot b hb' htie
      · obtain rfl := List.mem_singleton.1 hb'
        exact absurd (hgrown.symm ha hb htie) (hmissing a ha')
    · obtain rfl := List.mem_singleton.1 ha'
      rcases List.mem_append.1 (bareLibrary_subset compare _ hb) with hb' | hb'
      · exact absurd htie (hmissing b hb')
      · exact List.mem_singleton.1 hb'

/-- Whatever the library does within its promises, every element is collected once, exactly
    when the comparison is consistent and no addition ties with another element. -/
theorem addMissing_right_iff {receive additions : List α} (hreceive : receive.Nodup) :
    (∀ lib : SortLibrary α, lib.Lawful →
        Collects (addMissing lib compare (lib.qsort compare receive) additions) receive additions) ↔
      Consistent compare (receive ++ additions) ∧ Untied compare receive additions := by
  constructor
  · intro h
    obtain ⟨-, hmem⟩ := h bareLibrary bareLibrary_lawful
    obtain ⟨hcons, huntied⟩ := addMissing_bare compare receive additions
    have hall : receive ++ additions ⊆ addMissing bareLibrary compare (bareLibrary.qsort compare receive) additions :=
      fun x hx => (hmem x).2 (List.mem_append.1 hx)
    exact ⟨hcons.mono hall, fun x hx hnot y hy => huntied x (hall (List.mem_append_right _ hx)) hnot y (hall hy)⟩
  · rintro ⟨hconsistent, huntied⟩ lib hlib
    exact addMissing_collects hlib hreceive hconsistent huntied

end BitcoinSpoon.Loop
