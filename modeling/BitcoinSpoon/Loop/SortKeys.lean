/-
  BitcoinSpoon.Loop.SortKeys — a comparison that stands for the order of a key.

  Where every comparison has the sign of the order of the keys, the library sorts by the
  key, and the keys of the result are those of any other arrangement of the list
  (`sortsBy_of_agrees`). One comparison that has the opposite sign is enough to lose
  that: either the comparison is not consistent and nothing is promised, or the pair comes
  out the wrong way around (`not_sortsBy_of_inverted`). Nothing here names a program.
-/

import BitcoinSpoon.Loop.SortSearch
import Mathlib.Data.List.Pairwise
import Mathlib.Data.Prod.Lex

namespace BitcoinSpoon.Loop

variable {α κ ι : Type} [LinearOrder κ] [LinearOrder ι]

/-- The result of a comparison has the sign of the order. -/
def Agrees (result : Int) (x y : κ) : Prop := (result < 0 ↔ x < y) ∧ (0 < result ↔ y < x)

/-- The second comparison counts where the first one ties. -/
theorem Agrees.lex {first second : Int} {x x' : κ} {y y' : ι} (hfirst : Agrees first x x')
    (hsecond : x = x' → Agrees second y y') :
    Agrees (if first = 0 then second else first) (toLex (x, y)) (toLex (x', y')) := by
  unfold Agrees at *
  rw [Prod.Lex.toLex_lt_toLex, Prod.Lex.toLex_lt_toLex]
  dsimp only
  by_cases htie : first = 0
  · have hx : x = x' := by
      refine le_antisymm (not_lt.mp fun h => ?_) (not_lt.mp fun h => ?_)
      · have := hfirst.2.mpr h
        omega
      · have := hfirst.1.mpr h
        omega
    rw [if_pos htie, hx]
    simp only [lt_irrefl, false_or, true_and]
    exact hsecond hx
  · have hne : x ≠ x' := by
      intro hx
      have hlt : ¬ first < 0 := fun h => lt_irrefl x (hx ▸ hfirst.1.mp h)
      have hgt : ¬ 0 < first := fun h => lt_irrefl x (hx ▸ hfirst.2.mp h)
      omega
    rw [if_neg htie]
    simp only [hne, Ne.symm hne, false_and, or_false]
    exact hfirst

/-- Sorted by the key, whatever a library does within its promises, and by nothing else. -/
def SortsBy (key : α → κ) (compare : α → α → Int) (lib : SortLibrary α) (l : List α) : Prop :=
  (lib.qsort compare l).Perm l ∧ (lib.qsort compare l).Pairwise (fun a b => key a ≤ key b) ∧
    ∀ m : List α, m.Perm l → (lib.qsort compare m).map key = (lib.qsort compare l).map key

variable {key : α → κ} {compare : α → α → Int} {lib : SortLibrary α} {l m : List α}

theorem consistent_of_agrees (h : ∀ a ∈ l, ∀ b ∈ l, Agrees (compare a b) (key a) (key b)) : Consistent compare l where
  swap a ha b hb := (h a ha b hb).1.trans (h b hb a ha).2.symm
  chain a ha b hb d hd hab hbd := by
    have hle : ∀ a ∈ l, ∀ b ∈ l, compare a b ≤ 0 ↔ key a ≤ key b := by
      intro a ha b hb
      rw [← not_lt, ← not_lt, (h a ha b hb).2]
    rw [hle a ha d hd]
    exact ((hle a ha b hb).mp hab).trans ((hle b hb d hd).mp hbd)

theorem qsort_sortedBy (hlib : lib.Lawful) (h : ∀ a ∈ l, ∀ b ∈ l, Agrees (compare a b) (key a) (key b)) :
    (lib.qsort compare l).Perm l ∧ (lib.qsort compare l).Pairwise fun a b => key a ≤ key b := by
  have hconsistent := consistent_of_agrees h
  have hperm := hlib.qsort_perm compare l hconsistent
  refine ⟨hperm, (hlib.qsort_sorted compare l hconsistent).imp_of_mem ?_⟩
  intro a b ha hb hab
  rw [← not_lt, ← (h a (hperm.subset ha) b (hperm.subset hb)).2]
  omega

theorem sortsBy_of_agrees (hlib : lib.Lawful) (h : ∀ a ∈ l, ∀ b ∈ l, Agrees (compare a b) (key a) (key b)) :
    SortsBy key compare lib l := by
  obtain ⟨hperm, hsorted⟩ := qsort_sortedBy hlib h
  refine ⟨hperm, hsorted, fun m hm => ?_⟩
  obtain ⟨hperm', hsorted'⟩ := qsort_sortedBy hlib fun a ha b hb => h a (hm.subset ha) b (hm.subset hb)
  have hkeys : ((lib.qsort compare m).map key).Pairwise (· ≤ ·) := List.pairwise_map.mpr hsorted'
  have hkeys' : ((lib.qsort compare l).map key).Pairwise (· ≤ ·) := List.pairwise_map.mpr hsorted
  exact List.Perm.eq_of_pairwise (fun x y _ _ hxy hyx => le_antisymm hxy hyx) hkeys hkeys'
    (((hperm'.trans hm).trans hperm.symm).map key)

/-- A library that gives nothing back where nothing is promised. -/
theorem not_sortsBy_of_inverted {a b : α} (ha : a ∈ l) (hb : b ∈ l) (hkey : key a < key b) (hinverted : compare b a < 0) :
    ¬ SortsBy key compare bareLibrary l := by
  rintro ⟨hperm, hsorted, _⟩
  have hconsistent : Consistent compare l := by
    by_contra hnot
    rw [bareLibrary_qsort_nil hnot] at hperm
    rw [hperm.symm.eq_nil] at ha
    exact List.not_mem_nil ha
  have hboth := hsorted.and (bareLibrary_lawful.qsort_sorted compare l hconsistent)
  have hone := (hboth.imp fun h => Or.inl h : List.Pairwise
    (fun x y => (key x ≤ key y ∧ compare x y ≤ 0) ∨ (key y ≤ key x ∧ compare y x ≤ 0)) _)
  have : Std.Symm fun x y => (key x ≤ key y ∧ compare x y ≤ 0) ∨ (key y ≤ key x ∧ compare y x ≤ 0) := ⟨fun _ _ => Or.symm⟩
  have hne : a ≠ b := fun heq => lt_irrefl (key a) (heq ▸ hkey)
  cases hone.forall (hperm.symm.subset ha) (hperm.symm.subset hb) hne with
  | inl h =>
    have hswap := (hconsistent.swap b hb a ha).mp hinverted
    omega
  | inr h => exact absurd hkey (not_lt.mpr h.1)

end BitcoinSpoon.Loop
