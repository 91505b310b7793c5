/-
  BitcoinSpoon.Loop.BinarySearch — a binary search and what it touched last.

  The key is compared with an element inside the interval that is left, whichever the
  search picks, until one is equal or nothing is left. Where no element is equal, the last
  one that was touched tells where the key belongs: behind it if the key was greater, else
  in its place (`bsearch_missing`). Nothing here names a program.
-/

import Mathlib.Data.List.Basic

namespace BitcoinSpoon.Loop

/-- Where a search looks in the interval from `lo` up to `hi`. -/
structure BinarySearch where
  pick : Nat → Nat → Nat
  inside : ∀ lo hi, lo < hi → lo ≤ pick lo hi ∧ pick lo hi < hi

def BinarySearch.halving : BinarySearch where
  pick lo hi := (lo + hi) / 2
  inside lo hi h := by omega

/-- What a search leaves behind. -/
structure Probe where
  found : Option Nat
  /-- The element it touched last and how the key compared with it. -/
  last : Option (Nat × Int)
  deriving DecidableEq, Repr

/-- `sign i` compares the key with element `i`. -/
def bsearchFrom (search : BinarySearch) (sign : Nat → Int) : Nat → Nat → Nat → Option (Nat × Int) → Probe
  | 0, _, _, last => ⟨none, last⟩
  | rounds + 1, lo, hi, last =>
    if lo < hi then
      let i := search.pick lo hi
      if sign i = 0 then ⟨some i, some (i, 0)⟩
      else if 0 < sign i then bsearchFrom search sign rounds (i + 1) hi (some (i, sign i))
      else bsearchFrom search sign rounds lo i (some (i, sign i))
    else ⟨none, last⟩

/-- Every round leaves less, so as many rounds as elements are enough. -/
def bsearch (search : BinarySearch) (sign : Nat → Int) (n : Nat) : Probe := bsearchFrom search sign n 0 n none

/-- The key's place next to the element touched last. -/
def Probe.place (probe : Probe) : Nat :=
  match probe.last with
  | none => 0
  | some (i, result) => if 0 < result then i + 1 else i

variable {search : BinarySearch} {sign : Nat → Int} {n : Nat}

/-- The key is greater than what comes before one it is not greater than, and so on. -/
def SignsFall (sign : Nat → Int) (n : Nat) : Prop := ∀ i j, i < j → j < n → sign i ≤ 0 → sign j < 0

theorem bsearchFrom_found {rounds lo hi i : Nat} {last : Option (Nat × Int)} (hhi : hi ≤ n)
    (h : (bsearchFrom search sign rounds lo hi last).found = some i) :
    i < n ∧ sign i = 0 ∧ (bsearchFrom search sign rounds lo hi last).place = i := by
  induction rounds generalizing lo hi last with
  | zero => cases h
  | succ rounds ih =>
    rw [bsearchFrom] at h ⊢
    split at h
    · rename_i hlt
      obtain ⟨hle, hin⟩ := search.inside lo hi hlt
      rw [if_pos hlt]
      dsimp only at h ⊢
      split at h
      · rename_i hzero
        cases h
        rw [if_pos hzero]
        exact ⟨by omega, hzero, rfl⟩
      rename_i hne
      rw [if_neg hne]
      split at h
      · rename_i hpos
        rw [if_pos hpos]
        exact ih hhi h
      · rename_i hneg
        rw [if_neg hneg]
        exact ih (by omega) h
    · cases h

theorem signs_before {k : Nat} (hsorted : SignsFall sign n) (hk : k < n) (hpos : 0 < sign k) : ∀ i < k + 1, 0 < sign i := by
  intro i hi
  by_contra hnot
  rcases Nat.lt_or_eq_of_le (Nat.le_of_lt_succ hi) with hlt | rfl
  · have hneg := hsorted i k hlt hk (by omega)
    omega
  · exact hnot hpos

theorem signs_behind {k : Nat} (hsorted : SignsFall sign n) (hneg : sign k < 0) : ∀ i, k ≤ i → i < n → sign i < 0 := by
  intro i hi hn
  rcases Nat.lt_or_eq_of_le hi with hlt | rfl
  · exact hsorted k i hlt hn (by omega)
  · exact hneg

/-- What is known while nothing was found: the key belongs inside the interval, and the last
    element touched is at one of its ends. -/
theorem bsearchFrom_missing {rounds lo hi : Nat} {last : Option (Nat × Int)} (hsorted : SignsFall sign n)
    (hrounds : hi - lo ≤ rounds) (hle : lo ≤ hi) (hhi : hi ≤ n) (hbelow : ∀ i < lo, 0 < sign i)
    (habove : ∀ i, hi ≤ i → i < n → sign i < 0) (hplace : Probe.place ⟨none, last⟩ = lo ∨ Probe.place ⟨none, last⟩ = hi)
    (h : (bsearchFrom search sign rounds lo hi last).found = none) :
    (bsearchFrom search sign rounds lo hi last).place ≤ n ∧
      (∀ i < (bsearchFrom search sign rounds lo hi last).place, 0 < sign i) ∧
      ∀ i, (bsearchFrom search sign rounds lo hi last).place ≤ i → i < n → sign i < 0 := by
  have hdone : lo = hi → Probe.place ⟨none, last⟩ ≤ n ∧ (∀ i < Probe.place ⟨none, last⟩, 0 < sign i) ∧
      ∀ i, Probe.place ⟨none, last⟩ ≤ i → i < n → sign i < 0 := by
    rintro rfl
    have heq : Probe.place ⟨none, last⟩ = lo := by omega
    rw [heq]
    exact ⟨hhi, hbelow, habove⟩
  induction rounds generalizing lo hi last with
  | zero => exact hdone (by omega)
  | succ rounds ih =>
    rw [bsearchFrom] at h ⊢
    split at h
    · rename_i hlt
      obtain ⟨hlo, hin⟩ := search.inside lo hi hlt
      rw [if_pos hlt]
      dsimp only at h ⊢
      split at h
      · cases h
      rename_i hne
      rw [if_neg hne]
      split at h
      · rename_i hpos
        rw [if_pos hpos]
        have hlast : Probe.place ⟨none, some (search.pick lo hi, sign (search.pick lo hi))⟩ = search.pick lo hi + 1 := if_pos hpos
        have hbefore := signs_before hsorted (Nat.lt_of_lt_of_le hin hhi) hpos
        refine ih (by omega) (by omega) hhi hbefore habove (Or.inl hlast) h fun heq => ?_
        rw [hlast]
        exact ⟨by omega, hbefore, fun i hi' => habove i (by omega)⟩
      · rename_i hneg
        rw [if_neg hneg]
        have hlast : Probe.place ⟨none, some (search.pick lo hi, sign (search.pick lo hi))⟩ = search.pick lo hi := if_neg hneg
        have hbehind := signs_behind hsorted (show sign (search.pick lo hi) < 0 by omega)
        refine ih (by omega) hlo (by omega) hbelow hbehind (Or.inr hlast) h fun heq => ?_
        rw [hlast]
        exact ⟨by omega, fun i hi' => hbelow i (by omega), hbehind⟩
    · rename_i hnot
      rw [if_neg hnot]
      exact hdone (by omega)

/-- An element that is found is equal and was touched last. -/
theorem bsearch_found {i : Nat} (h : (bsearch search sign n).found = some i) :
    i < n ∧ sign i = 0 ∧ (bsearch search sign n).place = i := bsearchFrom_found (Nat.le_refl n) h

/-- Where none is found the place divides the smaller elements from the greater ones. -/
theorem bsearch_missing (hsorted : SignsFall sign n) (h : (bsearch search sign n).found = none) :
    (bsearch search sign n).place ≤ n ∧ (∀ i < (bsearch search sign n).place, 0 < sign i) ∧
      ∀ i, (bsearch search sign n).place ≤ i → i < n → sign i < 0 := by
  refine bsearchFrom_missing hsorted (Nat.le_refl _) (Nat.zero_le n) (Nat.le_refl n) ?_ ?_ (Or.inl rfl) h
  · intro i hi
    omega
  · intro i hi hn
    omega

end BitcoinSpoon.Loop
