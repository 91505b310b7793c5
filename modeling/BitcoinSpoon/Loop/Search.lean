/-
  BitcoinSpoon.Loop.Search — the first index with a value.

  `firstFrom` tries one index after another, up to a bound. What it finds is the value at
  the least index that has one (`firstFrom_eq_some`), and another test that fails at the
  same indices before it finds that index too (`firstFrom_congr`). Nothing here names a
  program.
-/

import Mathlib.Data.Nat.Basic

namespace BitcoinSpoon.Loop

variable {α β : Type}

/-- The first of `rounds` indices from `start` on with a value, and the value. -/
def firstFrom (test : Nat → Option α) : Nat → Nat → Option (Nat × α)
  | 0, _ => none
  | rounds + 1, start =>
    match test start with
    | some a => some (start, a)
    | none => firstFrom test rounds (start + 1)

variable {test : Nat → Option α}

theorem firstFrom_eq_some {rounds start i : Nat} {a : α} :
    firstFrom test rounds start = some (i, a) ↔
      start ≤ i ∧ i < start + rounds ∧ test i = some a ∧ ∀ j, start ≤ j → j < i → test j = none := by
  induction rounds generalizing start with
  | zero =>
    constructor
    · intro h
      cases h
    · rintro ⟨hle, hlt, -⟩
      omega
  | succ rounds ih =>
    rw [firstFrom]
    cases htest : test start with
    | some b =>
      constructor
      · intro h
        cases h
        exact ⟨Nat.le_refl _, by omega, htest, fun j hj hji => by omega⟩
      · rintro ⟨hle, -, hi, hbefore⟩
        rcases Nat.eq_or_lt_of_le hle with rfl | hlt
        · rw [htest] at hi
          cases hi
          rfl
        · rw [hbefore start (Nat.le_refl _) hlt] at htest
          cases htest
    | none =>
      show firstFrom test rounds (start + 1) = some (i, a) ↔ _
      rw [ih]
      constructor
      · rintro ⟨hle, hlt, hi, hbefore⟩
        refine ⟨by omega, by omega, hi, fun j hj hji => ?_⟩
        rcases Nat.eq_or_lt_of_le hj with rfl | hlt'
        · exact htest
        · exact hbefore j hlt' hji
      · rintro ⟨hle, hlt, hi, hbefore⟩
        have hne : start ≠ i := by
          rintro rfl
          rw [htest] at hi
          cases hi
        exact ⟨by omega, by omega, hi, fun j hj hji => hbefore j (by omega) hji⟩

theorem firstFrom_eq_none {rounds start : Nat} :
    firstFrom test rounds start = none ↔ ∀ j, start ≤ j → j < start + rounds → test j = none := by
  induction rounds generalizing start with
  | zero =>
    constructor
    · intro _ j hj hlt
      omega
    · intro _
      rfl
  | succ rounds ih =>
    rw [firstFrom]
    cases htest : test start with
    | some b =>
      constructor
      · intro h
        cases h
      · intro h
        rw [h start (Nat.le_refl _) (by omega)] at htest
        cases htest
    | none =>
      show firstFrom test rounds (start + 1) = none ↔ _
      rw [ih]
      constructor
      · intro h j hj hlt
        rcases Nat.eq_or_lt_of_le hj with rfl | hlt'
        · exact htest
        · exact h j hlt' (by omega)
      · intro h j hj hlt
        exact h j (by omega) (by omega)

/-- Two tests that agree up to what the first one finds. -/
theorem firstFrom_congr {test' : Nat → Option β} {rounds rounds' start i : Nat} {a : α} {b : β}
    (h : firstFrom test rounds start = some (i, a)) (hlt : i < start + rounds') (hi : test' i = some b)
    (hbefore : ∀ j, start ≤ j → j < i → test j = none → test' j = none) : firstFrom test' rounds' start = some (i, b) := by
  obtain ⟨hle, -, -, hnone⟩ := firstFrom_eq_some.1 h
  exact firstFrom_eq_some.2 ⟨hle, hlt, hi, fun j hj hji => hbefore j hj hji (hnone j hj hji)⟩

end BitcoinSpoon.Loop
