/-
  BitcoinSpoon.Loop.XorLinear — maps of numbers that respect exclusive or.

  Such a map is known by what it does to the powers of two (`xor_induction`): two that agree
  there agree on every number with these bits (`XorLinear.ext`). Nothing here names a
  program.
-/

import Mathlib.Algebra.Group.Nat.Defs
import Mathlib.Logic.Function.Iterate

namespace BitcoinSpoon.Loop

variable {f g : Nat → Nat} {m b x y : Nat}

def XorLinear (f : Nat → Nat) : Prop := ∀ x y, f (x ^^^ y) = f x ^^^ f y

theorem XorLinear.zero (h : XorLinear f) : f 0 = 0 := by
  have hzero := h 0 0
  rw [Nat.xor_self, Nat.xor_self] at hzero
  exact hzero

theorem XorLinear.comp (hf : XorLinear f) (hg : XorLinear g) : XorLinear fun x => f (g x) := by
  intro x y
  show f (g (x ^^^ y)) = _
  rw [hg, hf]

theorem XorLinear.xor (hf : XorLinear f) (hg : XorLinear g) : XorLinear fun x => f x ^^^ g x := by
  intro x y
  show f (x ^^^ y) ^^^ g (x ^^^ y) = f x ^^^ g x ^^^ (f y ^^^ g y)
  rw [hf, hg]
  ac_rfl

theorem XorLinear.iterate (h : XorLinear f) (n : Nat) : XorLinear f^[n] := by
  induction n with
  | zero =>
    intro x y
    rfl
  | succ n ih =>
    intro x y
    rw [Function.iterate_succ_apply', Function.iterate_succ_apply', Function.iterate_succ_apply', ih, h]

theorem xorLinear_id : XorLinear fun x => x := fun _ _ => rfl

theorem xorLinear_and (mask : Nat) : XorLinear (· &&& mask) := fun _ _ => Nat.and_xor_distrib_right

theorem xorLinear_shiftLeft (n : Nat) : XorLinear (· <<< n) := fun _ _ => Nat.shiftLeft_xor_distrib

theorem xorLinear_shiftRight (n : Nat) : XorLinear (· >>> n) := fun _ _ => Nat.shiftRight_xor_distrib

theorem xor_low {k : Nat} (hb : b < 2 ^ k) (a : Nat) : 2 ^ k * a ^^^ b = 2 ^ k * a + b := by
  rw [← Nat.div_add_mod (2 ^ k * a ^^^ b) (2 ^ k), Nat.xor_div_two_pow, Nat.xor_mod_two_pow, Nat.div_eq_of_lt hb,
    Nat.mod_eq_of_lt hb, Nat.mul_mod_right, Nat.mul_div_cancel_left a (Nat.two_pow_pos k)]
  simp

/-- What holds of the powers of two and is kept by exclusive or. -/
theorem xor_induction {p : Nat → Prop} (hzero : p 0) (hxor : ∀ x y, p x → p y → p (x ^^^ y)) (hpow : ∀ i < m, p (2 ^ i)) :
    ∀ x < 2 ^ m, p x := by
  induction m with
  | zero =>
    intro x hx
    obtain rfl : x = 0 := by omega
    exact hzero
  | succ m ih =>
    have hlow := ih fun i hi => hpow i (by omega)
    intro x hx
    by_cases hsmall : x < 2 ^ m
    · exact hlow x hsmall
    · have hrest : x - 2 ^ m < 2 ^ m := by
        rw [Nat.pow_succ] at hx
        omega
      have hsplit : 2 ^ m ^^^ (x - 2 ^ m) = x := by
        have hlow := xor_low hrest 1
        rw [Nat.mul_one] at hlow
        omega
      rw [← hsplit]
      exact hxor _ _ (hpow m (by omega)) (hlow _ hrest)

theorem XorLinear.ext (hf : XorLinear f) (hg : XorLinear g) (h : ∀ i < m, f (2 ^ i) = g (2 ^ i)) : ∀ x < 2 ^ m, f x = g x := by
  apply xor_induction
  · rw [hf.zero, hg.zero]
  · intro x y hx hy
    rw [hf, hg, hx, hy]
  · exact h

theorem XorLinear.lt (hf : XorLinear f) (h : ∀ i < m, f (2 ^ i) < 2 ^ b) : ∀ x < 2 ^ m, f x < 2 ^ b := by
  apply xor_induction
  · rw [hf.zero]
    exact Nat.two_pow_pos b
  · intro x y hx hy
    rw [hf]
    exact Nat.xor_lt_two_pow hx hy
  · exact h

end BitcoinSpoon.Loop
