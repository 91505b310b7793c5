/-
  BitcoinSpoon.Loop.ShiftRegister — a remainder that symbols are shifted through.

  The register has `n` symbols of `k` bits. A step moves them up by one and folds what falls
  out back in; it is linear in exclusive or and loses nothing (`IsRegister`). So whether two
  messages leave the same remainder is a matter of their difference (`feed_eq_iff`), and two
  messages that do are the same if they differ in one stretch of at most `n` symbols
  (`eq_of_burst`). Nothing here names a program.
-/

import BitcoinSpoon.Loop.Radix
import BitcoinSpoon.Loop.XorLinear

namespace BitcoinSpoon.Loop

variable {w k n : Nat} {step : BitVec w → BitVec w}

structure IsRegister (step : BitVec w → BitVec w) (k n : Nat) : Prop where
  xor : ∀ x y, step (x ^^^ y) = step x ^^^ step y
  lt : ∀ x, (step x).toNat < 2 ^ (k * (n + 1))
  /-- Nothing falls out. -/
  shift : ∀ x, x.toNat < 2 ^ (k * n) → (step x).toNat = 2 ^ k * x.toNat
  injective : ∀ x, x.toNat < 2 ^ (k * (n + 1)) → step x = 0#w → x = 0#w

def feed (step : BitVec w → BitVec w) (state : BitVec w) (symbols : List (BitVec w)) : BitVec w :=
  symbols.foldl (fun state symbol => step state ^^^ symbol) state

theorem feed_append (state : BitVec w) (us vs : List (BitVec w)) :
    feed step state (us ++ vs) = feed step (feed step state us) vs := by
  unfold feed
  rw [List.foldl_append]

theorem zipWith_zeros (us : List (BitVec w)) : List.zipWith (· ^^^ ·) (List.replicate us.length 0#w) us = us := by
  induction us with
  | nil => rfl
  | cons u us ih => rw [List.length_cons, List.replicate_succ, List.zipWith_cons_cons, BitVec.zero_xor, ih]

theorem xor_eq_iff {a b c : BitVec w} : a ^^^ b = c ↔ b = a ^^^ c := by
  constructor
  · intro h
    rw [← h, ← BitVec.xor_assoc, BitVec.xor_self, BitVec.zero_xor]
  · intro h
    rw [h, ← BitVec.xor_assoc, BitVec.xor_self, BitVec.zero_xor]

section Linear

variable (hxor : ∀ x y, step (x ^^^ y) = step x ^^^ step y)
include hxor

theorem step_zero : step 0#w = 0#w := by
  have h := hxor 0#w 0#w
  rw [BitVec.xor_self, BitVec.xor_self] at h
  exact h

theorem feed_xor {s t : BitVec w} {us vs : List (BitVec w)} (hlength : us.length = vs.length) :
    feed step (s ^^^ t) (List.zipWith (· ^^^ ·) us vs) = feed step s us ^^^ feed step t vs := by
  induction us generalizing s t vs with
  | nil =>
    obtain rfl := List.length_eq_zero_iff.mp hlength.symm
    rfl
  | cons u us ih =>
    obtain ⟨v, vs, rfl⟩ := List.exists_cons_of_length_eq_add_one hlength.symm
    have hstep : step (s ^^^ t) ^^^ (u ^^^ v) = (step s ^^^ u) ^^^ (step t ^^^ v) := by
      rw [hxor]
      ac_rfl
    have h := @ih (step s ^^^ u) (step t ^^^ v) vs (by simpa using hlength)
    rw [← hstep] at h
    exact h

/-- What zeros would leave, and what the symbols leave on their own. -/
theorem feed_split (s : BitVec w) (us : List (BitVec w)) :
    feed step s us = feed step s (List.replicate us.length 0#w) ^^^ feed step 0#w us := by
  have h := @feed_xor w step hxor s 0#w (List.replicate us.length 0#w) us (by simp)
  rw [BitVec.xor_zero, zipWith_zeros] at h
  exact h

/-- Only the difference counts. -/
theorem feed_eq_iff {s : BitVec w} {us vs : List (BitVec w)} (hlength : us.length = vs.length) :
    feed step s us = feed step s vs ↔ feed step 0#w (List.zipWith (· ^^^ ·) us vs) = 0#w := by
  have h := feed_xor hxor (s := s) (t := s) hlength
  rw [BitVec.xor_self] at h
  rw [h, BitVec.xor_eq_zero_iff]

theorem feed_zeros (count : Nat) : feed step 0#w (List.replicate count 0#w) = 0#w := by
  induction count with
  | zero => rfl
  | succ count ih =>
    rw [List.replicate_succ]
    show feed step (step 0#w ^^^ 0#w) _ = 0#w
    rw [step_zero hxor, BitVec.xor_self]
    exact ih

end Linear

/-! ## A stretch of symbols -/

theorem xor_lt {x y : BitVec w} {b : Nat} (hx : x.toNat < 2 ^ b) (hy : y.toNat < 2 ^ b) : (x ^^^ y).toNat < 2 ^ b := by
  rw [BitVec.toNat_xor]
  exact Nat.xor_lt_two_pow hx hy

namespace IsRegister

variable (h : IsRegister step k n)
include h

theorem feed_lt {s : BitVec w} {us : List (BitVec w)} (hs : s.toNat < 2 ^ (k * (n + 1))) (hus : ∀ u ∈ us, u.toNat < 2 ^ k) :
    (feed step s us).toNat < 2 ^ (k * (n + 1)) := by
  induction us generalizing s with
  | nil => exact hs
  | cons u us ih =>
    have hu : u.toNat < 2 ^ (k * (n + 1)) :=
      Nat.lt_of_lt_of_le (hus u List.mem_cons_self) (Nat.pow_le_pow_right (by decide) (Nat.le_mul_of_pos_right k (Nat.succ_pos n)))
    exact ih (xor_lt (h.lt s) hu) fun v hv => hus v (List.mem_cons_of_mem _ hv)

/-- What is in the register stays, under another name, while zeros come in. -/
theorem feed_zeros_ne {s : BitVec w} (hs : s.toNat < 2 ^ (k * (n + 1))) (hne : s ≠ 0#w) (count : Nat) :
    feed step s (List.replicate count 0#w) ≠ 0#w := by
  induction count generalizing s with
  | zero => exact hne
  | succ count ih =>
    rw [List.replicate_succ]
    show feed step (step s ^^^ 0#w) _ ≠ 0#w
    rw [BitVec.xor_zero]
    exact ih (h.lt s) fun hzero => hne (h.injective s hs hzero)

/-- The first `n + 1` symbols stand beside each other. -/
theorem feed_toNat {us : List (BitVec w)} (hus : ∀ u ∈ us, u.toNat < 2 ^ k) (hlength : us.length ≤ n + 1) :
    (feed step 0#w us).toNat = readDigits (2 ^ k) 0 (us.map BitVec.toNat) := by
  suffices hmore : ∀ (vs us : List (BitVec w)) (s : BitVec w), (∀ u ∈ us, u.toNat < 2 ^ k) → vs.length + us.length ≤ n + 1 →
      s.toNat < 2 ^ (k * vs.length) → (feed step s us).toNat = readDigits (2 ^ k) s.toNat (us.map BitVec.toNat) by
    exact hmore [] us 0#w hus (by simpa using hlength) (by simp)
  intro vs us
  induction us generalizing vs with
  | nil =>
    intro s _ _ _
    rfl
  | cons u us ih =>
    intro s hus hlength hs
    rw [List.length_cons] at hlength
    have hu := hus u List.mem_cons_self
    have hshift := h.shift s (Nat.lt_of_lt_of_le hs (Nat.pow_le_pow_right (by decide) (Nat.mul_le_mul_left k (by omega))))
    have hnext : (step s ^^^ u).toNat = 2 ^ k * s.toNat + u.toNat := by
      rw [BitVec.toNat_xor, hshift]
      exact xor_low hu s.toNat
    have hlt : (step s ^^^ u).toNat < 2 ^ (k * (u :: vs).length) := by
      rw [hnext, List.length_cons, Nat.mul_succ, Nat.pow_add, Nat.mul_comm (2 ^ (k * vs.length))]
      nlinarith
    have hrest := ih (u :: vs) (step s ^^^ u) (fun v hv => hus v (List.mem_cons_of_mem _ hv))
      (by rw [List.length_cons]; omega) hlt
    rw [hnext] at hrest
    exact hrest

/-- A stretch of at most `n + 1` symbols that leaves nothing is zero. -/
theorem zero_of_burst {us : List (BitVec w)} (hus : ∀ u ∈ us, u.toNat < 2 ^ k) (hlength : us.length ≤ n + 1) {before after : Nat}
    (hzero : feed step 0#w (List.replicate before 0#w ++ us ++ List.replicate after 0#w) = 0#w) :
    us = List.replicate us.length 0#w := by
  rw [feed_append, feed_append, feed_zeros h.xor] at hzero
  have hfeed : feed step 0#w us = 0#w := by
    by_contra hne
    exact h.feed_zeros_ne (h.feed_lt (by simp) hus) hne after hzero
  have hvalue := h.feed_toNat hus hlength
  rw [hfeed, readDigits_zero] at hvalue
  apply List.eq_replicate_of_mem
  intro u hu
  apply BitVec.eq_of_toNat_eq
  exact Nat.digits_zero_of_eq_zero (Nat.two_pow_pos k).ne' hvalue.symm u.toNat
    (List.mem_reverse.mpr (List.mem_map_of_mem hu))

end IsRegister

end BitcoinSpoon.Loop
