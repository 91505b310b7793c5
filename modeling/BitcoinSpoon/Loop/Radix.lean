/-
  BitcoinSpoon.Loop.Radix — a number read in one base and written in another, by a carry
  loop over a buffer.

  The buffer holds the digits from the lowest on. One digit of the input multiplies what is
  there by the input's base and adds itself (`mulAdd`); the loop stops behind the digits that
  count once there is no carry. If there is room for the digits that are still to come, no
  carry is left over (`HoldsDigits.mulAdd`), and without leading zeros the buffer holds the digits
  of the value (`HoldsDigits.trim`). Digits from the highest on with the leading zeros kept one for
  one go to another base and back (`rebase_rebase`). Nothing here names a program.
-/

import Mathlib.Data.Nat.Digits.Lemmas
import Mathlib.Data.List.DropRight

namespace BitcoinSpoon.Loop

variable {m base size value length : Nat} {buffer : List Nat}

/-- The buffer, the number of digits that were gone through and the carry that is left. -/
def mulAdd (m base : Nat) : List Nat → Nat → Nat → List Nat × Nat × Nat
  | [], _, carry => ([], 0, carry)
  | digit :: buffer, length, carry =>
    if carry ≠ 0 ∨ 0 < length then
      let carry := carry + m * digit
      let rest := mulAdd m base buffer (length - 1) (carry / base)
      (carry % base :: rest.1, rest.2.1 + 1, rest.2.2)
    else (digit :: buffer, 0, carry)

/-- A buffer of `size` digits, of which those from `length` on are zero. -/
structure HoldsDigits (base size : Nat) (buffer : List Nat) (length value : Nat) : Prop where
  size_eq : buffer.length = size
  digit_lt : ∀ d ∈ buffer, d < base
  zero : ∀ d ∈ buffer.drop length, d = 0
  value_eq : Nat.ofDigits base buffer = value

theorem holds_replicate (base size : Nat) (hbase : 0 < base) : HoldsDigits base size (List.replicate size 0) 0 0 where
  size_eq := by simp
  digit_lt := by
    intro d hd
    rw [List.eq_of_mem_replicate hd]
    exact hbase
  zero := by
    intro d hd
    exact List.eq_of_mem_replicate hd
  value_eq := Nat.ofDigits_replicate_zero

theorem ofDigits_of_zeros (h : ∀ d ∈ buffer, d = 0) : Nat.ofDigits base buffer = 0 := by
  rw [List.eq_replicate_of_mem h]
  exact Nat.ofDigits_replicate_zero

/-- What the loop keeps, whatever carry is left. -/
theorem mulAdd_spec (hbase : 0 < base) (hdigit : ∀ d ∈ buffer, d < base) :
    ∀ length carry, (∀ d ∈ buffer.drop length, d = 0) →
      HoldsDigits base buffer.length (mulAdd m base buffer length carry).1 (mulAdd m base buffer length carry).2.1
        (Nat.ofDigits base (mulAdd m base buffer length carry).1) ∧
      Nat.ofDigits base (mulAdd m base buffer length carry).1 + base ^ buffer.length * (mulAdd m base buffer length carry).2.2 =
        m * Nat.ofDigits base buffer + carry := by
  induction buffer with
  | nil =>
    intro length carry _
    refine ⟨⟨rfl, by simp [mulAdd], by simp [mulAdd], rfl⟩, ?_⟩
    simp [mulAdd]
  | cons digit buffer ih =>
    intro length carry hzero
    unfold mulAdd
    split
    · obtain ⟨hholds, hvalue⟩ := ih (fun d hd => hdigit d (List.mem_cons_of_mem _ hd)) (length - 1)
        ((carry + m * digit) / base) (by
          intro d hd
          apply hzero
          rcases length with - | length
          · exact List.mem_cons_of_mem _ (List.mem_of_mem_drop hd)
          · exact hd)
      refine ⟨⟨by simp [hholds.size_eq], ?_, ?_, rfl⟩, ?_⟩
      · intro d hd
        rcases List.mem_cons.mp hd with rfl | hd
        · exact Nat.mod_lt _ hbase
        · exact hholds.digit_lt d hd
      · simpa using hholds.zero
      · have hsplit := Nat.mod_add_div (carry + m * digit) base
        simp only [Nat.ofDigits_cons, List.length_cons, Nat.pow_succ]
        generalize mulAdd m base buffer (length - 1) ((carry + m * digit) / base) = rest at hvalue
        calc (carry + m * digit) % base + base * Nat.ofDigits base rest.1 + base ^ buffer.length * base * rest.2.2
            = (carry + m * digit) % base + base * (Nat.ofDigits base rest.1 + base ^ buffer.length * rest.2.2) := by ring
          _ = (carry + m * digit) % base + base * (m * Nat.ofDigits base buffer + (carry + m * digit) / base) := by rw [hvalue]
          _ = m * (digit + base * Nat.ofDigits base buffer) + carry := by
            rw [Nat.mul_add base, ← Nat.add_assoc, Nat.add_right_comm, hsplit]
            ring
    · rename_i hstop
      push Not at hstop
      obtain ⟨rfl, hlength⟩ := hstop
      obtain rfl : length = 0 := by omega
      have hall : Nat.ofDigits base (digit :: buffer) = 0 := ofDigits_of_zeros hzero
      refine ⟨⟨rfl, hdigit, hzero, rfl⟩, ?_⟩
      simp only [hall]
      simp

/-! ## Room for what is to come -/

/-- The buffer has room for `count` more digits of base `m` behind the value. -/
def Room (m base size value count : Nat) : Prop := (value + 1) * m ^ count ≤ base ^ size

theorem Room.step {digit count : Nat} (h : Room m base size value (count + 1)) (hdigit : digit < m) :
    Room m base size (m * value + digit) count := by
  unfold Room at *
  calc (m * value + digit + 1) * m ^ count ≤ (m * (value + 1)) * m ^ count := by
        apply Nat.mul_le_mul_right
        rw [Nat.mul_add]
        omega
    _ = (value + 1) * m ^ (count + 1) := by ring
    _ ≤ base ^ size := h

theorem Room.lt {count : Nat} (h : Room m base size value count) (hm : 0 < m) : value < base ^ size := by
  unfold Room at h
  have hpos : 0 < m ^ count := Nat.pow_pos hm
  nlinarith

/-- `count` digits of base `m` fit where `base` has `b` digits for every `a` of them. -/
theorem room_of_ratio {a b : Nat} (count : Nat) (hratio : m ^ a ≤ base ^ b) (ha : 0 < a) (hbase : 1 < base) :
    Room m base (count * b / a + 1) 0 count := by
  unfold Room
  rw [Nat.zero_add, Nat.one_mul]
  apply Nat.le_of_lt
  apply lt_of_pow_lt_pow_left₀ a (Nat.zero_le _)
  calc (m ^ count) ^ a = (m ^ a) ^ count := by rw [← Nat.pow_mul, ← Nat.pow_mul, Nat.mul_comm]
    _ ≤ (base ^ b) ^ count := Nat.pow_le_pow_left hratio count
    _ = base ^ (b * count) := (Nat.pow_mul _ _ _).symm
    _ < base ^ ((count * b / a + 1) * a) := by
      apply Nat.pow_lt_pow_right hbase
      rw [Nat.mul_comm b, Nat.add_mul, Nat.one_mul]
      have := Nat.div_add_mod (count * b) a
      have := Nat.mod_lt (count * b) ha
      nlinarith
    _ = (base ^ (count * b / a + 1)) ^ a := Nat.pow_mul _ _ _

/-- One digit of the input. -/
theorem HoldsDigits.mulAdd {digit count : Nat} (h : HoldsDigits base size buffer length value) (hbase : 0 < base)
    (hroom : Room m base size value (count + 1)) (hdigit : digit < m) :
    (mulAdd m base buffer length digit).2.2 = 0 ∧
      HoldsDigits base size (mulAdd m base buffer length digit).1 (mulAdd m base buffer length digit).2.1 (m * value + digit) := by
  obtain ⟨hholds, hvalue⟩ := mulAdd_spec (m := m) hbase h.digit_lt length digit h.zero
  rw [h.value_eq, h.size_eq] at hvalue
  rw [h.size_eq] at hholds
  have hlt : m * value + digit < base ^ size := (hroom.step hdigit).lt (by omega)
  have hcarry : (Loop.mulAdd m base buffer length digit).2.2 = 0 := by
    by_contra hne
    have := Nat.le_mul_of_pos_right (base ^ size) (Nat.pos_of_ne_zero hne)
    omega
  rw [hcarry, Nat.mul_zero, Nat.add_zero] at hvalue
  rw [hvalue] at hholds
  exact ⟨hcarry, hholds⟩

/-! ## The digits of the value -/

/-- From the highest digit that counts, without leading zeros. -/
def trim (buffer : List Nat) (length : Nat) : List Nat := (buffer.take length).reverse.dropWhile (· == 0)

theorem digits_trailing (hbase : 1 < base) (hdigit : ∀ d ∈ buffer, d < base) :
    buffer.rdropWhile (· == 0) = Nat.digits base (Nat.ofDigits base buffer) := by
  have hsplit : Nat.ofDigits base buffer = Nat.ofDigits base (buffer.rdropWhile (· == 0)) := by
    conv_lhs => rw [← List.rdropWhile_append_rtakeWhile (p := (· == 0)) (l := buffer)]
    have hzeros : ∀ d ∈ buffer.rtakeWhile (· == 0), d = 0 := by
      intro d hd
      simpa using List.mem_rtakeWhile_imp hd
    rw [Nat.ofDigits_append, ofDigits_of_zeros hzeros, Nat.mul_zero, Nat.add_zero]
  rw [hsplit, Nat.digits_ofDigits _ hbase]
  · intro d hd
    exact hdigit d ((List.rdropWhile_prefix (· == 0) buffer).subset hd)
  · intro hne
    simpa using List.rdropWhile_last_not (· == 0) buffer hne

theorem HoldsDigits.trim (h : HoldsDigits base size buffer length value) (hbase : 1 < base) :
    trim buffer length = (Nat.digits base value).reverse := by
  have hvalue : Nat.ofDigits base (buffer.take length) = value := by
    rw [← h.value_eq]
    conv_rhs => rw [← List.take_append_drop length buffer]
    rw [Nat.ofDigits_append, ofDigits_of_zeros h.zero, Nat.mul_zero, Nat.add_zero]
  have hdigits := digits_trailing hbase fun d hd => h.digit_lt d (List.mem_of_mem_take (i := length) hd)
  rw [hvalue] at hdigits
  rw [← hdigits]
  exact (List.reverse_reverse _).symm

/-! ## From the highest digit on -/

/-- Each digit multiplies what is there and adds itself. -/
def readDigits (m value : Nat) (digits : List Nat) : Nat := digits.foldl (fun value digit => m * value + digit) value

theorem readDigits_zero {digits : List Nat} : readDigits m 0 digits = Nat.ofDigits m digits.reverse := by
  rw [Nat.ofDigits_eq_foldr, List.foldr_reverse]
  unfold readDigits
  congr 1
  funext value digit
  exact Nat.add_comm _ _

theorem readDigits_inj {us vs : List Nat} (hm : 1 < m) (hlength : us.length = vs.length) (hus : ∀ d ∈ us, d < m)
    (hvs : ∀ d ∈ vs, d < m) (h : readDigits m 0 us = readDigits m 0 vs) : us = vs := by
  rw [readDigits_zero, readDigits_zero] at h
  apply List.reverse_injective
  apply Nat.ofDigits_inj_of_len_eq hm
  · rw [List.length_reverse, List.length_reverse, hlength]
  · intro d hd
    exact hus d (List.mem_reverse.mp hd)
  · intro d hd
    exact hvs d (List.mem_reverse.mp hd)
  · exact h

def leadingZeros (digits : List Nat) : Nat := (digits.takeWhile (· == 0)).length

/-- The same number of leading zeros, then the digits of the value in the other base. -/
def rebase (m base : Nat) (digits : List Nat) : List Nat :=
  List.replicate (leadingZeros digits) 0 ++ (Nat.digits base (readDigits m 0 digits)).reverse

theorem takeWhile_zero (digits : List Nat) : digits.takeWhile (· == 0) = List.replicate (leadingZeros digits) 0 := by
  apply List.eq_replicate_of_mem
  intro d hd
  simpa using List.mem_takeWhile_imp hd

/-- Leading zeros do not count. -/
theorem readDigits_dropWhile (digits : List Nat) : readDigits m 0 digits = readDigits m 0 (digits.dropWhile (· == 0)) := by
  rw [readDigits_zero, readDigits_zero]
  conv_lhs => rw [← List.takeWhile_append_dropWhile (p := (· == 0)) (l := digits), takeWhile_zero]
  rw [List.reverse_append, List.reverse_replicate, Nat.ofDigits_append_replicate_zero]

/-- Digits of characters, with a test of the characters for the zeros. -/
theorem leadingZeros_map {α : Type} {f : α → Nat} {p : α → Bool} {l : List α} (h : ∀ a ∈ l, (f a == 0) = p a) :
    leadingZeros (l.map f) = (l.takeWhile p).length ∧ readDigits m 0 (l.map f) = readDigits m 0 ((l.dropWhile p).map f) := by
  have hmap : (l.map f).takeWhile (· == 0) = (l.takeWhile p).map f ∧ (l.map f).dropWhile (· == 0) = (l.dropWhile p).map f := by
    induction l with
    | nil => exact ⟨rfl, rfl⟩
    | cons a l ih =>
      obtain ⟨htake, hdrop⟩ := ih fun b hb => h b (List.mem_cons_of_mem _ hb)
      have ha := h a List.mem_cons_self
      simp only [List.map_cons, List.takeWhile_cons, List.dropWhile_cons, ha]
      cases p a
      · exact ⟨rfl, rfl⟩
      · simp [htake, hdrop]
  constructor
  · rw [leadingZeros, hmap.1, List.length_map]
  · rw [readDigits_dropWhile, hmap.2]

theorem digits_readDigits {digits : List Nat} (hm : 1 < m) (hdigit : ∀ d ∈ digits, d < m) :
    (Nat.digits m (readDigits m 0 digits)).reverse = digits.dropWhile (· == 0) := by
  rw [readDigits_dropWhile, readDigits_zero, Nat.digits_ofDigits _ hm, List.reverse_reverse]
  · intro d hd
    exact hdigit d ((List.dropWhile_suffix _).subset (List.mem_reverse.mp hd))
  · intro hne
    rw [List.getLast_reverse]
    have hhead := List.head_dropWhile_not (· == 0) (l := digits) (by simpa using hne)
    simpa using hhead

theorem dropWhile_digits (base n : Nat) : (Nat.digits base n).reverse.dropWhile (· == 0) = (Nat.digits base n).reverse := by
  rw [List.dropWhile_eq_self_iff]
  intro hpos
  have hne : Nat.digits base n ≠ [] := by
    intro h
    simp [h] at hpos
  have hlast := Nat.getLast_digit_ne_zero base (Nat.digits_ne_nil_iff_ne_zero.mp hne)
  simpa [List.getLast_eq_getElem] using hlast

/-- The highest digit. -/
theorem digits_head {k n : Nat} (hbase : 1 < base) (hlow : base ^ k ≤ n) (hhigh : n < base ^ (k + 1)) :
    (Nat.digits base n).reverse.head? = some (n / base ^ k) := by
  have hpos : n ≠ 0 := by
    have := Nat.pow_pos (n := k) (Nat.zero_lt_of_lt hbase)
    omega
  have hlength : (Nat.digits base n).length = k + 1 := by
    rw [Nat.length_digits base n hbase hpos, Nat.log_eq_of_pow_le_of_lt_pow hlow hhigh]
  have hdigit := Nat.getD_digits n k hbase
  have hsmall : n / base ^ k < base := by
    rw [Nat.div_lt_iff_lt_mul (Nat.pow_pos (Nat.zero_lt_of_lt hbase)), ← Nat.pow_succ']
    exact hhigh
  rw [List.getD_eq_getElem?_getD, List.getElem?_eq_getElem (by omega), Option.getD_some, Nat.mod_eq_of_lt hsmall] at hdigit
  rw [List.head?_reverse, List.getLast?_eq_getElem?, hlength, Nat.add_sub_cancel, List.getElem?_eq_getElem (by omega), hdigit]

theorem leadingZeros_rebase (digits : List Nat) : leadingZeros (rebase m base digits) = leadingZeros digits := by
  have hdigits := congrArg List.length (dropWhile_digits base (readDigits m 0 digits))
  have hsplit := congrArg List.length (List.takeWhile_append_dropWhile (p := (· == 0))
    (l := (Nat.digits base (readDigits m 0 digits)).reverse))
  rw [List.length_append, hdigits] at hsplit
  unfold rebase
  conv_lhs => rw [leadingZeros]
  rw [List.takeWhile_append_of_pos (by
    intro d hd
    simp [List.eq_of_mem_replicate hd]), List.length_append, List.length_replicate]
  omega

theorem readDigits_rebase (digits : List Nat) : readDigits base 0 (rebase m base digits) = readDigits m 0 digits := by
  rw [readDigits_zero]
  unfold rebase
  rw [List.reverse_append, List.reverse_reverse, List.reverse_replicate, Nat.ofDigits_append_replicate_zero,
    Nat.ofDigits_digits]

theorem rebase_lt {digits : List Nat} (hbase : 1 < base) : ∀ d ∈ rebase m base digits, d < base := by
  intro d hd
  rcases List.mem_append.mp hd with hd | hd
  · rw [List.eq_of_mem_replicate hd]
    omega
  · exact Nat.digits_lt_base hbase (List.mem_reverse.mp hd)

theorem rebase_rebase {digits : List Nat} (hm : 1 < m) (hdigit : ∀ d ∈ digits, d < m) :
    rebase base m (rebase m base digits) = digits := by
  calc rebase base m (rebase m base digits)
      = List.replicate (leadingZeros (rebase m base digits)) 0 ++
          (Nat.digits m (readDigits base 0 (rebase m base digits))).reverse := rfl
    _ = digits.takeWhile (· == 0) ++ digits.dropWhile (· == 0) := by
      rw [leadingZeros_rebase, readDigits_rebase, digits_readDigits hm hdigit, takeWhile_zero]
    _ = digits := List.takeWhile_append_dropWhile

/-! ## Leading characters of one kind, among leading ones of a wider kind -/

section
variable {α : Type} {p q : α → Bool} (hpq : ∀ a, p a → q a) (l : List α)
include hpq

theorem takeWhile_split : l.takeWhile q = l.takeWhile p ++ (l.dropWhile p).takeWhile q := by
  rw [← List.takeWhile_append_of_pos fun a ha => hpq a (List.mem_takeWhile_imp ha), List.takeWhile_append_dropWhile]

theorem dropWhile_dropWhile : (l.dropWhile p).dropWhile q = l.dropWhile q := by
  conv_rhs => rw [← List.takeWhile_append_dropWhile (p := p) (l := l)]
  exact (List.dropWhile_append_of_pos fun a ha => hpq a (List.mem_takeWhile_imp ha)).symm

theorem takeWhile_within : (l.takeWhile q).takeWhile p = l.takeWhile p := by
  rw [List.takeWhile_takeWhile]
  congr 1
  funext a
  by_cases ha : p a
  · simp [ha, hpq a ha]
  · simp [ha]

theorem dropWhile_within : (l.takeWhile q).dropWhile p = (l.dropWhile p).takeWhile q := by
  apply (List.append_right_inj (l.takeWhile p)).mp
  rw [← takeWhile_split hpq, ← takeWhile_within hpq l, List.takeWhile_append_dropWhile]

end

end BitcoinSpoon.Loop
