/-
  BitcoinSpoon.Wire.Bits — numbers written as bits, the highest first, and rows of bits cut
  into groups.

  A row of bits is the number it is read as (`testBit_bitsValue`), and rows of one length
  with the same number are the same (`bitsValue_inj`). Groups of one width put end to end
  are the row, up to what is left over (`groups_flatten`). Nothing here names a program.
-/

import Mathlib.Data.List.Induction
import Mathlib.Data.Nat.Bitwise

namespace BitcoinSpoon.Wire

/-! ## Numbers -/

def bitsValue (l : List Bool) : Nat := l.foldl (fun value bit => value <<< 1 ||| bit.toNat) 0

theorem bitsValue_concat (l : List Bool) (bit : Bool) : bitsValue (l ++ [bit]) = 2 * bitsValue l + bit.toNat := by
  have hbit : bit.toNat < 2 ^ 1 := by cases bit <;> decide
  rw [bitsValue, List.foldl_append, List.foldl_cons, List.foldl_nil, ← Nat.shiftLeft_add_eq_or_of_lt hbit, Nat.shiftLeft_eq,
    Nat.pow_one, Nat.mul_comm]
  rfl

theorem bitsValue_lt (l : List Bool) : bitsValue l < 2 ^ l.length := by
  induction l using List.reverseRecOn with
  | nil => decide
  | append_singleton l bit ih =>
    have hbit : bit.toNat ≤ 1 := Bool.toNat_le bit
    rw [bitsValue_concat, List.length_append, List.length_singleton, Nat.pow_succ]
    omega

/-- The last bit is the lowest. -/
theorem testBit_bitsValue (l : List Bool) (j : Nat) : (bitsValue l).testBit j = l.reverse.getD j false := by
  induction l using List.reverseRecOn generalizing j with
  | nil => simp [bitsValue]
  | append_singleton l bit ih =>
    rw [bitsValue_concat, List.reverse_append, List.reverse_singleton, List.singleton_append]
    cases j with
    | zero =>
      rw [Nat.testBit_zero, List.getD_cons_zero]
      cases bit <;> simp
    | succ j =>
      have hhalf : (2 * bitsValue l + bit.toNat) / 2 = bitsValue l := by
        have hbit := Bool.toNat_le bit
        omega
      rw [Nat.testBit_succ, hhalf, ih, List.getD_cons_succ]

theorem bitsValue_inj {l l' : List Bool} (hlength : l.length = l'.length) (h : bitsValue l = bitsValue l') : l = l' := by
  refine List.reverse_inj.1 (List.ext_getElem (by simpa using hlength) fun j hj hj' => ?_)
  have hbit := congrArg (fun value => value.testBit j) h
  simp only [testBit_bitsValue] at hbit
  rwa [List.getD_eq_getElem _ _ hj, List.getD_eq_getElem _ _ hj'] at hbit

/-! ## Groups -/

variable {α : Type}

def groups (width : Nat) (l : List α) : List (List α) :=
  (List.range (l.length / width)).map fun n => (l.drop (n * width)).take width

theorem groups_length (width : Nat) (l : List α) : (groups width l).length = l.length / width := by simp [groups]

theorem length_of_mem_groups {width : Nat} {l group : List α} (h : group ∈ groups width l) : group.length = width := by
  obtain ⟨n, hn, rfl⟩ := List.mem_map.1 h
  have hle : (n + 1) * width ≤ l.length / width * width := Nat.mul_le_mul_right _ (List.mem_range.1 hn)
  have hcover := Nat.div_mul_le_self l.length width
  rw [Nat.succ_mul] at hle
  rw [List.length_take, List.length_drop]
  omega

theorem flatten_slices (width count : Nat) (l : List α) :
    ((List.range count).map fun n => (l.drop (n * width)).take width).flatten = l.take (count * width) := by
  induction count with
  | zero => simp
  | succ count ih =>
    rw [List.range_succ, List.map_append, List.flatten_append, ih, Nat.succ_mul, List.take_add]
    simp

theorem groups_flatten (width : Nat) (l : List α) : (groups width l).flatten = l.take (l.length / width * width) :=
  flatten_slices width _ l

/-- Rows of one number of groups have the same groups when they are the same up to what is
    left over. -/
theorem groups_eq_iff {width : Nat} {l l' : List α} (hcount : l.length / width = l'.length / width) :
    groups width l = groups width l' ↔ l.take (l.length / width * width) = l'.take (l.length / width * width) := by
  constructor
  · intro h
    rw [← groups_flatten, h, groups_flatten, hcount]
  · intro h
    unfold groups
    rw [← hcount]
    refine List.map_congr_left fun n hn => ?_
    have hle : (n + 1) * width ≤ l.length / width * width := Nat.mul_le_mul_right _ (List.mem_range.1 hn)
    rw [Nat.succ_mul] at hle
    have hslice : ∀ row : List α, (row.drop (n * width)).take width =
        ((row.take (l.length / width * width)).drop (n * width)).take width := by
      intro row
      rw [List.drop_take, List.take_take, Nat.min_eq_left (by omega)]
    rw [hslice l, hslice l', h]

end BitcoinSpoon.Wire
