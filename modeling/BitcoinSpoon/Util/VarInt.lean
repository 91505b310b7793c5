/-
  BitcoinSpoon.Util.VarInt — what `readVarInt` makes of `varIntD` (`code/BTCUtil.c`).

  `varIntD` writes 253, 254 and 255 as one byte (its last test is `number & 0xFF00`),
  and `readVarInt` takes those bytes for the prefixes of longer forms. On every other
  `uint64_t` the two are inverse. `IsVarInt` is the format `readVarInt` accepts: it does
  not ask for the shortest form.
-/

import BitcoinSpoon.Util.Script

namespace BitcoinSpoon

open Wire

/-- Masking the bits from `a` up to `b` leaves something exactly from `2 ^ a` on. -/
theorem land_mask_ne_zero {n a b : Nat} (hn : n < 2 ^ b) : n &&& (2 ^ b - 2 ^ a) ≠ 0 ↔ 2 ^ a ≤ n := by
  have hbit : ∀ i, (2 ^ b - 2 ^ a).testBit i = (decide (i < b) && !decide (i < a)) ∨ b < a := by
    intro i
    by_cases h : b < a
    · exact Or.inr h
    · have hp : 2 ^ a ≤ 2 ^ b := Nat.pow_le_pow_right (by decide) (by omega)
      have ha : 0 < 2 ^ a := Nat.two_pow_pos a
      have := Nat.testBit_two_pow_sub_succ (x := 2 ^ a - 1) (n := b) (by omega) i
      rw [Nat.testBit_two_pow_sub_one, Nat.sub_add_cancel ha] at this
      exact Or.inl this
  constructor
  · intro h
    by_contra hlt
    apply h
    apply Nat.eq_of_testBit_eq
    intro i
    rw [Nat.testBit_and, Nat.zero_testBit]
    by_cases hi : i < a
    · rcases hbit i with hb | hb
      · simp [hb, hi]
      · have : 2 ^ b ≤ 2 ^ a := Nat.pow_le_pow_right (by decide) (by omega)
        simp [Nat.sub_eq_zero_of_le this]
    · have : n < 2 ^ i := Nat.lt_of_lt_of_le (by omega) (Nat.pow_le_pow_right (by decide) (by omega : a ≤ i))
      simp [Nat.testBit_lt_two_pow this]
  · intro h h0
    obtain ⟨i, hi, hbn⟩ := Nat.exists_ge_and_testBit_of_ge_two_pow h
    have hib : i < b := by
      by_contra hge
      have : n < 2 ^ i := Nat.lt_of_lt_of_le hn (Nat.pow_le_pow_right (by decide) (by omega))
      rw [Nat.testBit_lt_two_pow this] at hbn
      cases hbn
    have hbi : (2 ^ b - 2 ^ a).testBit i = true := by
      rcases hbit i with hb | hb
      · rw [hb]; simp [hib, hi]
      · omega
    have := congrArg (Nat.testBit · i) h0
    simp [hbn, hbi] at this

/-- The masks, read as bounds. -/
theorem varIntD_eq {n : Nat} (h : n < 2 ^ 64) :
    varIntD n =
      if 2 ^ 32 ≤ n then 0xff :: leBytes 8 n else if 2 ^ 16 ≤ n then 0xfe :: leBytes 4 n
      else if 2 ^ 8 ≤ n then 0xfd :: leBytes 2 n else leBytes 1 n := by
  have m32 : 0xFFFFFFFF00000000 = 2 ^ 64 - 2 ^ 32 := rfl
  have m16 : 0xFFFF0000 = 2 ^ 32 - 2 ^ 16 := rfl
  have m8 : 0xFF00 = 2 ^ 16 - 2 ^ 8 := rfl
  unfold varIntD
  rw [m32, m16, m8]
  by_cases h32 : 2 ^ 32 ≤ n
  · rw [if_pos ((land_mask_ne_zero h).mpr h32), if_pos h32]; rfl
  rw [if_neg (fun hm => h32 ((land_mask_ne_zero h).mp hm)), if_neg h32]
  have h' : n < 2 ^ 32 := by omega
  by_cases h16 : 2 ^ 16 ≤ n
  · rw [if_pos ((land_mask_ne_zero h').mpr h16), if_pos h16]; rfl
  rw [if_neg (fun hm => h16 ((land_mask_ne_zero h').mp hm)), if_neg h16]
  have h'' : n < 2 ^ 16 := by omega
  by_cases h8 : 2 ^ 8 ≤ n
  · rw [if_pos ((land_mask_ne_zero h'').mpr h8), if_pos h8]; rfl
  rw [if_neg (fun hm => h8 ((land_mask_ne_zero h'').mp hm)), if_neg h8]
  rfl

theorem varIntD_ne_nil (n : Nat) : varIntD n ≠ [] := by
  unfold varIntD uint8D leBytes
  repeat' split
  all_goals simp

/-- What `readVarInt` takes for `n`. -/
def IsVarInt (n : Nat) (p : Bytes) : Prop :=
  (n < 253 ∧ p = leBytes 1 n) ∨ (n < 2 ^ 16 ∧ p = 0xfd :: leBytes 2 n) ∨ (n < 2 ^ 32 ∧ p = 0xfe :: leBytes 4 n) ∨
    (n < 2 ^ 64 ∧ p = 0xff :: leBytes 8 n)

theorem uint8readP_cons (x : UInt8) (b : Bytes) : uint8readP (x :: b) = (x.toNat, b) := by
  simp [uint8readP, readLE, leNat]

theorem readVarInt_cons (x : UInt8) (b : Bytes) :
    readVarInt (x :: b) =
      if x.toNat < 253 then (x.toNat, b) else if x.toNat < 254 then uint16readP b
      else if x.toNat < 255 then uint32readP b else uint64readP b := by
  unfold readVarInt
  rw [bind_run, uint8readP_cons]
  dsimp only
  split
  · rfl
  split
  · rfl
  split <;> rfl

/-- The number after a prefix byte, or the end of the bytes. -/
theorem clamps_prefixed (x : UInt8) (k : Nat) (b : Bytes) :
    (readLE k b).2 = [] ∨ ∃ n, n < 256 ^ k ∧ readLE k b = (n, b.drop k) ∧ x :: b = (x :: leBytes k n) ++ b.drop k := by
  unfold readLE
  split
  · rename_i h
    have hl : (b.take k).length = k := List.length_take_of_le h
    have hlt := leNat_lt (b.take k)
    have hb := leBytes_leNat (b.take k)
    rw [hl] at hlt hb
    refine Or.inr ⟨leNat (b.take k), hlt, rfl, ?_⟩
    rw [hb, List.cons_append, List.take_append_drop]
  · exact Or.inl rfl

theorem grammar_readVarInt : Grammar readVarInt IsVarInt where
  reads := by
    intro n p h rest
    rcases h with ⟨h, rfl⟩ | ⟨h, rfl⟩ | ⟨h, rfl⟩ | ⟨h, rfl⟩
    · have hx : (UInt8.ofNat n).toNat = n := by rw [UInt8.toNat_ofNat']; omega
      rw [leBytes, List.cons_append, readVarInt_cons, hx, if_pos h]; rfl
    · have hr : Reads uint16readP (leBytes 2 n) n := Reads.readLE (by omega)
      rw [List.cons_append, readVarInt_cons, if_neg (by decide), if_pos (by decide), hr]
    · have hr : Reads uint32readP (leBytes 4 n) n := Reads.readLE (by omega)
      rw [List.cons_append, readVarInt_cons, if_neg (by decide), if_neg (by decide), if_pos (by decide), hr]
    · have hr : Reads uint64readP (leBytes 8 n) n := Reads.readLE (by omega)
      rw [List.cons_append, readVarInt_cons, if_neg (by decide), if_neg (by decide), if_neg (by decide), hr]
  clamps b := by
    cases b with
    | nil => exact Or.inl rfl
    | cons x b =>
      have hx := x.toNat_lt
      rw [readVarInt_cons]
      split
      · rename_i h
        refine Or.inr ⟨[x], Or.inl ⟨h, ?_⟩, rfl⟩
        simp [leBytes]
      split
      · obtain rfl : x = 0xfd := UInt8.toNat_inj.mp (show x.toNat = 253 by omega)
        rcases clamps_prefixed 0xfd 2 b with h | ⟨n, hn, hr, hb⟩
        · exact Or.inl h
        · rw [uint16readP, hr]
          exact Or.inr ⟨_, Or.inr (Or.inl ⟨by omega, rfl⟩), hb⟩
      split
      · obtain rfl : x = 0xfe := UInt8.toNat_inj.mp (show x.toNat = 254 by omega)
        rcases clamps_prefixed 0xfe 4 b with h | ⟨n, hn, hr, hb⟩
        · exact Or.inl h
        · rw [uint32readP, hr]
          exact Or.inr ⟨_, Or.inr (Or.inr (Or.inl ⟨by omega, rfl⟩)), hb⟩
      · obtain rfl : x = 0xff := UInt8.toNat_inj.mp (show x.toNat = 255 by omega)
        rcases clamps_prefixed 0xff 8 b with h | ⟨n, hn, hr, hb⟩
        · exact Or.inl h
        · rw [uint64readP, hr]
          exact Or.inr ⟨_, Or.inr (Or.inr (Or.inr ⟨by omega, rfl⟩)), hb⟩

/-- `readVarInt` inverts `varIntD` at `n`, whatever follows. -/
def VarIntOk (n : Nat) : Prop := Reads readVarInt (varIntD n) n

theorem varIntOk_of_isVarInt {n : Nat} (h : IsVarInt n (varIntD n)) : VarIntOk n := grammar_readVarInt.reads h

/-- What reads back is in the format. -/
theorem VarIntOk.isVarInt {n : Nat} (h : VarIntOk n) : IsVarInt n (varIntD n) := by
  have hn : readVarInt (varIntD n ++ [0]) = (n, [0]) := h [0]
  rcases grammar_readVarInt.clamps (varIntD n ++ [0]) with h0 | ⟨p, hp, hb⟩
  · rw [hn] at h0; cases h0
  · rw [hn] at hp hb
    rwa [List.append_cancel_right hb]

theorem varIntOk {n : Nat} (h : n < 2 ^ 64) (hgap : n < 253 ∨ 255 < n) : VarIntOk n := by
  apply varIntOk_of_isVarInt
  rw [varIntD_eq h]
  split
  · exact Or.inr (Or.inr (Or.inr ⟨h, rfl⟩))
  split
  · exact Or.inr (Or.inr (Or.inl ⟨by omega, rfl⟩))
  split
  · exact Or.inr (Or.inl ⟨by omega, rfl⟩)
  · exact Or.inl ⟨by omega, rfl⟩

/-- On the three lengths in between it does not: the byte is taken for a prefix. -/
theorem not_varIntOk {n : Nat} (h : 253 ≤ n) (h' : n ≤ 255) : ¬ VarIntOk n := by
  intro hok
  have hz : (readVarInt (varIntD n ++ [0, 0, 0, 0, 0, 0, 0, 0])).1 = n := congrArg Prod.fst (hok _)
  rw [varIntD_eq (by omega), if_neg (by omega), if_neg (by omega), if_neg (by omega)] at hz
  obtain rfl | rfl | rfl : n = 253 ∨ n = 254 ∨ n = 255 := by omega
  all_goals exact absurd hz (by decide)

/-- No form is shorter than the one `varIntD` writes. -/
theorem varIntD_length_le {n : Nat} {p : Bytes} (h : IsVarInt n p) : (varIntD n).length ≤ p.length := by
  have hn : n < 2 ^ 64 := by rcases h with ⟨h, _⟩ | ⟨h, _⟩ | ⟨h, _⟩ | ⟨h, _⟩ <;> omega
  rw [varIntD_eq hn]
  rcases h with ⟨h, rfl⟩ | ⟨h, rfl⟩ | ⟨h, rfl⟩ | ⟨h, rfl⟩ <;> repeat' split
  all_goals simp only [List.length_cons, leBytes_length]; omega

theorem varIntOk_iff {n : Nat} (h : n < 2 ^ 64) : VarIntOk n ↔ n < 253 ∨ 255 < n := by
  constructor
  · intro hok
    by_contra hgap
    exact not_varIntOk (by omega) (by omega) hok
  · exact varIntOk h

/-- The two are inverse, with any bytes behind, off the three numbers whose one byte is a
    prefix. -/
theorem readVarInt_varIntD {n : Nat} (h : n < 2 ^ 64) :
    (∀ rest, readVarInt (varIntD n ++ rest) = (n, rest)) ↔ n ≠ 253 ∧ n ≠ 254 ∧ n ≠ 255 := by
  have hgap : (n < 253 ∨ 255 < n) ↔ n ≠ 253 ∧ n ≠ 254 ∧ n ≠ 255 := by omega
  rw [← hgap]
  exact varIntOk_iff h

theorem readVarInt_varIntD_256 :
    256 < 2 ^ 64 ∧ ((∀ rest, readVarInt (varIntD 256 ++ rest) = (256, rest)) ↔ 256 ≠ 253 ∧ 256 ≠ 254 ∧ 256 ≠ 255) :=
  ⟨by decide, readVarInt_varIntD (by decide)⟩

/-- `varIntD(253)` is the byte 0xfd, and an empty `rest` leaves nothing behind it to read. -/
theorem not_readVarInt_varIntD :
    ¬ ∀ n, n < 2 ^ 64 → ∀ rest, readVarInt (varIntD n ++ rest) = (n, rest) := by
  intro hall
  have h : (readVarInt (varIntD 253 ++ [])).1 = 253 := congrArg Prod.fst (hall 253 (by decide) [])
  exact absurd h (by decide)

end BitcoinSpoon
