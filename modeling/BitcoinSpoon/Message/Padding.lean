/-
  BitcoinSpoon.Message.Padding — messages padded to whole blocks (`padData16`,
  `unpadData16`, `code/BTCUtil.c`).

  From 1 to 16 bytes are appended, each of them their number, so every message comes back
  (`unpad_pad`). The other way round only the last byte is looked at, and of the counts that
  are never written only those above 16 are refused: a count of 0, or one that the bytes in
  front of it do not repeat, passes (`acceptsPadding_iff`).
-/

import BitcoinSpoon.Util.Script

namespace BitcoinSpoon

open Wire

def padNum (data : Data) : Nat := 16 - data.length % 16

def padData16 (dataIn : Data) : Data :=
  (List.range (padNum dataIn)).foldl (fun data _ => dataAdd data (some (uint8D (padNum dataIn)))) dataIn

/-- The pad count, as it stands in the last byte. -/
def lastCount (bytes : Bytes) : Nat := (bytes.getLastD 0).toNat

def unpadData16 (data : Data) : Data :=
  if data.length = 0 then data
  else
    let padNum := lastCount data.toBytes
    if data.length < padNum ∨ 16 < padNum then none else some (data.toBytes.take (data.length - padNum))

/-! ## Padding -/

theorem padNum_bounds (data : Data) : 0 < padNum data ∧ padNum data ≤ 16 := by
  unfold padNum
  omega

theorem addBytes_eq (byte : UInt8) (n : Nat) (data : Data) :
    (List.range (n + 1)).foldl (fun data _ => dataAdd data (some [byte])) data =
      some (data.toBytes ++ List.replicate (n + 1) byte) := by
  induction n with
  | zero => rfl
  | succ n ih =>
    rw [List.range_succ, List.foldl_append, ih, List.replicate_succ' (n := n + 1), ← List.append_assoc]
    rfl

theorem padData16_eq (data : Data) :
    padData16 data = some (data.toBytes ++ List.replicate (padNum data) (UInt8.ofNat (padNum data))) := by
  obtain ⟨n, hn⟩ := Nat.exists_eq_succ_of_ne_zero (padNum_bounds data).1.ne'
  unfold padData16
  rw [hn]
  exact addBytes_eq (UInt8.ofNat (n + 1)) n data

theorem padData16_length (data : Data) : (padData16 data).length = data.length + padNum data := by
  rw [padData16_eq, length_some, List.length_append, List.length_replicate]
  rfl

theorem padData16_whole (data : Data) : (padData16 data).length % 16 = 0 := by
  rw [padData16_length, padNum]
  omega

theorem lastCount_append (bytes : Bytes) {n : Nat} (h0 : 0 < n) (hn : n ≤ 16) :
    lastCount (bytes ++ List.replicate n (UInt8.ofNat n)) = n := by
  obtain ⟨k, rfl⟩ := Nat.exists_eq_succ_of_ne_zero h0.ne'
  rw [List.replicate_succ', ← List.append_assoc, lastCount, List.getLastD_concat]
  exact UInt8.toNat_ofNat_of_lt' (Nat.lt_of_le_of_lt hn (by decide))

/-- The pad count removes what it stands for. -/
theorem unpad_append (bytes : Bytes) {n : Nat} (h0 : 0 < n) (hn : n ≤ 16) :
    unpadData16 (some (bytes ++ List.replicate n (UInt8.ofNat n))) = some bytes := by
  have hlength : (bytes ++ List.replicate n (UInt8.ofNat n)).length = bytes.length + n := by simp
  unfold unpadData16
  rw [length_some, toBytes_some, lastCount_append bytes h0 hn, hlength, if_neg (by omega)]
  dsimp only
  rw [if_neg (by omega), Nat.add_sub_cancel, List.take_left]

/-- A message that ends like padding or in the middle of no block is no exception. -/
theorem unpad_pad (data : Data) : unpadData16 (padData16 data) = some data.toBytes := by
  obtain ⟨h0, hn⟩ := padNum_bounds data
  rw [padData16_eq]
  exact unpad_append data.toBytes h0 hn

/-! ## What is accepted -/

/-- Only what `padData16` makes is unpadded. -/
def AcceptsPadding (x : Bytes) : Prop := ∀ data, unpadData16 (some x) = some data → padData16 (some data) = some x

/-- The last byte is a count from 1 to 16 and so many bytes repeat it. -/
def EndsInPadding (x : Bytes) : Prop :=
  0 < lastCount x ∧ List.replicate (lastCount x) (UInt8.ofNat (lastCount x)) <:+ x

instance (x : Bytes) : Decidable (EndsInPadding x) := inferInstanceAs (Decidable (_ ∧ _))

theorem unpad_eq_some {x data : Bytes} (hwhole : x.length % 16 = 0) (hne : x ≠ []) :
    unpadData16 (some x) = some data ↔ lastCount x ≤ 16 ∧ data = x.take (x.length - lastCount x) := by
  have hlength : 16 ≤ x.length := by
    have := List.length_pos_of_ne_nil hne
    omega
  unfold unpadData16
  rw [length_some, toBytes_some, if_neg (by omega)]
  dsimp only
  by_cases hbig : 16 < lastCount x
  · rw [if_pos (.inr hbig)]
    exact iff_of_false (by simp) fun h => absurd h.1 (Nat.not_le.2 hbig)
  · rw [if_neg (by omega), Option.some.injEq]
    exact ⟨fun h => ⟨Nat.le_of_not_lt hbig, h.symm⟩, fun h => h.2.symm⟩

theorem acceptsPadding_iff (x : Bytes) (hwhole : x.length % 16 = 0) (hne : x ≠ []) :
    AcceptsPadding x ↔ 16 < lastCount x ∨ EndsInPadding x := by
  unfold AcceptsPadding
  simp only [unpad_eq_some hwhole hne]
  constructor
  · intro h
    by_cases hbig : 16 < lastCount x
    · exact .inl hbig
    have hpad := h _ ⟨Nat.le_of_not_lt hbig, rfl⟩
    rw [padData16_eq, toBytes_some, Option.some.injEq] at hpad
    obtain ⟨h0, hn⟩ := padNum_bounds (some (x.take (x.length - lastCount x)))
    have hcount := lastCount_append (x.take (x.length - lastCount x)) h0 hn
    rw [hpad] at hcount
    rw [← hcount] at hpad h0
    exact .inr ⟨h0, ⟨_, hpad⟩⟩
  · rintro (hbig | ⟨h0, data, hdata⟩)
    · exact fun data hdata => absurd hdata.1 (Nat.not_le.2 hbig)
    rintro _ ⟨hn, rfl⟩
    generalize hcount : lastCount x = n at *
    have hlength : x.length = data.length + n := by rw [← hdata, List.length_append, List.length_replicate]
    have hnum : padNum (some data) = n := by
      unfold padNum
      rw [length_some]
      omega
    rw [hlength, Nat.add_sub_cancel, ← hdata, List.take_left, padData16_eq, hnum, toBytes_some]

theorem acceptsPadding_sixteen : AcceptsPadding (List.replicate 16 16) ↔
    16 < lastCount (List.replicate 16 16) ∨ EndsInPadding (List.replicate 16 16) :=
  acceptsPadding_iff (List.replicate 16 16) (by decide) (by decide)

/-- Sixteen zeros are taken for a message of sixteen bytes. -/
theorem not_acceptsPadding :
    ¬ ∀ x : Bytes, x.length % 16 = 0 → x ≠ [] → AcceptsPadding x := by
  intro h
  have hpad := h (List.replicate 16 0) (by decide) (by decide) (List.replicate 16 0) (by decide)
  exact absurd hpad (by decide)

end BitcoinSpoon
