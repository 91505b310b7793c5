/-
  BitcoinSpoon.Address.Segwit — segwit addresses (`libraries/segwit_addr/segwit_addr.c`).

  An address is decoded to a version and a program exactly if it encodes them, in one case
  throughout (`segwit_decode_iff`). The buffers are large enough but for a text without a
  separator, which `bech32_decode` copies whole into `hrp_actual` (`segwit_overflow_iff`).
-/

import BitcoinSpoon.Address.Bech32
import BitcoinSpoon.Loop.Regroup

namespace BitcoinSpoon

open Wire Loop Bech32

namespace Segwit

/-- `room` is the size of `out`. -/
def convert_bits (room outbits : Nat) (input : List Nat) (inbits : Nat) (pad : Bool) : Except Fault (List Nat) :=
  let stream := input.foldl (BitStream.push 32 inbits outbits) ⟨0, 0, []⟩
  let out := if pad then stream.padded outbits else stream.out
  if out.length > room then .error .overflow
  else if pad || stream.exact inbits outbits then .ok out
  else .error .refused

def segwit_addr_encode (hrp : Bytes) (witver : Nat) (witprog : Bytes) : Except Fault Bytes :=
  if witver > 16 then .error .refused
  else if witver = 0 ∧ witprog.length ≠ 20 ∧ witprog.length ≠ 32 then .error .refused
  else if witprog.length < 2 ∨ witprog.length > 40 then .error .refused
  else
    -- data[65], of which the version is the first
    match convert_bits 64 5 (witprog.map UInt8.toNat) 8 true with
    | .error fault => .error fault
    | .ok data =>
      match bech32_encode hrp (witver :: data) with
      | none => .error .refused
      | some text => .ok text

def segwit_addr_decode (addr : Bytes) : Except Fault (Bytes × Nat × Bytes) :=
  match bech32_decode 84 84 addr with
  | .error fault => .error fault
  | .ok (hrp, data) =>
    if data.length = 0 ∨ data.length > 65 then .error .refused
    else if data.headD 0 > 16 then .error .refused
    else
      match convert_bits 40 8 data.tail 5 false with
      | .error fault => .error fault
      | .ok witdata =>
        if witdata.length < 2 ∨ witdata.length > 40 then .error .refused
        else if data.headD 0 = 0 ∧ witdata.length ≠ 20 ∧ witdata.length ≠ 32 then .error .refused
        else .ok (hrp, data.headD 0, witdata.map UInt8.ofNat)

/-! ## Bytes and 5-bit values -/

/-- The symbols of the bytes, both ways. -/
def Symbols (bytes data : List Nat) : Prop := (∀ v ∈ data, v < 2 ^ 5) ∧ ∃ pad, Padded 8 5 bytes data pad

theorem Symbols.length {bytes data : List Nat} (h : Symbols bytes data) :
    data.length * 5 < bytes.length * 8 + 5 ∧ bytes.length * 8 ≤ data.length * 5 := by
  obtain ⟨-, pad, hpad⟩ := h
  have := hpad.length
  have := hpad.pad_lt
  omega

theorem exists_symbols {bytes : List Nat} (hbytes : ∀ v ∈ bytes, v < 2 ^ 8) : ∃ data, Symbols bytes data := by
  have h := (regrouped_nil 8 5 (by decide)).pushes 32 hbytes (by decide)
  rw [List.nil_append] at h
  exact ⟨_, padded_lt h.out_lt, h.padded⟩

theorem convert_encode_iff {room : Nat} {bytes data : List Nat} (hbytes : ∀ v ∈ bytes, v < 2 ^ 8) :
    convert_bits room 5 bytes 8 true = .ok data ↔ data.length ≤ room ∧ Symbols bytes data := by
  have h := (regrouped_nil 8 5 (by decide)).pushes 32 hbytes (by decide)
  rw [List.nil_append] at h
  have hsymbols : Symbols bytes ((bytes.foldl (BitStream.push 32 8 5) ⟨0, 0, []⟩).padded 5) := ⟨padded_lt h.out_lt, h.padded⟩
  unfold convert_bits
  simp only [↓reduceIte, Bool.true_or]
  constructor
  · intro heq
    split at heq
    · cases heq
    · rename_i hroom
      cases heq
      exact ⟨by omega, hsymbols⟩
  · rintro ⟨hroom, hlt, pad, hpad⟩
    obtain ⟨hlt', pad', hpad'⟩ := hsymbols
    rw [hpad'.right_unique hpad (by decide) hlt' hlt, if_neg (by omega)]

theorem convert_decode_iff (room : Nat) {bytes data : List Nat} (hdata : ∀ v ∈ data, v < 2 ^ 5) (hroom : data.length * 5 / 8 ≤ room) :
    convert_bits room 8 data 5 false = .ok bytes ↔ (∀ v ∈ bytes, v < 2 ^ 8) ∧ Symbols bytes data := by
  have h := (regrouped_nil 5 8 (by decide)).pushes 32 hdata (by decide)
  rw [List.nil_append] at h
  have hlength := h.length
  have hbits := h.bits_lt
  have hexact := fun hbytes : ∀ v ∈ bytes, v < 2 ^ 8 => h.exact_iff (by decide) hbytes
  have hout := h.out_lt
  unfold convert_bits
  generalize data.foldl (BitStream.push 32 5 8) ⟨0, 0, []⟩ = stream at hlength hbits hexact hout
  simp only [Bool.false_eq_true, ↓reduceIte, Bool.false_or]
  rw [if_neg (by omega)]
  constructor
  · intro heq
    split at heq
    · rename_i hfits
      cases heq
      exact ⟨hout, hdata, (hexact hout).mp ⟨hfits, rfl⟩⟩
    · cases heq
  · rintro ⟨hbytes, hsymbols⟩
    obtain ⟨hfits, rfl⟩ := (hexact hbytes).mpr hsymbols.2
    rw [if_pos hfits]

theorem convert_fits (room : Nat) (data : List Nat) (hdata : ∀ v ∈ data, v < 2 ^ 5) (hroom : data.length * 5 / 8 ≤ room) :
    convert_bits room 8 data 5 false ≠ .error .overflow := by
  have h := (regrouped_nil 5 8 (by decide)).pushes 32 hdata (by decide)
  rw [List.nil_append] at h
  have hlength := h.length
  unfold convert_bits
  generalize data.foldl (BitStream.push 32 5 8) ⟨0, 0, []⟩ = stream at hlength
  simp only [Bool.false_eq_true, ↓reduceIte, Bool.false_or]
  rw [if_neg (by omega)]
  split
  · simp
  · simp

/-! ## Addresses -/

theorem map_ofNat_toNat (bytes : Bytes) : (bytes.map UInt8.toNat).map UInt8.ofNat = bytes := by
  simp [List.map_map, Function.comp_def]

theorem map_toNat_ofNat_bytes {values : List Nat} (h : ∀ v ∈ values, v < 2 ^ 8) : (values.map UInt8.ofNat).map UInt8.toNat = values := by
  rw [List.map_map]
  conv_rhs => rw [← List.map_id values]
  apply List.map_congr_left
  intro v hv
  exact Nat.mod_eq_of_lt (h v hv)

theorem toNat_lt (bytes : Bytes) : ∀ v ∈ bytes.map UInt8.toNat, v < 2 ^ 8 := by
  intro v hv
  obtain ⟨byte, -, rfl⟩ := List.mem_map.mp hv
  exact byte.toNat_lt

/-- What an address is encoded from. -/
theorem segwit_encode_iff {hrp witprog text : Bytes} {witver : Nat} :
    segwit_addr_encode hrp witver witprog = .ok text ↔
      witver ≤ 16 ∧ (witver = 0 → witprog.length = 20 ∨ witprog.length = 32) ∧ 2 ≤ witprog.length ∧ witprog.length ≤ 40 ∧
        ∃ data, Symbols (witprog.map UInt8.toNat) data ∧ bech32_encode hrp (witver :: data) = some text := by
  have hall : ∀ data, convert_bits 64 5 (witprog.map UInt8.toNat) 8 true = .ok data ↔
      data.length ≤ 64 ∧ Symbols (witprog.map UInt8.toNat) data := fun data => convert_encode_iff (toNat_lt witprog)
  unfold segwit_addr_encode
  constructor
  · intro h
    split at h
    · cases h
    split at h
    · cases h
    split at h
    · cases h
    rename_i hver hzero hsize
    split at h
    · cases h
    · rename_i data hconvert
      split at h
      · cases h
      · rename_i text' hencode
        cases h
        exact ⟨by omega, by omega, by omega, by omega, data, ((hall data).mp hconvert).2, hencode⟩
  · rintro ⟨hver, hzero, htwo, hforty, data, hsymbols, hencode⟩
    have hlength := hsymbols.length
    rw [List.length_map] at hlength
    rw [if_neg (by omega), if_neg (by omega), if_neg (by omega), (hall data).mpr ⟨by omega, hsymbols⟩]
    simp only [hencode]

/-- What an address decodes to encodes to it, but for the case of its letters. -/
theorem segwit_decode_iff {addr hrp witprog : Bytes} {witver : Nat} :
    segwit_addr_decode addr = .ok (hrp, witver, witprog) ↔
      uniform addr ∧ hrp ≠ [] ∧ segwit_addr_encode hrp witver witprog = .ok (lower addr) := by
  rw [segwit_encode_iff]
  constructor
  · intro h
    unfold segwit_addr_decode at h
    split at h
    · cases h
    rename_i hrp' data hdecode
    obtain ⟨huniform, hne, hencode⟩ := (bech32_decode_iff (by decide) (by decide)).mp hdecode
    have hdata := (encode_iff.mp hencode).2.2.1
    split at h
    · cases h
    rename_i hlength
    obtain ⟨witver', tail, rfl⟩ := List.exists_cons_of_ne_nil (l := data) fun hnil => hlength (.inl (congrArg List.length hnil))
    rw [List.length_cons] at hlength
    split at h
    · cases h
    rename_i hver
    split at h
    · cases h
    rename_i witdata hconvert
    rw [List.headD_cons] at hver
    have htail : ∀ v ∈ tail, v < 2 ^ 5 := fun v hv => hdata v (List.mem_cons_of_mem _ hv)
    obtain ⟨hbytes, hsymbols⟩ := (convert_decode_iff 40 htail (by omega)).mp hconvert
    split at h
    · cases h
    split at h
    · cases h
    rename_i hsize hzero
    rw [List.headD_cons] at hzero
    cases h
    simp only [List.headD_cons, List.length_map, map_toNat_ofNat_bytes hbytes]
    exact ⟨huniform, hne, by omega, by omega, by omega, by omega, tail, hsymbols, hencode⟩
  · rintro ⟨huniform, hne, hver, hzero, htwo, hforty, data, hsymbols, hencode⟩
    have hdecode := (bech32_decode_iff (by decide : 84 ≤ 84) (by decide : 84 ≤ 84)).mpr ⟨huniform, hne, hencode⟩
    have hlength := hsymbols.length
    rw [List.length_map] at hlength
    have hconvert := (convert_decode_iff 40 hsymbols.1 (by omega)).mpr ⟨toNat_lt witprog, hsymbols⟩
    unfold segwit_addr_decode
    simp only [hdecode, List.tail_cons, List.headD_cons, List.length_cons, hconvert, List.length_map, map_ofNat_toNat]
    rw [if_neg (by omega), if_neg (by omega), if_neg (by omega), if_neg (by omega)]

/-! ## The buffers -/

/-- `hrp_actual` is written behind its end for these texts only; `data` and `witdata` never are. -/
theorem segwit_overflow_iff (addr : Bytes) : segwit_addr_decode addr = .error .overflow ↔ Overflows addr := by
  rw [← bech32_overflow_iff]
  unfold segwit_addr_decode
  cases hdecode : bech32_decode 84 84 addr with
  | error fault => simp
  | ok decoded =>
    obtain ⟨hrp, data⟩ := decoded
    obtain ⟨-, -, hencode⟩ := (bech32_decode_iff (by decide) (by decide)).mp hdecode
    have hdata := (encode_iff.mp hencode).2.2.1
    simp only [reduceCtorEq, iff_false]
    split
    · simp
    rename_i hlength
    have hfits := convert_fits 40 data.tail (fun v hv => hdata v (List.mem_of_mem_tail hv)) (by
      rw [List.length_tail]
      omega)
    by_cases hver : data.headD 0 > 16
    · rw [if_pos hver]
      simp
    rw [if_neg hver]
    cases hconvert : convert_bits 40 8 data.tail 5 false with
    | error fault =>
      rw [hconvert] at hfits
      simpa using hfits
    | ok witdata =>
      simp only
      split
      · simp
      split
      · simp
      · simp

theorem segwit_encode_fits (hrp : Bytes) (witver : Nat) (witprog : Bytes) :
    segwit_addr_encode hrp witver witprog ≠ .error .overflow := by
  have h := (regrouped_nil 8 5 (by decide)).pushes 32 (toNat_lt witprog) (by decide)
  rw [List.nil_append] at h
  obtain ⟨pad, hpad⟩ := h.padded
  have hlength := hpad.length
  have hpad_lt := hpad.pad_lt
  rw [List.length_map] at hlength
  unfold segwit_addr_encode
  split
  · simp
  split
  · simp
  split
  · simp
  rename_i hsize
  unfold convert_bits
  simp only [↓reduceIte, Bool.true_or]
  rw [if_neg (by omega)]
  simp only
  split
  · simp
  · simp

/-- What is decoded encodes to the text, but for the case of its letters, and what is encoded
    decodes to itself. -/
theorem segwit_canonical (addr hrp witprog : Bytes) (witver : Nat) :
    segwit_addr_decode addr = .ok (hrp, witver, witprog) ↔
      uniform addr ∧ hrp ≠ [] ∧ segwit_addr_encode hrp witver witprog = .ok (lower addr) := segwit_decode_iff

/-- No buffer is written behind its end but `hrp_actual`, by a text without a separator that has
    from 85 to 90 characters, of which the first 85 are printable. -/
theorem segwit_buffers (addr hrp witprog : Bytes) (witver : Nat) :
    (segwit_addr_decode addr = .error .overflow ↔ Overflows addr) ∧ segwit_addr_encode hrp witver witprog ≠ .error .overflow :=
  ⟨segwit_overflow_iff addr, segwit_encode_fits hrp witver witprog⟩

end Segwit

end BitcoinSpoon
