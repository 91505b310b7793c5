/-
  BitcoinSpoon.Address.Base58 — Base58 (`libraries/base58/base58.cpp`, `code/base58C.cpp`).

  A text is decoded if it is the encoding of some bytes between spaces, and then to these
  bytes (`decode_iff`); the buffers have room for it, so that neither `assert` fails.
  Characters are those of the C string without the closing NUL, counters do not overflow.
-/

import BitcoinSpoon.Hd.Wallet
import BitcoinSpoon.Loop.Radix
import Mathlib.Data.FinEnum

namespace BitcoinSpoon

open Wire Loop

namespace Base58

/-! ## The alphabet -/

/-- All alphanumeric characters except for "0", "I", "O", and "l" -/
def pszBase58 : Bytes :=
  ['1', '2', '3', '4', '5', '6', '7', '8', '9', 'A', 'B', 'C', 'D', 'E', 'F', 'G', 'H', 'J', 'K', 'L', 'M', 'N', 'P', 'Q',
    'R', 'S', 'T', 'U', 'V', 'W', 'X', 'Y', 'Z', 'a', 'b', 'c', 'd', 'e', 'f', 'g', 'h', 'i', 'j', 'k', 'm', 'n', 'o', 'p',
    'q', 'r', 's', 't', 'u', 'v', 'w', 'x', 'y', 'z'].map fun ch => UInt8.ofNat ch.toNat

/-- The rows from 128 on are -1. -/
def mapBase58 : List Int :=
  [-1,-1,-1,-1,-1,-1,-1,-1, -1,-1,-1,-1,-1,-1,-1,-1,
   -1,-1,-1,-1,-1,-1,-1,-1, -1,-1,-1,-1,-1,-1,-1,-1,
   -1,-1,-1,-1,-1,-1,-1,-1, -1,-1,-1,-1,-1,-1,-1,-1,
   -1, 0, 1, 2, 3, 4, 5, 6,  7, 8,-1,-1,-1,-1,-1,-1,
   -1, 9,10,11,12,13,14,15, 16,-1,17,18,19,20,21,-1,
   22,23,24,25,26,27,28,29, 30,31,32,-1,-1,-1,-1,-1,
   -1,33,34,35,36,37,38,39, 40,41,42,43,-1,44,45,46,
   47,48,49,50,51,52,53,54, 55,56,57,-1,-1,-1,-1,-1] ++ List.replicate 128 (-1)

/-- '1' -/
def one : UInt8 := 0x31

/-! ## Encoding -/

/-- Apply "b58 = b58 * 256 + ch". `none`: the assertion fails. -/
def encodeBytes : Bytes → List Nat → Nat → Option (List Nat × Nat)
  | [], b58, length => some (b58, length)
  | byte :: bytes, b58, length =>
    let (b58, i, carry) := mulAdd 256 58 b58 length byte.toNat
    if carry ≠ 0 then none else encodeBytes bytes b58 i

def EncodeBase58 (bytes : Bytes) : Option Bytes :=
  let zeroes := (bytes.takeWhile (· == 0)).length
  let bytes := bytes.dropWhile (· == 0)
  -- log(256) / log(58), rounded up
  let size := bytes.length * 138 / 100 + 1
  (encodeBytes bytes (List.replicate size 0) 0).map fun (b58, length) =>
    List.replicate zeroes one ++ (trim b58 length).map fun digit => pszBase58.getD digit 0

/-! ## Decoding -/

inductive DecodeError
  | refused
  | assertFailed
  deriving DecidableEq, Repr

/-- The text that is left, the buffer and its length. -/
def decodeCharacters : Bytes → List Nat → Nat → Except DecodeError (Bytes × List Nat × Nat)
  | [], b256, length => .ok ([], b256, length)
  | ch :: psz, b256, length =>
    if isspace ch then .ok (ch :: psz, b256, length)
    else
      let carry := mapBase58.getD ch.toNat (-1)
      if carry = -1 then .error .refused
      else
        let (b256, i, carry) := mulAdd 58 256 b256 length carry.toNat
        if carry ≠ 0 then .error .assertFailed else decodeCharacters psz b256 i

def DecodeBase58 (psz : Bytes) : Except DecodeError Bytes :=
  let psz := psz.dropWhile isspace
  let zeroes := (psz.takeWhile (· == one)).length
  let psz := psz.dropWhile (· == one)
  -- log(58) / log(256), rounded up
  let size := psz.length * 733 / 1000 + 1
  match decodeCharacters psz (List.replicate size 0) 0 with
  | .error error => .error error
  | .ok (psz, b256, length) =>
    if psz.dropWhile isspace ≠ [] then .error .refused
    else .ok (List.replicate zeroes 0 ++ (trim b256 length).map UInt8.ofNat)

/-! ## Digits and characters -/

def charOf (digit : Nat) : UInt8 := pszBase58.getD digit 0

def digitOf (ch : UInt8) : Nat := (mapBase58.getD ch.toNat (-1)).toNat

theorem digit_spec : ∀ digit < 58, mapBase58.getD (charOf digit).toNat (-1) = digit ∧ isspace (charOf digit) = false := by decide

theorem digitOf_charOf (digit : Nat) (h : digit < 58) : digitOf (charOf digit) = digit := by
  rw [digitOf, (digit_spec digit h).1]
  rfl

theorem charOf_mem (digit : Nat) (h : digit < 58) : charOf digit ∈ pszBase58 := by
  have hlength : pszBase58.length = 58 := rfl
  rw [charOf, List.getD_eq_getElem _ _ (hlength ▸ h)]
  exact List.getElem_mem _

theorem exists_digit {ch : UInt8} (h : ch ∈ pszBase58) : ∃ digit < 58, ch = charOf digit := by
  obtain ⟨digit, hlt, rfl⟩ := List.mem_iff_getElem.mp h
  refine ⟨digit, hlt, ?_⟩
  rw [charOf, List.getD_eq_getElem _ _ hlt]

theorem charOf_digitOf (ch : UInt8) (h : ch ∈ pszBase58) : charOf (digitOf ch) = ch ∧ digitOf ch < 58 ∧ isspace ch = false := by
  obtain ⟨digit, hlt, rfl⟩ := exists_digit h
  rw [digitOf_charOf digit hlt]
  exact ⟨rfl, hlt, (digit_spec digit hlt).2⟩

theorem table_chars : ∀ entry ∈ mapBase58.zipIdx, entry.1 = -1 ∨ entry.1.toNat < 58 ∧ charOf entry.1.toNat = UInt8.ofNat entry.2 := by
  decide +kernel

/-- A character is in the alphabet if the table has a digit for it. -/
theorem alphabet_iff (ch : UInt8) : ch ∈ pszBase58 ↔ mapBase58.getD ch.toNat (-1) ≠ -1 := by
  constructor
  · intro h hnone
    obtain ⟨digit, hlt, rfl⟩ := exists_digit h
    rw [(digit_spec digit hlt).1] at hnone
    omega
  intro h
  cases hentry : mapBase58[ch.toNat]? with
  | none => simp [hentry] at h
  | some digit =>
    have hdigit : digit ≠ -1 := by simpa [hentry] using h
    rcases table_chars (digit, ch.toNat) (List.mem_zipIdx_iff_getElem?.mpr hentry) with hnone | ⟨hlt, hchar⟩
    · exact absurd hnone hdigit
    · rw [← UInt8.ofNat_toNat (x := ch), ← hchar]
      exact charOf_mem _ hlt

theorem digitOf_one : digitOf one = 0 := by decide

/-! ## The loops -/

theorem ratio_encode : 256 ^ 100 ≤ 58 ^ 138 := by norm_num

theorem ratio_decode : 58 ^ 1000 ≤ 256 ^ 733 := by decide +kernel

theorem encodeBytes_spec {size : Nat} (bytes : Bytes) :
    ∀ {b58 : List Nat} {length value : Nat}, HoldsDigits 58 size b58 length value → Room 256 58 size value bytes.length →
      ∃ b58' length', encodeBytes bytes b58 length = some (b58', length') ∧
        HoldsDigits 58 size b58' length' (readDigits 256 value (bytes.map UInt8.toNat)) := by
  induction bytes with
  | nil =>
    intro b58 length value h _
    exact ⟨b58, length, rfl, h⟩
  | cons byte bytes ih =>
    intro b58 length value h hroom
    obtain ⟨hcarry, hnext⟩ := h.mulAdd (by decide) hroom byte.toNat_lt
    obtain ⟨b58', length', hrest, hholds⟩ := ih hnext (hroom.step byte.toNat_lt)
    refine ⟨b58', length', ?_, hholds⟩
    rw [← hrest, encodeBytes]
    simp only [hcarry]
    rfl

/-- The digits of the bytes in base 58. -/
def encoded (bytes : Bytes) : Bytes := (rebase 256 58 (bytes.map UInt8.toNat)).map charOf

theorem EncodeBase58_eq (bytes : Bytes) : EncodeBase58 bytes = some (encoded bytes) := by
  obtain ⟨hzeros, hvalue⟩ := leadingZeros_map (m := 256) (f := UInt8.toNat) (p := (· == 0)) (l := bytes) fun byte _ => by
    rw [Bool.eq_iff_iff, beq_iff_eq, beq_iff_eq]
    exact UInt8.toNat_inj (b := 0)
  obtain ⟨b58, length, hloop, hholds⟩ := encodeBytes_spec (bytes.dropWhile (· == 0))
    (holds_replicate 58 ((bytes.dropWhile (· == 0)).length * 138 / 100 + 1) (by decide))
    (room_of_ratio _ ratio_encode (by decide) (by decide))
  unfold EncodeBase58 encoded rebase
  rw [List.map_append, List.map_replicate, hzeros, hvalue]
  simp only [hloop, Option.map_some, hholds.trim (by decide : 1 < 58)]
  rfl

/-- The characters before a space, if they are in the alphabet. -/
theorem decodeCharacters_spec {size : Nat} (psz : Bytes) :
    ∀ {b256 : List Nat} {length value : Nat}, HoldsDigits 256 size b256 length value → Room 58 256 size value psz.length →
      (∀ ch ∈ psz.takeWhile (!isspace ·), ch ∈ pszBase58) →
      ∃ b256' length', decodeCharacters psz b256 length = .ok (psz.dropWhile (!isspace ·), b256', length') ∧
        HoldsDigits 256 size b256' length' (readDigits 58 value ((psz.takeWhile (!isspace ·)).map digitOf)) := by
  induction psz with
  | nil =>
    intro b256 length value h _ _
    exact ⟨b256, length, rfl, h⟩
  | cons ch psz ih =>
    intro b256 length value h hroom hword
    rw [decodeCharacters]
    by_cases hspace : isspace ch
    · simp only [hspace, List.takeWhile_cons, List.dropWhile_cons]
      exact ⟨b256, length, rfl, h⟩
    · simp only [List.takeWhile_cons, List.dropWhile_cons, hspace, Bool.not_false, ↓reduceIte] at hword ⊢
      have hch := hword ch List.mem_cons_self
      obtain ⟨-, hdigit, -⟩ := charOf_digitOf ch hch
      obtain ⟨hcarry, hnext⟩ := h.mulAdd (by decide) hroom hdigit
      obtain ⟨b256', length', hrest, hholds⟩ :=
        ih hnext (hroom.step hdigit) fun c hc => hword c (List.mem_cons_of_mem _ hc)
      refine ⟨b256', length', ?_, hholds⟩
      rw [← hrest, if_neg ((alphabet_iff ch).mp hch)]
      change (if (mulAdd 58 256 b256 length (digitOf ch)).2.2 ≠ 0 then _ else _) = _
      rw [if_neg (not_not_intro hcarry)]
      rfl

theorem decodeCharacters_refused {size : Nat} (psz : Bytes) :
    ∀ {b256 : List Nat} {length value : Nat}, HoldsDigits 256 size b256 length value → Room 58 256 size value psz.length →
      ¬ (∀ ch ∈ psz.takeWhile (!isspace ·), ch ∈ pszBase58) → decodeCharacters psz b256 length = .error .refused := by
  induction psz with
  | nil =>
    intro b256 length value _ _ hword
    exact absurd (by simp) hword
  | cons ch psz ih =>
    intro b256 length value h hroom hword
    rw [decodeCharacters]
    by_cases hspace : isspace ch
    · exact absurd (by simp [hspace]) hword
    · by_cases hch : ch ∈ pszBase58
      · obtain ⟨-, hdigit, -⟩ := charOf_digitOf ch hch
        obtain ⟨hcarry, hnext⟩ := h.mulAdd (by decide) hroom hdigit
        have hrest := ih hnext (hroom.step hdigit) (by
          intro hall
          apply hword
          simp only [List.takeWhile_cons, hspace]
          intro c hc
          rcases List.mem_cons.mp hc with rfl | hc
          · exact hch
          · exact hall c hc)
        rw [if_neg hspace, if_neg ((alphabet_iff ch).mp hch), ← hrest]
        change (if (mulAdd 58 256 b256 length (digitOf ch)).2.2 ≠ 0 then _ else _) = _
        rw [if_neg (not_not_intro hcarry)]
        rfl
      · rw [if_neg hspace]
        rw [if_pos (not_not.mp (mt (alphabet_iff ch).mpr hch))]

/-! ## What is decoded -/

/-- The digits of the text in base 256. -/
def decoded (text : Bytes) : Bytes := (rebase 58 256 (text.map digitOf)).map UInt8.ofNat

theorem encoded_mem (bytes : Bytes) : ∀ ch ∈ encoded bytes, ch ∈ pszBase58 := by
  intro ch hch
  obtain ⟨digit, hdigit, rfl⟩ := List.mem_map.mp hch
  exact charOf_mem digit (rebase_lt (by decide) digit hdigit)

theorem decoded_encoded (bytes : Bytes) : decoded (encoded bytes) = bytes := by
  have hdigits : (encoded bytes).map digitOf = rebase 256 58 (bytes.map UInt8.toNat) := by
    unfold encoded
    rw [List.map_map]
    conv_rhs => rw [← List.map_id (rebase 256 58 (bytes.map UInt8.toNat))]
    apply List.map_congr_left
    intro digit hdigit
    exact digitOf_charOf digit (rebase_lt (by decide) digit hdigit)
  unfold decoded
  rw [hdigits, rebase_rebase (by decide)]
  · simp [List.map_map, Function.comp_def]
  · intro d hd
    obtain ⟨byte, -, rfl⟩ := List.mem_map.mp hd
    exact byte.toNat_lt

theorem encoded_decoded {text : Bytes} (h : ∀ ch ∈ text, ch ∈ pszBase58) : encoded (decoded text) = text := by
  have hbytes : (decoded text).map UInt8.toNat = rebase 58 256 (text.map digitOf) := by
    unfold decoded
    rw [List.map_map]
    conv_rhs => rw [← List.map_id (rebase 58 256 (text.map digitOf))]
    apply List.map_congr_left
    intro digit hdigit
    exact Nat.mod_eq_of_lt (rebase_lt (by decide) digit hdigit)
  unfold encoded
  rw [hbytes, rebase_rebase (by decide)]
  · rw [List.map_map]
    conv_rhs => rw [← List.map_id text]
    apply List.map_congr_left
    intro ch hch
    exact (charOf_digitOf ch (h ch hch)).1
  · intro d hd
    obtain ⟨ch, hch, rfl⟩ := List.mem_map.mp hd
    exact (charOf_digitOf ch (h ch hch)).2.1

theorem not_space_of_one (ch : UInt8) (h : ch == one) : (!isspace ch) = true := by
  rw [eq_of_beq h]
  decide

/-- '1' stands for the digit 0, and no other character of the alphabet does. -/
theorem digitOf_eq_zero {ch : UInt8} (h : ch ∈ pszBase58) : (digitOf ch == 0) = (ch == one) := by
  rw [Bool.eq_iff_iff, beq_iff_eq, beq_iff_eq]
  constructor
  · intro hzero
    rw [← (charOf_digitOf ch h).1, hzero]
    rfl
  · intro hone
    rw [hone]
    exact digitOf_one

/-- The spaces in front, what stands before the next space, and the rest. -/
theorem decode_eq (psz : Bytes) :
    DecodeBase58 psz =
      if (∀ ch ∈ (psz.dropWhile isspace).takeWhile (!isspace ·), ch ∈ pszBase58) ∧
          ∀ ch ∈ (psz.dropWhile isspace).dropWhile (!isspace ·), isspace ch then
        .ok (decoded ((psz.dropWhile isspace).takeWhile (!isspace ·)))
      else .error .refused := by
  unfold DecodeBase58
  generalize psz.dropWhile isspace = psz
  have htext := takeWhile_split not_space_of_one psz
  have hroom := room_of_ratio (psz.dropWhile (· == one)).length ratio_decode (by decide) (by decide)
  by_cases hword : ∀ ch ∈ (psz.dropWhile (· == one)).takeWhile (!isspace ·), ch ∈ pszBase58
  · obtain ⟨b256, length, hloop, hholds⟩ := decodeCharacters_spec (psz.dropWhile (· == one))
      (holds_replicate 256 _ (by decide)) hroom hword
    have hall : ∀ ch ∈ psz.takeWhile (!isspace ·), ch ∈ pszBase58 := by
      rw [htext]
      intro ch hch
      rcases List.mem_append.mp hch with hch | hch
      · have hone : ch = one := by simpa using List.mem_takeWhile_imp hch
        rw [hone]
        decide
      · exact hword ch hch
    obtain ⟨hzeros, hvalue⟩ := leadingZeros_map (m := 58) (f := digitOf) (p := (· == one)) (l := psz.takeWhile (!isspace ·))
      fun ch hch => digitOf_eq_zero (hall ch hch)
    rw [takeWhile_within not_space_of_one] at hzeros
    rw [dropWhile_within not_space_of_one] at hvalue
    simp only [hloop, hholds.trim (by decide : 1 < 256), ne_eq, ite_not]
    rw [dropWhile_dropWhile not_space_of_one]
    refine if_congr (List.dropWhile_eq_nil_iff.trans ⟨fun hspaces => ⟨hall, hspaces⟩, fun hboth => hboth.2⟩) ?_ rfl
    unfold decoded rebase
    rw [List.map_append, List.map_replicate, hzeros, hvalue]
    rfl
  · simp only [decodeCharacters_refused (psz.dropWhile (· == one)) (holds_replicate 256 _ (by decide)) hroom hword]
    rw [if_neg]
    intro hboth
    apply hword
    intro ch hch
    apply hboth.1
    rw [htext]
    exact List.mem_append_right _ hch

theorem takeWhile_spaces {right : Bytes} (h : ∀ ch ∈ right, isspace ch) : right.takeWhile (!isspace ·) = [] := by
  cases right with
  | nil => rfl
  | cons ch right => simp [h ch List.mem_cons_self]

/-- The encoding of some bytes between spaces, and nothing else. -/
theorem decode_iff {psz bytes : Bytes} :
    DecodeBase58 psz = .ok bytes ↔
      ∃ left right, (∀ ch ∈ left, isspace ch) ∧ (∀ ch ∈ right, isspace ch) ∧ psz = left ++ encoded bytes ++ right := by
  rw [decode_eq]
  constructor
  · intro h
    split at h
    · rename_i hword
      obtain ⟨hall, hspaces⟩ := hword
      cases h
      refine ⟨psz.takeWhile isspace, (psz.dropWhile isspace).dropWhile (!isspace ·), ?_, hspaces, ?_⟩
      · intro ch hch
        exact List.mem_takeWhile_imp hch
      · rw [encoded_decoded hall, List.append_assoc, List.takeWhile_append_dropWhile, List.takeWhile_append_dropWhile]
    · cases h
  · rintro ⟨left, right, hleft, hright, rfl⟩
    have hnot : ∀ ch ∈ encoded bytes, (!isspace ch) = true := by
      intro ch hch
      rw [(charOf_digitOf ch (encoded_mem bytes ch hch)).2.2]
      rfl
    rw [List.append_assoc, List.dropWhile_append_of_pos hleft]
    have hafter : (encoded bytes ++ right).dropWhile isspace = if encoded bytes = [] then [] else encoded bytes ++ right := by
      cases htext : encoded bytes with
      | nil => simpa using hright
      | cons ch text =>
        have hch := hnot ch (by rw [htext]; exact List.mem_cons_self)
        simp only [Bool.not_eq_eq_eq_not, Bool.not_true] at hch
        simp [hch]
    have htake : ((encoded bytes ++ right).dropWhile isspace).takeWhile (!isspace ·) = encoded bytes := by
      rw [hafter]
      split
      · rename_i hnil
        rw [hnil]
        rfl
      · rw [List.takeWhile_append_of_pos hnot, takeWhile_spaces hright, List.append_nil]
    have hdrop : ∀ ch ∈ ((encoded bytes ++ right).dropWhile isspace).dropWhile (!isspace ·), isspace ch := by
      rw [hafter]
      split
      · simp
      · rw [List.dropWhile_append_of_pos hnot]
        intro ch hch
        exact hright ch ((List.dropWhile_suffix _).subset hch)
    rw [htake, if_pos ⟨encoded_mem bytes, hdrop⟩, decoded_encoded]

/-- Neither assertion fails, and a text is decoded if it is the encoding of some bytes between
    spaces, to these bytes. -/
theorem base58_canonical (psz bytes : Bytes) :
    (∃ text, EncodeBase58 bytes = some text) ∧ DecodeBase58 psz ≠ .error .assertFailed ∧
      (DecodeBase58 psz = .ok bytes ↔
        ∃ left text right, EncodeBase58 bytes = some text ∧ (∀ ch ∈ left, isspace ch) ∧ (∀ ch ∈ right, isspace ch) ∧
          psz = left ++ text ++ right) := by
  refine ⟨⟨_, EncodeBase58_eq bytes⟩, ?_, decode_iff.trans ⟨?_, ?_⟩⟩
  · rw [decode_eq]
    split
    · simp
    · simp
  · rintro ⟨left, right, hleft, hright, hpsz⟩
    exact ⟨left, encoded bytes, right, EncodeBase58_eq bytes, hleft, hright, hpsz⟩
  · rintro ⟨left, text, right, htext, hleft, hright, hpsz⟩
    rw [EncodeBase58_eq, Option.some.injEq] at htext
    rw [← htext] at hpsz
    exact ⟨left, right, hleft, hright, hpsz⟩

example : EncodeBase58 [0x00, 0x61, 0x62] = some [0x31, 0x38, 0x51, 0x71] := by decide

end Base58

end BitcoinSpoon
