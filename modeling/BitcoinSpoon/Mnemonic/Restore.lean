/-
  BitcoinSpoon.Mnemonic.Restore — entropy from a sentence (`code/BTCUtil.c`).

  `fromMnemonic` counts back from the bytes the words take to the bytes of the entropy: one
  for the checksum, and one more above 32 bytes. This is right for the seven lengths that
  `toMnemonic` has a checksum for (`mnemonic_restores`). The buffer it reads the bytes from
  has one byte for each character of the sentence and its NUL, while the words may take more
  when they are short: then it reads outside (`fromMnemonic_safe_iff`).
-/

import BitcoinSpoon.Hd.Curve
import BitcoinSpoon.Mnemonic.Packing
import BitcoinSpoon.Util.Components

namespace BitcoinSpoon

open Wire Loop Strings

/-- The library with `mnemonic_from_bytes` as `libraries/mnemonic` has it. -/
def HdCrypto.withWords (c : HdCrypto) (w : Wordlist) : HdCrypto := { c with mnemonic_from_bytes := mnemonicFromBytes w }

/-- BIP39_ENTROPY_LEN_128 to BIP39_ENTROPY_LEN_320. -/
def entropyLengths : List Nat := [16, 20, 24, 28, 32, 36, 40]

variable (c : HdCrypto) (search : BinarySearch) (w : Wordlist)

/-- `none` where bytes outside the buffer are copied. `DataNew` fills the buffer with 0x33. -/
def fromMnemonic (mnemonic : CString) : Option Data :=
  match mnemonicToBytes search w mnemonic.chars (List.replicate mnemonic.string.length 0x33) with
  | none => some none
  | some (result, written) =>
    let written := written - 1
    let written := if 32 < written then written - 1 else written
    let length := written % 2 ^ 32
    if result.length < length then none
    else
      match toMnemonic (c.withWords w) (some (result.take length)) with
      | none => none
      | some sentence => if sentence = some mnemonic.chars then some (some (result.take length)) else some none

/-- The two bytes that `toMnemonic` masks: the first character of the hash, twice. -/
def checksumOf (hash : Bytes) (mask : Nat) : Nat :=
  let first := if 0x80 ≤ (hash.headD 0).toNat then 0xff00 + (hash.headD 0).toNat else (hash.headD 0).toNat
  (first ||| first <<< 8) &&& mask

/-- What it makes the words from. -/
def withChecksum (hash data : Bytes) : Bytes :=
  let mask := lenToMask data.length
  let data' := data ++ uint8D (checksumOf hash mask &&& 0xff)
  if 0xff < mask then data' ++ uint8D (checksumOf hash mask >>> 8 &&& 0xff) else data'

variable {c search w}

/-! ## The bytes behind a sentence -/

theorem toMnemonic_withWords (data : Bytes) :
    toMnemonic (c.withWords w) (some data) = some (mnemonicFromBytes w (withChecksum (c.sha256 data) data)) := rfl

/-- One byte of checksum, and two above 32 bytes. -/
theorem withChecksum_append (hash : Bytes) {data : Bytes} (h : data.length ∈ entropyLengths) :
    ∃ checksum, withChecksum hash data = data ++ checksum ∧ checksum.length = if 32 < data.length then 2 else 1 := by
  have hmask : ∀ length ∈ entropyLengths, 0xff < lenToMask length ↔ 32 < length := by decide
  unfold withChecksum
  dsimp only
  by_cases hlong : 32 < data.length
  · rw [if_pos ((hmask _ h).2 hlong), if_pos hlong, List.append_assoc]
    exact ⟨_, rfl, rfl⟩
  · rw [if_neg (mt (hmask _ h).1 hlong), if_neg hlong]
    exact ⟨_, rfl, rfl⟩

theorem bitAt_append (a b : Bytes) {pos : Nat} (h : pos < 8 * a.length) : bitAt (a ++ b) pos = bitAt a pos := by
  rw [bitAt, bitAt, hasBit, hasBit, bitNumber_div, List.getD_append _ _ _ _ (by omega)]

theorem bitAt_take (a : Bytes) {n pos : Nat} (h : pos < 8 * n) : bitAt (a.take n) pos = bitAt a pos := by
  rw [bitAt, bitAt, hasBit, hasBit, bitNumber_div, List.getD_eq_getElem?_getD, List.getElem?_take_of_lt (by omega),
    ← List.getD_eq_getElem?_getD]

/-- The count goes back to the entropy, whose bits all are in words. -/
theorem count_of_entropy {length : Nat} (h : length ∈ entropyLengths) :
    let total := length + if 32 < length then 2 else 1
    let written := (total * 8 / 11 * 11 + 7) / 8 - 1
    (if 32 < written then written - 1 else written) % 2 ^ 32 = length ∧ 8 * length ≤ total * 8 / 11 * 11 := by
  revert length
  decide

/-- What `toMnemonic` gives for entropy, as a string. -/
def sentence (w : Wordlist) (hash data : Bytes) : CString where
  chars := sentenceOf (wordsOf w (withChecksum hash data))
  noNul := sentenceOf_noNul fun _ hword => (plain_of_mem hword).2.2

theorem two_le_withChecksum (hash : Bytes) {data : Bytes} (h : data.length ∈ entropyLengths) : 2 ≤ (withChecksum hash data).length := by
  have hlong : ∀ length ∈ entropyLengths, 2 ≤ length := by decide
  obtain ⟨checksum, hchecksum, -⟩ := withChecksum_append hash h
  rw [hchecksum, List.length_append]
  exact Nat.le_add_right_of_le (hlong _ h)

theorem toMnemonic_entropy {data : Bytes} (h : data.length ∈ entropyLengths) :
    toMnemonic (c.withWords w) (some data) = some (some (sentence w (c.sha256 data) data).chars) := by
  rw [toMnemonic_withWords, mnemonicFromBytes_eq w (two_le_withChecksum _ h)]
  rfl

/-- The entropy is in front of what the words make. -/
theorem mnemonicToBytes_entropy (hash : Bytes) {data bytesOut : Bytes} (h : data.length ∈ entropyLengths)
    (hbuffer : (sentence w hash data).chars.length < bytesOut.length) :
    ∃ result, mnemonicToBytes search w (sentence w hash data).chars bytesOut =
        some (result, bytesNeeded w ((withChecksum hash data).length * 8 / 11)) ∧
      data.length ≤ result.length ∧ result.take data.length = data := by
  obtain ⟨checksum, hchecksum, htail⟩ := withChecksum_append hash h
  obtain ⟨result, hresult, hlength, hbits⟩ := mnemonicToBytes_sentence search w (two_le_withChecksum hash h) hbuffer
  have hcover := (count_of_entropy h).2
  rw [← htail, ← List.length_append, ← hchecksum] at hcover
  have hinside : data.length ≤ result.length := by
    have hfits := bytesNeeded_le w (withChecksum hash data)
    rw [bytesNeeded, bits_eq] at hfits
    change (sentenceOf (wordsOf w (withChecksum hash data))).length < bytesOut.length at hbuffer
    omega
  have hfront : (result.take data.length).length = data.length := by rw [List.length_take, Nat.min_eq_left hinside]
  refine ⟨result, hresult, hinside, eq_of_bitAt hfront fun pos hpos => ?_⟩
  rw [hfront] at hpos
  rw [bitAt_take result hpos, hbits pos (by omega), hchecksum, bitAt_append data checksum hpos]

theorem fromMnemonic_sentence {data : Bytes} (h : data.length ∈ entropyLengths) :
    fromMnemonic c search w (sentence w (c.sha256 data) data) = some (some data) := by
  obtain ⟨checksum, hchecksum, htail⟩ := withChecksum_append (c.sha256 data) h
  have hbuffer : (sentence w (c.sha256 data) data).chars.length <
      (List.replicate (sentence w (c.sha256 data) data).string.length (0x33 : UInt8)).length := by simp [CString.string]
  obtain ⟨result, hresult, hinside, htake⟩ := mnemonicToBytes_entropy (c.sha256 data) h hbuffer
  have hcount := (count_of_entropy h).1
  rw [← htail, ← List.length_append, ← hchecksum] at hcount
  rw [fromMnemonic, hresult]
  dsimp only
  rw [bytesNeeded, bits_eq, hcount, if_neg (Nat.not_lt.2 hinside), htake, toMnemonic_entropy h]
  exact if_pos rfl

/-- Every entropy of the seven lengths has a sentence, and comes back from it. -/
theorem mnemonic_restores (c : HdCrypto) (search : BinarySearch) (w : Wordlist) {data : Bytes} (h : data.length ∈ entropyLengths) :
    ∃ mnemonic : CString, toMnemonic (c.withWords w) (some data) = some (some mnemonic.chars) ∧
      fromMnemonic c search w mnemonic = some (some data) :=
  ⟨sentence w (c.sha256 data) data, toMnemonic_entropy h, fromMnemonic_sentence h⟩

/-! ## A word list -/

/-- Two characters, from "AA" on. -/
def numberWord (n : Nat) : Bytes := [UInt8.ofNat (0x41 + n / 64), UInt8.ofNat (0x41 + n % 64)]

theorem byte_toNat {n : Nat} (h : n < 64) : (UInt8.ofNat (0x41 + n)).toNat = 0x41 + n := by
  rw [UInt8.toNat_ofNat']
  omega

theorem numberWord_lt {i j : Nat} (hij : i < j) (hj : j < 2048) : strcmp (numberWord i) (numberWord j) < 0 := by
  have hi := @byte_toNat (i / 64) (by omega)
  have hj' := @byte_toNat (j / 64) (by omega)
  have hi2 := byte_toNat (Nat.mod_lt i (by decide : 0 < 64))
  have hj2 := byte_toNat (Nat.mod_lt j (by decide : 0 < 64))
  unfold strcmp KeysAndValues.defaultOrder numberWord
  simp only [dataCompare.go, ← UInt8.toNat_inj, hi, hj', hi2, hj2]
  split
  · split
    · omega
    · omega
  · omega

def numberWords : Wordlist where
  indices := (List.range 2048).map numberWord
  len := by simp
  sorted := by
    refine List.pairwise_map.2 (List.pairwise_lt_range.imp_of_mem fun {i j} _ hj hij => ?_)
    exact numberWord_lt hij (List.mem_range.1 hj)
  plain := by
    intro word hword
    obtain ⟨n, hn, rfl⟩ := List.mem_map.1 hword
    have hfirst := @byte_toNat (n / 64) (by have := List.mem_range.1 hn; omega)
    have hsecond := byte_toNat (Nat.mod_lt n (by decide : 0 < 64))
    simp only [numberWord, List.mem_cons, List.not_mem_nil, or_false, ← UInt8.toNat_inj, hfirst, hsecond]
    refine ⟨List.cons_ne_nil _ _, ?_, ?_⟩
    · change ¬(32 = _ ∨ 32 = _)
      omega
    · change ¬(0 = _ ∨ 0 = _)
      omega

/-- SHA-256 of 36 zero bytes. -/
def zerosHash : Bytes := [0x6d, 0xb6, 0x5f, 0xd5, 0x9f, 0xd3, 0x56, 0xf6, 0x72, 0x91, 0x40, 0x57, 0x1b, 0x5b, 0xcd, 0x6b,
  0xb3, 0xb8, 0x34, 0x92, 0xa1, 0x6e, 0x1b, 0xf0, 0xa3, 0x88, 0x44, 0x42, 0xfc, 0x3c, 0x8a, 0x0e]

def zerosCrypto : HdCrypto :=
  { logCrypto with toCrypto := { logKeys with sha256 := fun _ => zerosHash, sha256_length := fun _ => rfl } }

theorem mnemonic_restores_zeros :
    (List.replicate 36 (0 : UInt8)).length ∈ entropyLengths ∧
      ∃ mnemonic : CString, toMnemonic (zerosCrypto.withWords numberWords) (some (List.replicate 36 0)) = some (some mnemonic.chars) ∧
        fromMnemonic zerosCrypto .halving numberWords mnemonic = some (some (List.replicate 36 0)) :=
  ⟨by decide, mnemonic_restores zerosCrypto .halving numberWords (by decide)⟩

/-! ## Any string -/

/-- Nothing outside the buffer is copied, and what comes back has the string as its sentence. -/
def ReadsSafely (c : HdCrypto) (search : BinarySearch) (w : Wordlist) (mnemonic : CString) : Prop :=
  ∃ data, fromMnemonic c search w mnemonic = some data ∧
    ∀ bytes, data = some bytes → toMnemonic (c.withWords w) (some bytes) = some (some mnemonic.chars)

theorem splitOn_length (x : UInt8) (chars : Bytes) : (chars.splitOn x).length = chars.count x + 1 := by
  induction chars with
  | nil => rfl
  | cons first chars ih =>
    rw [List.splitOn_cons_eq_if_modifyHead]
    by_cases h : first = x
    · rw [h]
      simp [ih]
    · simp [h, ih]

theorem storeIndex_length (bits : Nat) (bytesOut : Bytes) (n value : Nat) :
    (storeIndex bits bytesOut n value).length = bytesOut.length := by
  refine foldl_inv (fun bytes : Bytes => bytes.length = bytesOut.length) rfl fun i _ bytes hlength => ?_
  split
  · rw [setBit_length, hlength]
  · exact hlength

theorem storeWords_length {words : List Bytes} {bytesOut result : Bytes} (h : storeWords search w words bytesOut = some result) :
    result.length = bytesOut.length := by
  refine foldlM_rule (fun _ (bytes : Bytes) => bytes.length = bytesOut.length) h rfl fun before x after _ bytes next hlength hnext => ?_
  dsimp only at hnext
  split at hnext
  · cases hnext
  · rw [← Option.some.inj hnext, storeIndex_length, hlength]

/-- What `mnemonic_to_bytes` promises of any string. -/
theorem mnemonicToBytes_spec (search : BinarySearch) (w : Wordlist) (mnemonic : Bytes) {bytesOut : Bytes} (hbytesOut : 0 < bytesOut.length) :
    match mnemonicToBytes search w mnemonic bytesOut with
    | none => bytesNeeded w (mnemonic.count 0x20 + 1) ≤ bytesOut.length
    | some (result, written) => written = bytesNeeded w (mnemonic.count 0x20 + 1) ∧ result.length = bytesOut.length := by
  unfold mnemonicToBytes
  dsimp only
  rw [splitOn_length, if_neg (by omega)]
  by_cases hshort : bytesOut.length < bytesNeeded w (mnemonic.count 0x20 + 1)
  · rw [if_pos hshort]
    exact ⟨rfl, rfl⟩
  · rw [if_neg hshort]
    cases hstore : storeWords search w (mnemonic.splitOn 0x20) (List.replicate bytesOut.length 0) with
    | none => exact Nat.le_of_not_lt hshort
    | some result => exact ⟨rfl, (storeWords_length hstore).trans (List.length_replicate ..)⟩

/-- The bytes of the words are counted down, the buffer is not looked at: it has to be as
    long as what is left. -/
theorem fromMnemonic_safe_iff (c : HdCrypto) (search : BinarySearch) (w : Wordlist) (mnemonic : CString) :
    ReadsSafely c search w mnemonic ↔
      let needed := (11 * (mnemonic.chars.count 0x20 + 1) + 7) / 8
      (if 33 < needed then needed - 2 else needed - 1) % 2 ^ 32 ≤ mnemonic.chars.length + 1 := by
  have hstring : mnemonic.string.length = mnemonic.chars.length + 1 := by simp [CString.string]
  have hspec := @mnemonicToBytes_spec search w mnemonic.chars (List.replicate mnemonic.string.length 0x33)
    (by rw [List.length_replicate, hstring]; exact Nat.succ_pos _)
  have hneeded : bytesNeeded w (mnemonic.chars.count 0x20 + 1) = (11 * (mnemonic.chars.count 0x20 + 1) + 7) / 8 := by
    rw [bytesNeeded, bits_eq, Nat.mul_comm]
  rw [List.length_replicate, hneeded] at hspec
  dsimp only
  rw [← hstring]
  generalize (11 * (mnemonic.chars.count 0x20 + 1) + 7) / 8 = needed at hspec ⊢
  unfold ReadsSafely fromMnemonic
  cases hresult : mnemonicToBytes search w mnemonic.chars (List.replicate mnemonic.string.length 0x33) with
  | none =>
    rw [hresult] at hspec
    refine iff_of_true ⟨none, rfl, fun _ hbytes => absurd hbytes (Option.some_ne_none _).symm⟩
      (Nat.le_trans (Nat.mod_le _ _) (Nat.le_trans ?_ hspec))
    split <;> exact Nat.sub_le _ _
  | some made =>
    obtain ⟨result, written⟩ := made
    rw [hresult] at hspec
    obtain ⟨rfl, hlength⟩ := hspec
    have hcount : (if 32 < written - 1 then written - 1 - 1 else written - 1) = if 33 < written then written - 2 else written - 1 := by
      split <;> split <;> omega
    dsimp only
    rw [hcount, hlength]
    generalize (if 33 < written then written - 2 else written - 1) % 2 ^ 32 = length
    by_cases houtside : mnemonic.string.length < length
    · rw [if_pos houtside]
      refine iff_of_false ?_ (Nat.not_le.2 houtside)
      rintro ⟨_, hnone, -⟩
      cases hnone
    · rw [if_neg houtside, toMnemonic_withWords]
      refine iff_of_true ?_ (Nat.le_of_not_lt houtside)
      dsimp only
      split
      · rename_i hsame
        refine ⟨_, rfl, fun bytes hbytes => ?_⟩
        rw [← Option.some.inj hbytes, toMnemonic_withWords, hsame]
      · exact ⟨none, rfl, fun _ hbytes => absurd hbytes (Option.some_ne_none _).symm⟩

def twoSpaces : CString := ⟨[0x20, 0x20], by decide⟩

/-- Three words of no characters are five bytes: four are copied from three. -/
theorem not_fromMnemonic_safe : ¬ ReadsSafely logCrypto .halving numberWords twoSpaces := by
  have hresult : mnemonicToBytes .halving numberWords twoSpaces.chars (List.replicate twoSpaces.string.length 0x33) =
      some ([0x33, 0x33, 0x33], 5) := by
    rw [mnemonicToBytes, bytesNeeded, bits_eq]
    rfl
  have houtside : fromMnemonic logCrypto .halving numberWords twoSpaces = none := by
    rw [fromMnemonic, hresult]
    rfl
  rintro ⟨data, hdata, -⟩
  rw [houtside] at hdata
  cases hdata

end BitcoinSpoon
