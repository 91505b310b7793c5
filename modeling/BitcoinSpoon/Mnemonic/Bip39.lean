/-
  BitcoinSpoon.Mnemonic.Bip39 — the sentence against BIP39 (`code/BTCUtil.c`).

  BIP39 appends the first bits of the hash to the entropy, one for every 32, and cuts the
  row into groups of 11. `toMnemonic` takes the bits from the first byte of the hash, whose
  sign a `char` extends, and uses it again for the second: up to 32 bytes nothing more is
  needed, while for 36 and 40 bytes the ninth and tenth bit are the sentence's only if the
  hash happens to have them so (`toMnemonic_bip39_iff`).
-/

import BitcoinSpoon.Mnemonic.Restore

namespace BitcoinSpoon

open Wire Loop Strings

/-! ## BIP39 -/

/-- The highest bit of a byte is first. -/
def bitsOf (bytes : Bytes) : List Bool := bytes.flatMap fun byte => (List.range 8).map fun i => byte.toNat.testBit (7 - i)

def groupWords (w : Wordlist) (bits : List Bool) : List Bytes := (groups 11 bits).map fun group => wordAt w (bitsValue group)

def bip39Words (w : Wordlist) (hash data : Bytes) : List Bytes :=
  groupWords w (bitsOf data ++ (bitsOf hash).take (8 * data.length / 32))

theorem plain_of_group {w : Wordlist} {bits : List Bool} {word : Bytes} (h : word ∈ groupWords w bits) :
    word ≠ [] ∧ 0x20 ∉ word ∧ 0 ∉ word := by
  obtain ⟨group, hgroup, rfl⟩ := List.mem_map.1 h
  have hlt := bitsValue_lt group
  rw [length_of_mem_groups hgroup] at hlt
  exact w.plain _ (wordAt_mem w hlt)

def bip39Sentence (w : Wordlist) (hash data : Bytes) : CString where
  chars := sentenceOf (bip39Words w hash data)
  noNul := sentenceOf_noNul fun _ hword => (plain_of_group hword).2.2

/-- The words are those of BIP39, and its sentence is read back. -/
def FollowsBip39 (c : HdCrypto) (search : BinarySearch) (w : Wordlist) (data : Bytes) : Prop :=
  (∃ chars, toMnemonic (c.withWords w) (some data) = some (some chars) ∧
    chars.splitOn 0x20 = bip39Words w (c.sha256 data) data) ∧
  fromMnemonic c search w (bip39Sentence w (c.sha256 data) data) = some (some data)

variable {c : HdCrypto} {search : BinarySearch} {w : Wordlist}

/-! ## Words and bits -/

theorem bitAt_eq (bytes : Bytes) (pos : Nat) : bitAt bytes pos = (bytes.getD (pos / 8) 0).toNat.testBit (7 - pos % 8) := by
  rw [bitAt, hasBit, bitNumber_div, show bitNumber pos % 8 = 7 - pos % 8 by unfold bitNumber; omega]

theorem bitsOf_eq (bytes : Bytes) : bitsOf bytes = (List.range (8 * bytes.length)).map (bitAt bytes) := by
  induction bytes with
  | nil => rfl
  | cons byte bytes ih =>
    rw [bitsOf, List.flatMap_cons, ← bitsOf, ih, List.length_cons, Nat.mul_succ, Nat.add_comm, List.range_add, List.map_append,
      List.map_map]
    congr 1
    refine List.map_congr_left fun i _ => ?_
    rw [Function.comp_apply, bitAt_eq, bitAt_eq, Nat.add_div_left _ (by decide), Nat.add_mod_left, List.getD_cons_succ]

theorem bitsOf_length (bytes : Bytes) : (bitsOf bytes).length = 8 * bytes.length := by simp [bitsOf_eq]

theorem bitsOf_append (a b : Bytes) : bitsOf (a ++ b) = bitsOf a ++ bitsOf b := by simp [bitsOf]

theorem take_bitsOf {bytes : Bytes} {count : Nat} (h : count ≤ 8 * bytes.length) :
    (bitsOf bytes).take count = (List.range count).map (bitAt bytes) := by
  rw [bitsOf_eq, ← List.map_take, List.take_range, Nat.min_eq_left h]

theorem slice_range {α : Type} (f : Nat → α) {m start width : Nat} (h : start + width ≤ m) :
    (((List.range m).map f).drop start).take width = (List.range width).map fun i => f (start + i) := by
  refine List.ext_getElem (by simp; omega) fun i hi hi' => ?_
  simp

/-- The words of the bytes are those of the groups of their bits. -/
theorem wordsOf_groups (w : Wordlist) (bytes : Bytes) : wordsOf w bytes = groupWords w (bitsOf bytes) := by
  rw [wordsOf_eq, indexesOf, groupWords, groups, bitsOf_length, List.map_map, List.map_map, Nat.mul_comm]
  refine List.map_congr_left fun n hn => ?_
  have hcover : (n + 1) * 11 ≤ 8 * bytes.length / 11 * 11 := Nat.mul_le_mul_right _ (List.mem_range.1 hn)
  rw [Function.comp_apply, Function.comp_apply, extractIndex_eq, bitsOf_eq, slice_range _ (by omega)]

theorem groupWords_inj (w : Wordlist) {bits bits' : List Bool} (hcount : bits.length / 11 = bits'.length / 11) :
    groupWords w bits = groupWords w bits' ↔ bits.take (bits.length / 11 * 11) = bits'.take (bits.length / 11 * 11) := by
  rw [← groups_eq_iff hcount]
  constructor
  · intro h
    refine List.ext_getElem (by rw [groups_length, groups_length, hcount]) fun n hn hn' => ?_
    have hword := congrArg (fun words => words[n]?) h
    simp only [groupWords, List.getElem?_map, List.getElem?_eq_getElem hn, List.getElem?_eq_getElem hn', Option.map_some,
      Option.some.injEq] at hword
    have hlength := length_of_mem_groups (List.getElem_mem hn)
    have hlength' := length_of_mem_groups (List.getElem_mem hn')
    have hlt := bitsValue_lt (groups 11 bits)[n]
    have hlt' := bitsValue_lt (groups 11 bits')[n]
    rw [hlength] at hlt
    rw [hlength'] at hlt'
    exact bitsValue_inj (hlength.trans hlength'.symm) (wordAt_inj w hlt hlt' hword)
  · intro h
    rw [groupWords, h, groupWords]

/-! ## The checksum -/

/-- The bits of the checksum that make words are those of BIP39. -/
theorem words_iff (w : Wordlist) {hash data checksum : Bytes} {count : Nat} (hcount : count ≤ 8 * checksum.length)
    (hhash : count ≤ 8 * hash.length) (hcover : (8 * data.length + 8 * checksum.length) / 11 * 11 = 8 * data.length + count) :
    wordsOf w (data ++ checksum) = groupWords w (bitsOf data ++ (bitsOf hash).take count) ↔
      ∀ i, i < count → bitAt checksum i = bitAt hash i := by
  have hlength : (bitsOf (data ++ checksum)).length = 8 * data.length + 8 * checksum.length := by
    rw [bitsOf_length, List.length_append, Nat.mul_add]
  have hbits : (bitsOf data ++ (bitsOf hash).take count).length = 8 * data.length + count := by
    rw [List.length_append, List.length_take, bitsOf_length, bitsOf_length, Nat.min_eq_left hhash]
  rw [wordsOf_groups, groupWords_inj w (by rw [hlength, hbits]; omega), hlength, hcover, bitsOf_append, ← bitsOf_length data,
    List.take_length_add_append, List.take_length_add_append, List.take_take, Nat.min_self, List.append_cancel_left_eq,
    take_bitsOf hcount, take_bitsOf hhash, List.map_inj_left]
  simp only [List.mem_range]

theorem testBit_sign (byte : UInt8) : byte.toNat.testBit 7 = decide (0x80 ≤ byte.toNat) := by
  have hbyte := UInt8.toNat_lt byte
  rw [Nat.testBit_eq_decide_div_mod_eq]
  refine decide_eq_decide.2 ?_
  omega

/-- The first character of the hash, its sign extended to the left. -/
theorem testBit_first (byte : UInt8) {j : Nat} (hj : j < 16) :
    (if 0x80 ≤ byte.toNat then 0xff00 + byte.toNat else byte.toNat).testBit j = byte.toNat.testBit (min j 7) := by
  have hbyte : byte.toNat < 2 ^ 8 := UInt8.toNat_lt byte
  rcases Nat.lt_or_ge j 8 with hlow | hhigh
  · rw [Nat.min_eq_left (by omega)]
    split
    · rw [show (0xff00 : Nat) = 0xff <<< 8 from rfl, Nat.shiftLeft_add_eq_or_of_lt hbyte, Nat.testBit_or, Nat.testBit_shiftLeft,
        decide_eq_false (Nat.not_le.2 hlow), Bool.false_and, Bool.false_or]
    · rfl
  · rw [Nat.min_eq_right (by omega), testBit_sign]
    split
    · rename_i hsign
      rw [show (0xff00 : Nat) = (2 ^ 8 - 1) <<< 8 from rfl, Nat.shiftLeft_add_eq_or_of_lt hbyte, Nat.testBit_or, Nat.testBit_shiftLeft,
        Nat.testBit_two_pow_sub_one, decide_eq_true hhigh, decide_eq_true (by omega), decide_eq_true hsign]
      rfl
    · rename_i hsign
      rw [decide_eq_false hsign, Nat.testBit_lt_two_pow (Nat.lt_of_lt_of_le hbyte (Nat.pow_le_pow_right (by decide) hhigh))]

theorem testBit_checksum (hash : Bytes) {mask j : Nat} (hj : j < 16) :
    (checksumOf hash mask).testBit j =
      (((hash.headD 0).toNat.testBit (min j 7) || (decide (8 ≤ j) && (hash.headD 0).toNat.testBit (j - 8))) && mask.testBit j) := by
  unfold checksumOf
  dsimp only
  rw [Nat.testBit_and, Nat.testBit_or, Nat.testBit_shiftLeft, testBit_first _ hj, testBit_first _ (by omega),
    Nat.min_eq_left (by omega : j - 8 ≤ 7)]

theorem testBit_uint8 (n : Nat) {j : Nat} (hj : j < 8) : (UInt8.ofNat (n &&& 0xff)).toNat.testBit j = n.testBit j := by
  rw [UInt8.toNat_ofNat', Nat.testBit_mod_two_pow, decide_eq_true hj, Bool.true_and, Nat.testBit_and,
    show (0xff : Nat) = 2 ^ 8 - 1 from rfl, Nat.testBit_two_pow_sub_one, decide_eq_true hj, Bool.and_true]

/-- A bit of the first byte of the hash. -/
theorem testBit_headD (hash : Bytes) {i : Nat} (hi : i < 8) : (hash.headD 0).toNat.testBit (7 - i) = bitAt hash i := by
  rw [bitAt_eq, Nat.div_eq_of_lt hi, Nat.mod_eq_of_lt hi]
  cases hash <;> rfl

/-- The bits behind the entropy, as many as BIP39 has there. -/
theorem bitAt_checksum (hash : Bytes) {data checksum : Bytes} (h : data.length ∈ entropyLengths)
    (hchecksum : withChecksum hash data = data ++ checksum) {i : Nat} (hi : i < 8 * data.length / 32) :
    bitAt checksum i = if i < 8 then bitAt hash i else bitAt hash 0 || bitAt hash (i - 8) := by
  have hmask : ∀ length ∈ entropyLengths, ∀ i < 8 * length / 32, i < 10 ∧
      (if i < 8 then (lenToMask length).testBit (7 - i) = true else 0xff < lenToMask length ∧ (lenToMask length).testBit (23 - i) = true) := by
    decide
  obtain ⟨hten, hbit⟩ := hmask _ h i hi
  unfold withChecksum at hchecksum
  dsimp only at hchecksum
  rw [bitAt_eq]
  by_cases hfirst : i < 8
  · rw [if_pos hfirst] at hbit ⊢
    have hhead : checksum.getD 0 0 = UInt8.ofNat (checksumOf hash (lenToMask data.length) &&& 0xff) := by
      split at hchecksum
      · rw [List.append_assoc, List.append_cancel_left_eq] at hchecksum
        rw [← hchecksum]
        rfl
      · rw [List.append_cancel_left_eq] at hchecksum
        rw [← hchecksum]
        rfl
    rw [Nat.div_eq_of_lt hfirst, Nat.mod_eq_of_lt hfirst, hhead, testBit_uint8 _ (by omega), testBit_checksum _ (by omega), hbit,
      Bool.and_true, Nat.min_eq_left (by omega), decide_eq_false (by omega), Bool.false_and, Bool.or_false, testBit_headD hash hfirst]
  · rw [if_neg hfirst] at hbit ⊢
    obtain ⟨hlong, hbit⟩ := hbit
    rw [if_pos hlong, List.append_assoc, List.append_cancel_left_eq] at hchecksum
    rw [← hchecksum, Nat.div_eq_of_lt_le (show 1 * 8 ≤ i by omega) (by omega)]
    change (UInt8.ofNat _).toNat.testBit _ = _
    rw [testBit_uint8 _ (by omega), Nat.testBit_shiftRight, testBit_checksum _ (by omega), show 8 + (7 - i % 8) = 23 - i by omega, hbit,
      Bool.and_true, Nat.min_eq_right (by omega), decide_eq_true (by omega), Bool.true_and,
      show 23 - i - 8 = 7 - (i - 8) by omega, testBit_headD hash (by omega : i - 8 < 8), show 7 = 7 - 0 from rfl, testBit_headD hash (by decide)]

theorem words_agree_iff (w : Wordlist) {hash data : Bytes} (h : data.length ∈ entropyLengths) (hhash : hash.length = 32) :
    wordsOf w (withChecksum hash data) = bip39Words w hash data ↔
      (32 < data.length → bitAt hash 8 = bitAt hash 0) ∧ (data.length = 40 → bitAt hash 9 = (bitAt hash 0 || bitAt hash 1)) := by
  obtain ⟨checksum, hchecksum, hlength⟩ := withChecksum_append hash h
  have hshape : ∀ length ∈ entropyLengths, let count := 8 * length / 32
      let size := if 32 < length then 2 else 1
      count ≤ 8 * size ∧ count ≤ 8 * 32 ∧ (8 * length + 8 * size) / 11 * 11 = 8 * length + count ∧
        count < 11 ∧ (8 < count ↔ 32 < length) ∧ (9 < count ↔ length = 40) := by
    decide
  obtain ⟨hcount, hcount', hcover, hsmall, hnine, hten⟩ := hshape _ h
  rw [← hlength] at hcount hcover
  rw [hchecksum, bip39Words, words_iff w hcount (by rwa [hhash]) hcover, ← hnine, ← hten]
  constructor
  · intro hall
    refine ⟨fun h8 => ?_, fun h9 => ?_⟩
    · rw [← hall 8 h8, bitAt_checksum hash h hchecksum h8, if_neg (by decide), Nat.sub_self, Bool.or_self]
    · rw [← hall 9 h9, bitAt_checksum hash h hchecksum h9, if_neg (by decide)]
  · rintro ⟨heighth, hninth⟩ i hi
    rw [bitAt_checksum hash h hchecksum hi]
    split
    · rfl
    · obtain rfl | rfl : i = 8 ∨ i = 9 := by omega
      · rw [heighth hi, Nat.sub_self, Bool.or_self]
      · exact (hninth hi).symm

theorem follows_iff_words {data : Bytes} (h : data.length ∈ entropyLengths) :
    FollowsBip39 c search w data ↔ wordsOf w (withChecksum (c.sha256 data) data) = bip39Words w (c.sha256 data) data := by
  have hne : wordsOf w (withChecksum (c.sha256 data) data) ≠ [] := by
    rw [← List.length_pos_iff, wordsOf_length]
    have htwo := two_le_withChecksum (c.sha256 data) h
    omega
  have hsplit : (sentence w (c.sha256 data) data).chars.splitOn 0x20 = wordsOf w (withChecksum (c.sha256 data) data) :=
    splitOn_sentenceOf hne fun word hword => (plain_of_mem hword).2.1
  constructor
  · rintro ⟨⟨chars, hchars, hwords⟩, -⟩
    rw [toMnemonic_entropy h] at hchars
    rw [← hwords, ← Option.some.inj (Option.some.inj hchars), hsplit]
  · intro hwords
    have hsame : bip39Sentence w (c.sha256 data) data = sentence w (c.sha256 data) data := by
      unfold bip39Sentence sentence
      simp only [hwords]
    refine ⟨⟨_, toMnemonic_entropy h, hsplit.trans hwords⟩, ?_⟩
    rw [hsame, fromMnemonic_sentence h]

/-- The sentence is that of BIP39 when the bits it would take from the second byte of the hash
    are those the sign of the first byte leaves there. -/
theorem toMnemonic_bip39_iff (c : HdCrypto) (search : BinarySearch) (w : Wordlist) {data : Bytes} (h : data.length ∈ entropyLengths) :
    FollowsBip39 c search w data ↔ (32 < data.length → bitAt (c.sha256 data) 8 = bitAt (c.sha256 data) 0) ∧
      (data.length = 40 → bitAt (c.sha256 data) 9 = (bitAt (c.sha256 data) 0 || bitAt (c.sha256 data) 1)) :=
  (follows_iff_words h).trans (words_agree_iff w h (c.sha256_length data))

theorem toMnemonic_bip39_zeros : (List.replicate 36 (0 : UInt8)).length ∈ entropyLengths ∧
    (FollowsBip39 zerosCrypto .halving numberWords (List.replicate 36 0) ↔
      (32 < (List.replicate 36 (0 : UInt8)).length →
        bitAt (zerosCrypto.sha256 (List.replicate 36 0)) 8 = bitAt (zerosCrypto.sha256 (List.replicate 36 0)) 0) ∧
      ((List.replicate 36 (0 : UInt8)).length = 40 → bitAt (zerosCrypto.sha256 (List.replicate 36 0)) 9 =
        (bitAt (zerosCrypto.sha256 (List.replicate 36 0)) 0 || bitAt (zerosCrypto.sha256 (List.replicate 36 0)) 1))) :=
  ⟨by decide, toMnemonic_bip39_iff zerosCrypto .halving numberWords (by decide)⟩

/-- The hash starts with 6d b6: its ninth bit is set and its first is not. -/
theorem not_toMnemonic_bip39 : ¬ FollowsBip39 zerosCrypto .halving numberWords (List.replicate 36 0) := by
  have hlength : (List.replicate 36 (0 : UInt8)).length ∈ entropyLengths := by decide
  rw [follows_iff_words hlength, words_agree_iff numberWords hlength rfl]
  rintro ⟨heighth, -⟩
  have hbit : bitAt zerosHash 8 = bitAt zerosHash 0 := heighth (by decide)
  revert hbit
  decide

end BitcoinSpoon
