/-
  BitcoinSpoon.Mnemonic.Packing — word lists and their 11-bit numbers
  (`libraries/mnemonic`).

  A sentence is the words of the numbers that its bytes are read as, the highest bit first.
  A word is looked up again by binary search (`wordlistLookupWord_get`), and storing the
  numbers one behind the other leaves the bits they were read from (`storeWords_bits`), so
  `mnemonic_to_bytes` undoes `mnemonic_from_bytes` up to bits that make no word
  (`mnemonicToBytes_sentence`).
-/

import BitcoinSpoon.Util.Dictionary
import BitcoinSpoon.Util.Membership
import BitcoinSpoon.Wire.Bits

namespace BitcoinSpoon

open Wire Loop

/-! ## Bits -/

/-- The bit that `U8_MASK(pos)` tests in `U8_AT(bytes, pos)`. -/
def bitNumber (pos : Nat) : Nat := 8 * (pos / 8) + (7 - pos % 8)

def bitAt (bytes : Bytes) (pos : Nat) : Bool := hasBit bytes (bitNumber pos)

def extractIndex (bits : Nat) (bytes : Bytes) (n : Nat) : Nat :=
  (List.range bits).foldl (fun value i => value <<< 1 ||| (bitAt bytes (n * bits + i)).toNat) 0

def storeIndex (bits : Nat) (bytesOut : Bytes) (n value : Nat) : Bytes :=
  (List.range bits).foldl
    (fun bytesOut i => if value.testBit (bits - i - 1) then setBit bytesOut (bitNumber (n * bits + i)) else bytesOut)
    bytesOut

/-! ## Words -/

/-- `strcmp`, on the characters before the NUL: a NUL is less than any of them. -/
def strcmp (a b : Bytes) : Int := KeysAndValues.defaultOrder.compare a b

/-- `struct words` for the list of the language. -/
structure Wordlist where
  indices : List Bytes
  len : indices.length = 2048
  sorted : indices.Pairwise fun a b => strcmp a b < 0
  plain : ∀ word ∈ indices, word ≠ [] ∧ 0x20 ∉ word ∧ 0 ∉ word

/-- `get_bits`. -/
def Wordlist.bits (w : Wordlist) : Nat := Nat.log2 w.indices.length

variable (search : BinarySearch) (w : Wordlist)

def wordAt (index : Nat) : Bytes := w.indices.getD index []

/-- 0 if it is not there. -/
def wordlistLookupWord (word : Bytes) : Nat :=
  match (bsearch search (fun i => strcmp word (wordAt w i)) w.indices.length).found with
  | some found => found + 1
  | none => 0

def wordsOf (bytes : Bytes) : List Bytes :=
  (List.range (bytes.length * 8 / w.bits)).map fun i => wordAt w (extractIndex w.bits bytes i)

/-- The characters of the string, or NULL. The last separator becomes its NUL. -/
def mnemonicFromBytes (bytes : Bytes) : Data :=
  if wordsOf w bytes = [] then none else some ((wordsOf w bytes).flatMap (· ++ [0x20])).dropLast

/-- The loop of `mnemonic_to_bytes`. -/
def storeWords (words : List Bytes) (bytesOut : Bytes) : Option Bytes :=
  words.zipIdx.foldlM
    (fun bytesOut (word, i) =>
      let idx := wordlistLookupWord search w word
      if idx = 0 then none else some (storeIndex w.bits bytesOut i (idx - 1)))
    bytesOut

/-- The bytes a number of words takes. -/
def bytesNeeded (words : Nat) : Nat := (words * w.bits + 7) / 8

/-- The buffer after the call and `written`; `none` where it does not return 0. A buffer that is
    too short is left as it is, and `written` is what it would have to be. -/
def mnemonicToBytes (mnemonic bytesOut : Bytes) : Option (Bytes × Nat) :=
  let mnemonicW := mnemonic.splitOn 0x20
  if bytesOut.length = 0 then none
  else if bytesOut.length < bytesNeeded w mnemonicW.length then some (bytesOut, bytesNeeded w mnemonicW.length)
  else (storeWords search w mnemonicW (List.replicate bytesOut.length 0)).map fun bytes =>
    (bytes, bytesNeeded w mnemonicW.length)

variable {search w}

@[simp] theorem bits_eq (w : Wordlist) : w.bits = 11 := by
  rw [Wordlist.bits, w.len]
  decide

/-! ## Reading and writing bits -/

theorem bitNumber_div (pos : Nat) : bitNumber pos / 8 = pos / 8 := by
  unfold bitNumber
  omega

theorem bitNumber_bitNumber (pos : Nat) : bitNumber (bitNumber pos) = pos := by
  unfold bitNumber
  omega

theorem bitNumber_inj {a b : Nat} : bitNumber a = bitNumber b ↔ a = b := by
  constructor
  · intro h
    rw [← bitNumber_bitNumber a, h, bitNumber_bitNumber]
  · exact congrArg bitNumber

/-- Bytes of one length with the same bits are the same. -/
theorem eq_of_bitAt {a b : Bytes} (hlength : a.length = b.length) (h : ∀ pos, pos < 8 * a.length → bitAt a pos = bitAt b pos) :
    a = b := by
  refine eq_of_hasBit hlength fun number => ?_
  by_cases hnumber : number / 8 < a.length
  · have hpos := h (bitNumber number) (by unfold bitNumber; omega)
    rwa [bitAt, bitAt, bitNumber_bitNumber] at hpos
  · have hout : ∀ bytes : Bytes, bytes.length = a.length → hasBit bytes number = false := by
      intro bytes hbytes
      unfold hasBit
      rw [List.getD_eq_default _ _ (by omega)]
      simp
    rw [hout a rfl, hout b hlength.symm]

theorem extractIndex_eq (bits : Nat) (bytes : Bytes) (n : Nat) :
    extractIndex bits bytes n = bitsValue ((List.range bits).map fun i => bitAt bytes (n * bits + i)) := by
  rw [extractIndex, bitsValue, List.foldl_map]

theorem extractIndex_lt (bits : Nat) (bytes : Bytes) (n : Nat) : extractIndex bits bytes n < 2 ^ bits := by
  have hlt := bitsValue_lt ((List.range bits).map fun i => bitAt bytes (n * bits + i))
  rwa [List.length_map, List.length_range, ← extractIndex_eq] at hlt

/-- The bit that `store_index` looks at is the one that was read. -/
theorem testBit_extractIndex {bits i : Nat} (hi : i < bits) (bytes : Bytes) (n : Nat) :
    (extractIndex bits bytes n).testBit (bits - i - 1) = bitAt bytes (n * bits + i) := by
  rw [extractIndex_eq, testBit_bitsValue, List.getD_eq_getElem?_getD, List.getElem?_reverse (by simp; omega)]
  simp only [List.length_map, List.length_range]
  rw [show bits - 1 - (bits - i - 1) = i by omega, List.getElem?_map, List.getElem?_range hi]
  rfl

/-- Storing sets the bits of the number behind the first `n`. -/
theorem storeIndex_bits {bits n : Nat} {bytesOut : Bytes} (hfits : (n + 1) * bits ≤ 8 * bytesOut.length) (value : Nat) :
    (storeIndex bits bytesOut n value).length = bytesOut.length ∧
      ∀ pos, bitAt (storeIndex bits bytesOut n value) pos = true ↔ bitAt bytesOut pos = true ∨
        ∃ i, i < bits ∧ pos = n * bits + i ∧ value.testBit (bits - i - 1) = true := by
  unfold storeIndex
  have hrule := foldl_rule (fun (before : List Nat) (bytes : Bytes) => bytes.length = bytesOut.length ∧
      ∀ pos, bitAt bytes pos = true ↔ bitAt bytesOut pos = true ∨
        ∃ i ∈ before, pos = n * bits + i ∧ value.testBit (bits - i - 1) = true)
    (l := List.range bits)
    (f := fun bytesOut i => if value.testBit (bits - i - 1) then setBit bytesOut (bitNumber (n * bits + i)) else bytesOut)
    (s := bytesOut) ⟨rfl, by simp⟩
    (by
      rintro before i after hsplit bytes ⟨hlength, hiff⟩
      have hi : i < bits := List.mem_range.1 (by rw [hsplit]; simp)
      rw [Nat.succ_mul] at hfits
      by_cases hbit : value.testBit (bits - i - 1) = true
      · rw [if_pos hbit]
        refine ⟨by rw [setBit_length, hlength], fun pos => ?_⟩
        have hin : bitNumber (n * bits + i) / 8 < bytes.length := by
          rw [bitNumber_div]
          omega
        rw [bitAt, hasBit_setBit_iff hin, bitNumber_inj]
        change bitAt bytes pos = true ∨ _ ↔ _
        rw [hiff]
        simp only [List.mem_append, List.mem_singleton, or_and_right, exists_or, or_assoc, exists_eq_left, hbit, and_true]
      · rw [if_neg hbit]
        refine ⟨hlength, fun pos => ?_⟩
        rw [hiff]
        simp only [List.mem_append, List.mem_singleton, or_and_right, exists_or, exists_eq_left, hbit, and_false, or_false,
          Bool.false_eq_true])
  refine ⟨hrule.1, fun pos => (hrule.2 pos).trans ?_⟩
  simp only [List.mem_range]

/-! ## Looking words up -/

theorem wordAt_mem (w : Wordlist) {index : Nat} (h : index < 2048) : wordAt w index ∈ w.indices := by
  have hlt : index < w.indices.length := w.len.symm ▸ h
  rw [wordAt, List.getD_eq_getElem _ _ hlt]
  exact List.getElem_mem hlt

theorem wordAt_lt (w : Wordlist) {i j : Nat} (hij : i < j) (hj : j < 2048) : strcmp (wordAt w i) (wordAt w j) < 0 := by
  have hj' : j < w.indices.length := w.len.symm ▸ hj
  have hi' := Nat.lt_trans hij hj'
  rw [wordAt, wordAt, List.getD_eq_getElem _ _ hi', List.getD_eq_getElem _ _ hj']
  exact List.pairwise_iff_getElem.1 w.sorted i j hi' hj' hij

theorem wordAt_inj (w : Wordlist) {i j : Nat} (hi : i < 2048) (hj : j < 2048) (h : wordAt w i = wordAt w j) : i = j := by
  rcases Nat.lt_trichotomy i j with hlt | heq | hlt
  · exact absurd h (KeysAndValues.defaultOrder.ne_of_lt (wordAt_lt w hlt hj))
  · exact heq
  · exact absurd h.symm (KeysAndValues.defaultOrder.ne_of_lt (wordAt_lt w hlt hi))

theorem signs_of_word (w : Wordlist) (word : Bytes) : SignsFall (fun i => strcmp word (wordAt w i)) w.indices.length := by
  intro i j hij hj hle
  have hlt := wordAt_lt w hij (w.len ▸ hj)
  rcases Int.lt_or_eq_of_le hle with hneg | hzero
  · exact KeysAndValues.defaultOrder.trans _ _ _ hneg hlt
  · rw [(KeysAndValues.defaultOrder.eq_iff _ _).1 hzero]
    exact hlt

/-- A word of the list is found where it is. -/
theorem wordlistLookupWord_get (search : BinarySearch) (w : Wordlist) {index : Nat} (h : index < 2048) :
    wordlistLookupWord search w (wordAt w index) = index + 1 := by
  have hself : strcmp (wordAt w index) (wordAt w index) = 0 := KeysAndValues.defaultOrder.self _
  unfold wordlistLookupWord
  cases hfound : (bsearch search (fun i => strcmp (wordAt w index) (wordAt w i)) w.indices.length).found with
  | some found =>
    obtain ⟨hlt, hzero, -⟩ := bsearch_found hfound
    have hsame := (KeysAndValues.defaultOrder.eq_iff _ _).1 hzero
    exact congrArg Nat.succ (wordAt_inj w (w.len ▸ hlt) h hsame.symm)
  | none =>
    obtain ⟨-, hbelow, habove⟩ := bsearch_missing (signs_of_word w _) hfound
    rcases Nat.lt_or_ge index (bsearch search (fun i => strcmp (wordAt w index) (wordAt w i)) w.indices.length).place with hlt | hge
    · have hsign := hbelow index hlt
      omega
    · have hsign := habove index hge (w.len.symm ▸ h)
      omega

/-! ## A sentence -/

/-- The numbers of the words are stored one behind the other. -/
theorem storeWords_bits (search : BinarySearch) (w : Wordlist) {numbers : List Nat} (hnumbers : ∀ value ∈ numbers, value < 2048) (k : Nat)
    {bytesOut : Bytes} (hfits : (k + numbers.length) * 11 ≤ 8 * bytesOut.length) :
    ∃ bytes, ((numbers.map (wordAt w)).zipIdx k).foldlM
        (fun bytesOut (word, i) =>
          let idx := wordlistLookupWord search w word
          if idx = 0 then none else some (storeIndex w.bits bytesOut i (idx - 1)))
        bytesOut = some bytes ∧ bytes.length = bytesOut.length ∧
      ∀ pos, bitAt bytes pos = true ↔ bitAt bytesOut pos = true ∨
        ∃ n value i, numbers[n]? = some value ∧ i < 11 ∧ pos = (k + n) * 11 + i ∧ value.testBit (11 - i - 1) = true := by
  induction numbers generalizing k bytesOut with
  | nil => exact ⟨bytesOut, rfl, rfl, by simp⟩
  | cons value numbers ih =>
    have hvalue := hnumbers value List.mem_cons_self
    rw [List.length_cons] at hfits
    obtain ⟨hlength, hbits⟩ := @storeIndex_bits 11 k bytesOut (by omega) value
    have hfits' : (k + 1 + numbers.length) * 11 ≤ 8 * (storeIndex 11 bytesOut k value).length := by omega
    obtain ⟨bytes, hrest, hlength', hbits'⟩ := ih (fun v hv => hnumbers v (List.mem_cons_of_mem _ hv)) (k + 1) hfits'
    refine ⟨bytes, ?_, hlength'.trans hlength, fun pos => ?_⟩
    · rw [List.map_cons, List.zipIdx_cons, List.foldlM_cons]
      dsimp only
      rw [wordlistLookupWord_get search w hvalue, if_neg (Nat.succ_ne_zero value), Nat.add_sub_cancel, bits_eq]
      rw [bits_eq] at hrest
      exact hrest
    · rw [hbits', hbits]
      constructor
      · rintro ((hold | ⟨i, hi, hpos, hbit⟩) | ⟨n, v, i, hn, hi, hpos, hbit⟩)
        · exact .inl hold
        · exact .inr ⟨0, value, i, rfl, hi, hpos, hbit⟩
        · exact .inr ⟨n + 1, v, i, hn, hi, by omega, hbit⟩
      · rintro (hold | ⟨n, v, i, hn, hi, hpos, hbit⟩)
        · exact .inl (.inl hold)
        · cases n with
          | zero =>
            cases hn
            exact .inl (.inr ⟨i, hi, hpos, hbit⟩)
          | succ n => exact .inr ⟨n, v, i, hn, hi, by omega, hbit⟩

/-- The numbers of the words of a byte string. -/
def indexesOf (bytes : Bytes) : List Nat := (List.range (bytes.length * 8 / 11)).map (extractIndex 11 bytes)

theorem wordsOf_eq (w : Wordlist) (bytes : Bytes) : wordsOf w bytes = (indexesOf bytes).map (wordAt w) := by
  rw [wordsOf, indexesOf, bits_eq, List.map_map]
  rfl

theorem indexesOf_lt {bytes : Bytes} {index : Nat} (h : index ∈ indexesOf bytes) : index < 2048 := by
  obtain ⟨n, -, rfl⟩ := List.mem_map.1 h
  exact extractIndex_lt 11 bytes n

theorem plain_of_mem {bytes word : Bytes} (h : word ∈ wordsOf w bytes) : word ≠ [] ∧ 0x20 ∉ word ∧ 0 ∉ word := by
  rw [wordsOf_eq] at h
  obtain ⟨index, hindex, rfl⟩ := List.mem_map.1 h
  exact w.plain _ (wordAt_mem w (indexesOf_lt hindex))

theorem wordsOf_length (w : Wordlist) (bytes : Bytes) : (wordsOf w bytes).length = bytes.length * 8 / 11 := by
  simp [wordsOf_eq, indexesOf]

theorem dropLast_joined {words : List Bytes} (h : words ≠ []) :
    (words.flatMap (· ++ [(0x20 : UInt8)])).dropLast = [0x20].intercalate words := by
  induction words with
  | nil => exact absurd rfl h
  | cons word words ih =>
    by_cases hwords : words = []
    · rw [hwords, List.intercalate_singleton, List.flatMap_cons, List.flatMap_nil, List.append_nil, List.dropLast_concat]
    · have hne : words.flatMap (· ++ [(0x20 : UInt8)]) ≠ [] := by
        obtain ⟨next, words, rfl⟩ := List.exists_cons_of_ne_nil hwords
        simp
      rw [List.flatMap_cons, List.dropLast_append_of_ne_nil hne, ih hwords, List.intercalate_cons_of_ne_nil hwords]

/-- A sentence, as `mnemonic_from_bytes` joins it. -/
def sentenceOf (words : List Bytes) : Bytes := [0x20].intercalate words

theorem mnemonicFromBytes_eq (w : Wordlist) {bytes : Bytes} (h : 2 ≤ bytes.length) :
    mnemonicFromBytes w bytes = some (sentenceOf (wordsOf w bytes)) := by
  have hne : wordsOf w bytes ≠ [] := by
    rw [← List.length_pos_iff, wordsOf_length]
    omega
  rw [mnemonicFromBytes, if_neg hne, dropLast_joined hne, sentenceOf]

theorem splitOn_sentenceOf {words : List Bytes} (hne : words ≠ []) (hplain : ∀ word ∈ words, 0x20 ∉ word) :
    (sentenceOf words).splitOn 0x20 = words := List.splitOn_intercalate 0x20 hplain hne

theorem sentenceOf_length {words : List Bytes} (h : ∀ word ∈ words, word ≠ []) : 2 * words.length ≤ (sentenceOf words).length + 1 := by
  unfold sentenceOf
  induction words with
  | nil => exact Nat.zero_le _
  | cons word words ih =>
    have hword := List.length_pos_of_ne_nil (h word List.mem_cons_self)
    by_cases hwords : words = []
    · rw [hwords, List.intercalate_singleton]
      simp only [List.length_cons, List.length_nil]
      omega
    · have hrest := ih fun next hnext => h next (List.mem_cons_of_mem word hnext)
      rw [List.intercalate_cons_of_ne_nil hwords, List.length_append, List.length_append, List.length_cons]
      simp only [List.length_cons, List.length_nil]
      omega

theorem sentenceOf_noNul {words : List Bytes} (h : ∀ word ∈ words, 0 ∉ word) : 0 ∉ sentenceOf words := by
  unfold sentenceOf
  induction words with
  | nil => simp
  | cons word words ih =>
    have hword := h word List.mem_cons_self
    by_cases hwords : words = []
    · rwa [hwords, List.intercalate_singleton]
    · have hrest := ih fun next hnext => h next (List.mem_cons_of_mem word hnext)
      rw [List.intercalate_cons_of_ne_nil hwords]
      simp [hword, hrest]

/-- The bytes of the words fit where the sentence does. -/
theorem bytesNeeded_le (w : Wordlist) (bytes : Bytes) :
    bytesNeeded w (bytes.length * 8 / 11) ≤ (sentenceOf (wordsOf w bytes)).length + 1 := by
  have hshort : 2 * (wordsOf w bytes).length ≤ (sentenceOf (wordsOf w bytes)).length + 1 :=
    sentenceOf_length fun word hword => (plain_of_mem hword).1
  rw [wordsOf_length] at hshort
  rw [bytesNeeded, bits_eq]
  omega

/-- The bits that made the words come back, in a buffer that can take them. -/
theorem mnemonicToBytes_sentence (search : BinarySearch) (w : Wordlist) {bytes bytesOut : Bytes} (htwo : 2 ≤ bytes.length)
    (hbuffer : (sentenceOf (wordsOf w bytes)).length < bytesOut.length) :
    ∃ result, mnemonicToBytes search w (sentenceOf (wordsOf w bytes)) bytesOut =
        some (result, bytesNeeded w (bytes.length * 8 / 11)) ∧
      result.length = bytesOut.length ∧ ∀ pos, pos < bytes.length * 8 / 11 * 11 → bitAt result pos = bitAt bytes pos := by
  have hcount := wordsOf_length w bytes
  have hne : wordsOf w bytes ≠ [] := by
    rw [← List.length_pos_iff, hcount]
    omega
  have hneeded : bytesNeeded w (bytes.length * 8 / 11) ≤ bytesOut.length := Nat.le_trans (bytesNeeded_le w bytes) hbuffer
  have hindexes : (indexesOf bytes).length = bytes.length * 8 / 11 := by simp [indexesOf]
  obtain ⟨result, hstore, hlength, hbits⟩ := @storeWords_bits search w (indexesOf bytes) (fun _ h => indexesOf_lt h) 0
    (List.replicate bytesOut.length 0) (by
      rw [bytesNeeded, bits_eq] at hneeded
      rw [hindexes, List.length_replicate]
      omega)
  refine ⟨result, ?_, by rw [hlength, List.length_replicate], fun pos hpos => ?_⟩
  · unfold mnemonicToBytes
    rw [splitOn_sentenceOf hne fun word hword => (plain_of_mem hword).2.1]
    dsimp only
    rw [hcount, if_neg (by omega), if_neg (Nat.not_lt.2 hneeded), storeWords, wordsOf_eq, hstore]
    rfl
  · have hzero : bitAt (List.replicate bytesOut.length 0) pos = false := by
      unfold bitAt hasBit
      rw [List.getD_eq_getElem?_getD, List.getElem?_replicate]
      split <;> simp
    have hget : (indexesOf bytes)[pos / 11]? = some (extractIndex 11 bytes (pos / 11)) := by
      rw [indexesOf, List.getElem?_map, List.getElem?_range (by omega)]
      rfl
    rw [Bool.eq_iff_iff, hbits, hzero]
    constructor
    · rintro (hnever | ⟨n, value, i, hn, hi, hpos', hbit⟩)
      · cases hnever
      · obtain rfl : n = pos / 11 := by omega
        obtain rfl := Option.some.inj (hn.symm.trans hget)
        have hplace : pos / 11 * 11 + i = pos := by omega
        rwa [testBit_extractIndex hi, hplace] at hbit
    · intro hbit
      refine .inr ⟨pos / 11, _, pos % 11, hget, Nat.mod_lt _ (by decide), by omega, ?_⟩
      rw [testBit_extractIndex (Nat.mod_lt _ (by decide)), show pos / 11 * 11 + pos % 11 = pos by omega]
      exact hbit

end BitcoinSpoon
