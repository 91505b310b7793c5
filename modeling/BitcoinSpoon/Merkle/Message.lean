/-
  BitcoinSpoon.Merkle.Message — the merkle block message as peers write it, and what the
  library reads of one.

  Counts are in the shortest form and the flag bits are packed from the low bit of the
  first byte up, zero bits filling the last byte.
-/

import BitcoinSpoon.Merkle.Block
import BitcoinSpoon.Util.VarInt

namespace BitcoinSpoon

open Wire

/-! ## The message -/

/-- The shortest form of a count. -/
def compactSize (n : Nat) : Bytes :=
  if n < 253 then leBytes 1 n
  else if n < 2 ^ 16 then 0xfd :: leBytes 2 n
  else if n < 2 ^ 32 then 0xfe :: leBytes 4 n
  else 0xff :: leBytes 8 n

theorem isVarInt_compactSize {n : Nat} (h : n < 2 ^ 64) : IsVarInt n (compactSize n) := by
  unfold compactSize
  split
  · exact Or.inl ⟨by omega, rfl⟩
  split
  · exact Or.inr (Or.inl ⟨by omega, rfl⟩)
  split
  · exact Or.inr (Or.inr (Or.inl ⟨by omega, rfl⟩))
  · exact Or.inr (Or.inr (Or.inr ⟨h, rfl⟩))

/-- Bit `i` goes to bit `i % 8` of byte `i / 8`. -/
def packBits (bits : List Bool) : Bytes :=
  (List.range ((bits.length + 7) / 8)).map fun k => UInt8.ofNat (Nat.ofBits fun j : Fin 8 => bits.getD (8 * k + j) false)

theorem packBits_length (bits : List Bool) : (packBits bits).length = (bits.length + 7) / 8 := by
  rw [packBits, List.length_map, List.length_range]

def merkleBlockMessage (header : Bytes) (count : Nat) (hashes : List Bytes) (bits : List Bool) : Bytes :=
  header ++ (uint32D count ++
    (compactSize hashes.length ++ (hashes.flatten ++ (compactSize (packBits bits).length ++ packBits bits))))

/-- `block` is such a message. -/
structure IsMessage (block : MerkleBlock) (header : Bytes) (count : Nat) (hashes : List Bytes) (bits : List Bool) :
    Prop where
  data_eq : block.data = some (merkleBlockMessage header count hashes bits)
  header_length : header.length = 80
  count_lt : count < 2 ^ 32
  hash_length : ∀ b ∈ hashes, b.length = 32

/-! ## What is read of it -/

theorem flatten_length {hashes : List Bytes} (h : ∀ b ∈ hashes, b.length = 32) :
    hashes.flatten.length = 32 * hashes.length := by
  induction hashes with
  | nil => rfl
  | cons b hashes ih =>
    have hb := h b List.mem_cons_self
    have := ih fun b' hb' => h b' (List.mem_cons_of_mem _ hb')
    simp only [List.flatten_cons, List.length_append, List.length_cons]
    omega

theorem merkleHashesFrom_flatten {hashes : List Bytes} (h : ∀ b ∈ hashes, b.length = 32) (rest : Bytes) :
    merkleHashesFrom hashes.length (hashes.flatten ++ rest) = some (hashes.map some) := by
  induction hashes with
  | nil => rfl
  | cons b hashes ih =>
    have hb := h b List.mem_cons_self
    have htake : (b ++ (hashes.flatten ++ rest)).take 32 = b := List.take_left' hb
    have hdrop : (b ++ (hashes.flatten ++ rest)).drop 32 = hashes.flatten ++ rest := List.drop_left' hb
    rw [List.length_cons, merkleHashesFrom, List.flatten_cons, List.append_assoc, htake, hdrop, if_neg]
    · rw [ih fun b' hb' => h b' (List.mem_cons_of_mem _ hb')]
      rfl
    · rw [List.length_append]
      omega

namespace IsMessage

variable {block : MerkleBlock} {header : Bytes} {count : Nat} {hashes : List Bytes} {bits : List Bool}

theorem length_eq (h : IsMessage block header count hashes bits) :
    block.data.length = 84 + (compactSize hashes.length).length + 32 * hashes.length +
      (compactSize (packBits bits).length).length + (packBits bits).length := by
  rw [h.data_eq, length_some, merkleBlockMessage, uint32D]
  simp only [List.length_append, h.header_length, leBytes_length, flatten_length h.hash_length]
  omega

theorem sizes (h : IsMessage block header count hashes bits) :
    84 < block.data.length ∧ 32 * hashes.length + (packBits bits).length < 2 ^ 32 := by
  have hlen := h.length_eq
  have hlt := block.length_lt
  have hpos : 0 < (compactSize hashes.length).length := by
    unfold compactSize
    repeat' split
    all_goals simp [leBytes]
  omega

theorem merkleRoot_eq (h : IsMessage block header count hashes bits) :
    merkleRoot block = some ((header.drop 36).take 32) := by
  have hsize := h.sizes
  rw [merkleRoot, if_neg (by omega), h.data_eq, toBytes_some, merkleBlockMessage]
  rw [List.drop_append_of_le_length (by rw [h.header_length]; omega), List.take_append_of_le_length]
  rw [List.length_drop, h.header_length]
  omega

theorem transactionCount_eq (h : IsMessage block header count hashes bits) :
    MerkleBlockTransactionCount block = count := by
  have hsize := h.sizes
  have hcount : (uint32D count).length = 4 := leBytes_length 4 count
  rw [MerkleBlockTransactionCount, if_neg (by omega), h.data_eq, toBytes_some, merkleBlockMessage]
  rw [List.drop_left' h.header_length, List.take_left' hcount]
  exact leNat_leBytes 4 count (Nat.lt_of_lt_of_le h.count_lt (by decide))

/-- Behind the header and the transaction count. -/
theorem readVarInt_hashes (h : IsMessage block header count hashes bits) :
    readVarInt (block.data.toBytes.drop 84) =
      (hashes.length, hashes.flatten ++ (compactSize (packBits bits).length ++ packBits bits)) := by
  have hsize := h.sizes
  have hfront : (header ++ uint32D count).length = 84 := by
    rw [List.length_append, h.header_length, uint32D, leBytes_length]
  rw [h.data_eq, toBytes_some, merkleBlockMessage, ← List.append_assoc, List.drop_left' hfront]
  exact grammar_readVarInt.reads (isVarInt_compactSize (by omega)) _

theorem merkleHashes_eq (h : IsMessage block header count hashes bits) : merkleHashes block = hashes.map some := by
  have hsize := h.sizes
  rw [merkleHashes, if_neg (by omega), h.readVarInt_hashes]
  dsimp only
  rw [merkleHashesFrom_flatten h.hash_length]
  rfl

theorem carriedHashes_eq (h : IsMessage block header count hashes bits) : carriedHashes block = hashes := by
  rw [carriedHashes, h.merkleHashes_eq, List.map_map]
  exact List.map_id hashes

theorem merkleFlags_eq (h : IsMessage block header count hashes bits) : merkleFlags block = some (packBits bits) := by
  have hsize := h.sizes
  have hlen := flatten_length h.hash_length
  have hmod : hashes.length * 32 % 2 ^ 64 = hashes.length * 32 := Nat.mod_eq_of_lt (by omega)
  have hread : readVarInt (compactSize (packBits bits).length ++ packBits bits) = ((packBits bits).length, packBits bits) :=
    grammar_readVarInt.reads (isVarInt_compactSize (by omega)) _
  rw [merkleFlags, if_neg (by omega), h.readVarInt_hashes]
  dsimp only
  rw [hmod, if_neg (by rw [List.length_append]; omega), List.drop_left' (by omega), hread]
  dsimp only
  rw [if_neg (by omega)]

end IsMessage

/-! ## The flag bits -/

theorem and_one_shiftLeft (x j : Nat) : x &&& 1 <<< j ≠ 0 ↔ x.testBit j = true := by
  rw [Nat.one_shiftLeft]
  constructor
  · intro h
    by_contra hbit
    rw [Bool.not_eq_true] at hbit
    apply h
    apply Nat.eq_of_testBit_eq
    intro i
    rw [Nat.testBit_and, Nat.testBit_two_pow, Nat.zero_testBit]
    by_cases hij : j = i
    · rw [← hij, hbit, Bool.false_and]
    · simp [hij]
  · intro hbit h0
    have := congrArg (Nat.testBit · j) h0
    simp [hbit] at this

theorem flagAt_packBits {bits : List Bool} {i : Nat} (h : i / 8 < (bits.length + 7) / 8) :
    flagAt (some (packBits bits)) i ≠ 0 ↔ bits.getD i false = true := by
  have hbyte : (packBits bits).getD (i / 8) 0 =
      UInt8.ofNat (Nat.ofBits fun j : Fin 8 => bits.getD (8 * (i / 8) + j) false) := by
    simp [packBits, h]
  have hlt := Nat.ofBits_lt_two_pow (n := 8) fun j : Fin 8 => bits.getD (8 * (i / 8) + j) false
  have hpos : i % 8 < 8 := Nat.mod_lt _ (by decide)
  rw [flagAt, and_one_shiftLeft, toBytes_some, hbyte, UInt8.toNat_ofNat', Nat.mod_eq_of_lt hlt,
    Nat.testBit_ofBits_lt _ _ hpos, Nat.div_add_mod]

/-- The bits come back with the zeros that fill the last byte. -/
theorem flagBits_packBits {bits : List Bool} (h : bits.length + 7 < 2 ^ 32) :
    flagBits (some (packBits bits)) = bits ++ List.replicate ((bits.length + 7) / 8 * 8 - bits.length) false := by
  have hcount : flagCount (some (packBits bits)) = (bits.length + 7) / 8 * 8 := by
    rw [flagCount, length_some, packBits_length]
    exact Nat.mod_eq_of_lt (by omega)
  apply List.ext_getElem
  · rw [flagBits, List.length_map, List.length_range, hcount, List.length_append, List.length_replicate]
    omega
  · intro i hi hi'
    rw [flagBits, List.length_map, List.length_range, hcount] at hi
    have hflag : flagAt (some (packBits bits)) i ≠ 0 ↔ bits.getD i false = true := flagAt_packBits (by omega)
    simp only [flagBits, List.getElem_map, List.getElem_range, decide_eq_decide.mpr hflag]
    by_cases hib : i < bits.length
    · rw [List.getElem_append_left hib, List.getD_eq_getElem _ _ hib, Bool.decide_eq_true]
    · rw [List.getElem_append_right (by omega), List.getElem_replicate, List.getD_eq_default _ _ (by omega)]
      rfl

/-! ## The tree of a message -/

namespace IsMessage

variable {block : MerkleBlock} {header : Bytes} {count : Nat} {hashes : List Bytes} {bits : List Bool}

theorem valid_iff (h : IsMessage block header count hashes bits) :
    MerkleBlockValid block = true ↔
      (1 < hashes.length → hashes[hashes.length - 1]? ≠ hashes[hashes.length - 2]?) := by
  have hsize := h.sizes
  rw [merkleBlockValid_iff, h.carriedHashes_eq]
  exact and_iff_right (by omega)

theorem tree_eq (h : IsMessage block header count hashes bits) (h0 : 0 < count) (hlt : count < 2 ^ 31)
    (hbits : bits.length + 7 < 2 ^ 32) :
    merkleTree block = Merkle.tree (Nat.clog 2 count)
      (bits ++ List.replicate ((bits.length + 7) / 8 * 8 - bits.length) false) hashes := by
  rw [merkleTree, treeHeight_eq_clog h.transactionCount_eq h0 hlt, h.merkleFlags_eq, h.carriedHashes_eq,
    flagBits_packBits hbits]

end IsMessage

end BitcoinSpoon
