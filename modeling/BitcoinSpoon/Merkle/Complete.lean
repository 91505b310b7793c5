/-
  BitcoinSpoon.Merkle.Complete — a merkle block built as BIP37 has it is read for what it
  was built from.
-/

import BitcoinSpoon.Merkle.Sound
import BitcoinSpoon.Merkle.Prune

namespace BitcoinSpoon

open Wire

variable (c : Crypto)

/-- The flag bits and the hashes for the wanted positions of a list of ids. -/
def partialMerkleTree (txids : List Bytes) (wanted : Nat → Bool) : List Bool × List Bytes :=
  Merkle.build (hashChildren c) txids wanted (Nat.clog 2 txids.length) 0

/-- The wanted ids in the order of the block. -/
def wantedTxids (txids : List Bytes) (wanted : Nat → Bool) : List Bytes :=
  (txids.zipIdx.filter fun x => wanted x.2).map Prod.fst

/-- The message over a header: the count, the hashes and the packed flag bits. -/
def merkleProof (header : Bytes) (txids : List Bytes) (wanted : Nat → Bool) : Bytes :=
  merkleBlockMessage header txids.length (partialMerkleTree c txids wanted).2 (partialMerkleTree c txids wanted).1

theorem merkleProof_isMessage {block : MerkleBlock} {header : Bytes} {txids : List Bytes} {wanted : Nat → Bool}
    (hdata : block.data = some (merkleProof c header txids wanted)) (hheader : header.length = 80)
    (hlt : txids.length < 2 ^ 31) (hlen : ∀ id ∈ txids, id.length = 32) :
    IsMessage block header txids.length (partialMerkleTree c txids wanted).2 (partialMerkleTree c txids wanted).1 where
  data_eq := hdata
  header_length := hheader
  count_lt := by omega
  hash_length := Merkle.build_hashes_of (P := fun b : Bytes => b.length = 32) hlen (hashChildren_length c) _ _

/-- The flag bits fit where the hashes do. -/
theorem partialMerkleTree_bits {txids : List Bytes} (wanted : Nat → Bool) (h0 : txids ≠ [])
    (hlt : txids.length < 2 ^ 31) (hsize : 32 * (partialMerkleTree c txids wanted).2.length + 84 < 2 ^ 32) :
    (partialMerkleTree c txids wanted).1.length + 7 < 2 ^ 32 := by
  have hpos : 0 < txids.length := List.length_pos_iff.mpr h0
  obtain ⟨_, hbits⟩ := Merkle.build_length (hashChildren c) wanted
    (show 0 * 2 ^ Nat.clog 2 txids.length < txids.length by rw [Nat.zero_mul]; exact hpos)
  have hheight : Nat.clog 2 txids.length ≤ 31 := Nat.clog_le_of_le_pow (Nat.le_of_lt hlt)
  have hmul := Nat.mul_le_mul_right (partialMerkleTree c txids wanted).2.length (Nat.succ_le_succ hheight)
  have : (partialMerkleTree c txids wanted).1.length ≤ (31 + 1) * (partialMerkleTree c txids wanted).2.length :=
    Nat.le_trans hbits hmul
  omega

/-- Whatever ids and whatever positions: the root and the wanted ids come back, while the
    last two hashes of the message differ. -/
theorem merkleProof_decoded {block : MerkleBlock} {header : Bytes} {txids : List Bytes} {wanted : Nat → Bool}
    (h0 : txids ≠ []) (hlt : txids.length < 2 ^ 31) (hlen : ∀ id ∈ txids, id.length = 32)
    (hheader : header.length = 80) (hroot : Merkle.root (hashChildren c) txids = some ((header.drop 36).take 32))
    (hdata : block.data = some (merkleProof c header txids wanted))
    (hlast : 1 < (merkleHashes block).length →
      (merkleHashes block)[(merkleHashes block).length - 1]? ≠ (merkleHashes block)[(merkleHashes block).length - 2]?) :
    calculatedMerkleRoot c block = some ((header.drop 36).take 32) ∧
      matchingTxIdsIfValidRoot c block = (wantedTxids txids wanted).map some := by
  have hmsg := merkleProof_isMessage c hdata hheader hlt hlen
  have hsize := hmsg.sizes
  have hlength := hmsg.length_eq
  have hfits := block.length_lt
  have hbits := partialMerkleTree_bits c wanted h0 hlt (by omega)
  have hvalid : MerkleBlockValid block = true := by
    rw [hmsg.merkleHashes_eq] at hlast
    rw [hmsg.valid_iff]
    intro h1 heq
    rw [List.length_map] at hlast
    apply hlast h1
    rw [List.getElem?_map, List.getElem?_map, heq]
  have htree := hmsg.tree_eq (List.length_pos_iff.mpr h0) hlt hbits
  obtain ⟨hvalue, hmatched⟩ := Merkle.tree_build (hashChildren c) wanted h0
    (((partialMerkleTree c txids wanted).1.length + 7) / 8 * 8 - (partialMerkleTree c txids wanted).1.length)
  have hvalue' : (merkleTree block).value (hashChildren c) = some ((header.drop 36).take 32) := by
    rw [htree, ← hroot]
    exact hvalue
  constructor
  · rw [calculatedMerkleRoot_eq, hvalid, if_pos rfl, hvalue']
  · rw [matchingTxIds_accepted c ⟨hvalid, _, hvalue', hmsg.merkleRoot_eq⟩, htree]
    exact hmatched

/-! ## Three ids, all wanted -/

def threeIds : List Bytes := [List.replicate 32 0, List.replicate 32 1, List.replicate 32 2]

theorem partialMerkleTree_three :
    partialMerkleTree c threeIds (fun _ => true) = ([true, true, true, true, true, true], threeIds) := by
  have hlog : Nat.clog 2 threeIds.length = 2 := by decide +kernel
  rw [partialMerkleTree, hlog]
  rfl

def threeRoot : Bytes :=
  hashChildren c (some (hashChildren c (some (List.replicate 32 0)) (some (List.replicate 32 1))))
    (some (hashChildren c (some (List.replicate 32 2)) none))

theorem threeRoot_length : (threeRoot c).length = 32 := hashChildren_length c _ _

theorem root_three : Merkle.root (hashChildren c) threeIds = some (threeRoot c) := by
  have hlog : Nat.clog 2 threeIds.length = 2 := by decide +kernel
  rw [Merkle.root, hlog]
  rfl

def threeIdsBlock : MerkleBlock where
  data := some (merkleProof c (headerWith (threeRoot c)) threeIds fun _ => true)
  length_lt := by
    rw [length_some, merkleProof, merkleBlockMessage, partialMerkleTree_three, List.length_append,
      headerWith_length (threeRoot_length c)]
    simp only [List.length_append, flatten_length (show ∀ b ∈ threeIds, b.length = 32 by decide)]
    decide

theorem merkleProof_decoded_three :
    calculatedMerkleRoot plainCrypto (threeIdsBlock plainCrypto) = some (threeRoot plainCrypto) ∧
      matchingTxIdsIfValidRoot plainCrypto (threeIdsBlock plainCrypto) = threeIds.map some := by
  have hids : ∀ id ∈ threeIds, id.length = 32 := by decide
  have hheader := headerWith_length (threeRoot_length plainCrypto)
  have hroot := root_of_headerWith (threeRoot_length plainCrypto)
  have hdata : (threeIdsBlock plainCrypto).data =
      some (merkleProof plainCrypto (headerWith (threeRoot plainCrypto)) threeIds fun _ => true) := rfl
  have hmsg := merkleProof_isMessage plainCrypto hdata hheader (by decide) hids
  have hdecoded := merkleProof_decoded plainCrypto (by decide) (by decide) hids hheader
    ((root_three plainCrypto).trans (congrArg some hroot.symm)) hdata
    (by rw [hmsg.merkleHashes_eq, partialMerkleTree_three]; decide)
  rw [hroot] at hdecoded
  exact hdecoded

end BitcoinSpoon
