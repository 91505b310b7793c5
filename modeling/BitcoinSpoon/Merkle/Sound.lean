/-
  BitcoinSpoon.Merkle.Sound — what an accepted merkle block proves of its matches.

  A match with a hash is a carried hash with a path to the root of the header, through the
  nodes the walk visited. But a flagged leaf that is reached when the hashes have run out
  adds NULL to the matches and counts as a missing right child, so the root can still be
  right. `matchingTxIds_authenticated` gives the exact condition on the flags.
-/

import BitcoinSpoon.Merkle.Message

namespace BitcoinSpoon

open Wire

variable (c : Crypto)

theorem hashChildren_length (left right : Option Bytes) : (hashChildren c left right).length = 32 := c.sha256_length _

/-- A carried hash with an authentication path to the root of the header: the siblings are
    the hashes next to the nodes that were visited on the way up. -/
def Authenticated (block : MerkleBlock) (entry : Data) : Prop :=
  ∃ hash ∈ carriedHashes block, entry = some hash ∧ hash.length = 32 ∧
    ∃ path, Merkle.IsPath (hashChildren c) (merkleTree block) hash path ∧ (∀ step ∈ path, step.2.length = 32) ∧
      merkleRoot block = some (Merkle.climb (hashChildren c) hash path)

/-- The nodes that take a hash, in the order of the walk; `true` for a flagged leaf. The
    flags and the height alone decide. -/
def hashRequests (block : MerkleBlock) : List Bool :=
  Merkle.requested (treeHeight block) (flagBits (merkleFlags block))

theorem null_mem_matched (block : MerkleBlock) :
    none ∈ (merkleTree block).matched ↔ ∃ k, (hashRequests block)[k]? = some true ∧ (carriedHashes block).length ≤ k :=
  Merkle.none_mem_matched_tree (treeHeight block) (flagBits (merkleFlags block)) (carriedHashes block)

theorem tree_isPath {height : Nat} {bits : List Bool} {hashes : List Bytes} {hash : Bytes}
    (h : some hash ∈ (Merkle.tree height bits hashes).matched) :
    hash ∈ hashes ∧ ∃ path, Merkle.IsPath (hashChildren c) (Merkle.tree height bits hashes) hash path ∧
      ((∀ b ∈ hashes, b.length = 32) → ∀ step ∈ path, step.2.length = 32) ∧
      (Merkle.tree height bits hashes).value (hashChildren c) = some (Merkle.climb (hashChildren c) hash path) := by
  have hfrom := Merkle.read_from height bits hashes
  obtain ⟨path, hpath⟩ := Merkle.exists_isPath (hashChildren c) h
  refine ⟨hfrom.matched h, path, hpath, ?_, Merkle.climb_of_isPath (hashChildren_dupRight c) hpath⟩
  intro hlen
  exact hpath.siblings (P := fun b => b.length = 32) hfrom hlen (hashChildren_length c)

theorem authenticated_of_matched {block : MerkleBlock} (hacc : RootAccepted c block) {hash : Bytes}
    (h : some hash ∈ (merkleTree block).matched) : Authenticated c block (some hash) := by
  obtain ⟨_, root, hvalue, hroot⟩ := hacc
  have hlen := (merkleHashes_spec block).2
  rw [merkleTree] at h hvalue
  obtain ⟨hmem, path, hpath, hsib, hclimb⟩ := tree_isPath c h
  refine ⟨hash, hmem, rfl, hlen hash hmem, path, hpath, hsib hlen, ?_⟩
  rw [hroot, ← hvalue, hclimb]

/-- Every entry of a result that is not empty is authenticated exactly when the flags ask
    for no matched leaf behind the carried hashes. -/
theorem matchingTxIds_authenticated {block : MerkleBlock} (h : matchingTxIdsIfValidRoot c block ≠ []) :
    (∀ entry ∈ matchingTxIdsIfValidRoot c block, Authenticated c block entry) ↔
      ∀ k, (hashRequests block)[k]? = some true → k < (carriedHashes block).length := by
  have hacc : RootAccepted c block := by
    by_contra hrej
    exact h (matchingTxIds_rejected c hrej)
  rw [matchingTxIds_accepted c hacc]
  constructor
  · intro hall k hk
    by_contra hle
    obtain ⟨hash, _, hnull, _⟩ := hall none ((null_mem_matched block).mpr ⟨k, hk, by omega⟩)
    cases hnull
  · intro hasked entry hentry
    cases entry with
    | some hash => exact authenticated_of_matched c hacc hentry
    | none =>
      obtain ⟨k, hk, hle⟩ := (null_mem_matched block).mp hentry
      have := hasked k hk
      omega

/-! ## One hash for two transactions -/

def headerWith (root : Bytes) : Bytes := List.replicate 36 0 ++ (root ++ List.replicate 12 0)

theorem headerWith_length {root : Bytes} (h : root.length = 32) : (headerWith root).length = 80 := by
  simp [headerWith, h]

theorem root_of_headerWith {root : Bytes} (h : root.length = 32) : ((headerWith root).drop 36).take 32 = root := by
  rw [headerWith, List.drop_left' (List.length_replicate ..), List.take_left' h]

/-- 32 zero bytes. -/
def zeroHash : Bytes := List.replicate 32 0

/-- A count of two, one hash, and flags that mark both leaves, under the root of the pair
    of that hash with itself. -/
def oneHashBlock : MerkleBlock where
  data := some (merkleBlockMessage (headerWith (hashChildren c (some zeroHash) none)) 2 [zeroHash] [true, true, true])
  length_lt := by
    rw [length_some, merkleBlockMessage, List.length_append, headerWith_length (hashChildren_length c _ _)]
    decide

theorem oneHashBlock_isMessage :
    IsMessage (oneHashBlock c) (headerWith (hashChildren c (some zeroHash) none)) 2 [zeroHash] [true, true, true] where
  data_eq := rfl
  header_length := headerWith_length (hashChildren_length c _ _)
  count_lt := by decide
  hash_length := by simp [zeroHash]

theorem oneHashBlock_matching : matchingTxIdsIfValidRoot c (oneHashBlock c) = [some zeroHash, none] := by
  have hmsg := oneHashBlock_isMessage c
  have htree : merkleTree (oneHashBlock c) =
      .node (.taken true (some zeroHash)) (.taken true none) := hmsg.tree_eq (by decide) (by decide) (by decide)
  rw [matchingTxIds_accepted, htree]
  · rfl
  · refine ⟨hmsg.valid_iff.mpr (fun h => absurd h (by decide)), hashChildren c (some zeroHash) none, ?_, ?_⟩
    · rw [htree]
      rfl
    · rw [hmsg.merkleRoot_eq, root_of_headerWith (hashChildren_length c _ _)]

theorem matchingTxIds_authenticated_oneHash :
    matchingTxIdsIfValidRoot plainCrypto (oneHashBlock plainCrypto) ≠ [] ∧
      ((∀ entry ∈ matchingTxIdsIfValidRoot plainCrypto (oneHashBlock plainCrypto),
          Authenticated plainCrypto (oneHashBlock plainCrypto) entry) ↔
        ∀ k, (hashRequests (oneHashBlock plainCrypto))[k]? = some true →
          k < (carriedHashes (oneHashBlock plainCrypto)).length) := by
  have h : matchingTxIdsIfValidRoot plainCrypto (oneHashBlock plainCrypto) ≠ [] := by
    rw [oneHashBlock_matching]
    simp
  exact ⟨h, matchingTxIds_authenticated plainCrypto h⟩

theorem not_matchingTxIds_authenticated :
    ¬ ∀ (c : Crypto) (block : MerkleBlock), matchingTxIdsIfValidRoot c block ≠ [] →
      ∀ entry ∈ matchingTxIdsIfValidRoot c block, Authenticated c block entry := by
  intro hall
  have hmatch := oneHashBlock_matching plainCrypto
  have hall' := hall plainCrypto (oneHashBlock plainCrypto)
  rw [hmatch] at hall'
  obtain ⟨hash, _, hnull, _⟩ := hall' (by simp) none (by simp)
  cases hnull

end BitcoinSpoon
