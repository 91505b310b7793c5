/-
  BitcoinSpoon.Merkle.Duplicates — equal siblings in an accepted merkle block
  (CVE-2012-2459).

  `MerkleBlockValid` compares the last two carried hashes. That refuses a supplied copy of
  the last node when both it and its sibling are carried as they are, and no other: a
  copied subtree that is spread over several hashes passes, at any level. Where no other
  pair of equal siblings is supplied, the matches are, in order, ids of the block with
  that root (`noNewDuplicates`).
-/

import BitcoinSpoon.Merkle.Sound
import BitcoinSpoon.Merkle.Whole

namespace BitcoinSpoon

open Wire

variable (c : Crypto)

/-! ## The nodes the walk visits -/

/-- The two children of every node that `calculatedMerkleRootFlexible` opens, as its two
    calls return them. -/
def childrenVisited (flags : Data) : Nat → WalkState → List (Data × Data)
  | 0, _ => []
  | height + 1, s =>
    if flagCount flags ≤ s.i then []
    else if flagAt flags s.i ≠ 0 then
      let s := { s with i := s.i + 1 }
      let (left, sl) := calculatedMerkleRootFlexible c flags height s
      let (right, _) := calculatedMerkleRootFlexible c flags height sl
      (left, right) :: (childrenVisited flags height s ++ childrenVisited flags height sl)
    else []

def visitedChildren (block : MerkleBlock) : List (Data × Data) :=
  childrenVisited c (merkleFlags block) (treeHeight block) ⟨0, merkleHashes block, some []⟩

theorem childrenVisited_eq (flags : Data) (height i : Nat) (hashes : List Bytes) (matched : Option Datas) :
    childrenVisited c flags height ⟨i, hashes.map some, matched⟩ =
      (Merkle.tree height ((flagBits flags).drop i) hashes).childValues (hashChildren c) := by
  unfold Merkle.tree
  induction height generalizing i hashes matched with
  | zero =>
    rw [childrenVisited]
    rcases (flagBits flags).drop i with _ | ⟨_ | _, bits⟩ <;> rfl
  | succ height ih =>
    rw [childrenVisited]
    by_cases h : flagCount flags ≤ i
    · rw [if_pos h, flagBits_drop_nil h]
      rfl
    rw [if_neg h, drop_flagBits (by omega)]
    by_cases hflag : flagAt flags i = 0
    · rw [if_neg (by simp [hflag])]
      simp [hflag, Merkle.read_false, Merkle.Partial.childValues, Merkle.Partial.children]
    · obtain ⟨il, hil, hl⟩ := flexible_eq_read c flags height (i + 1) hashes matched
      obtain ⟨ir, _, hr⟩ := flexible_eq_read c flags height il
        (Merkle.read height ((flagBits flags).drop (i + 1)) hashes).2.2
        (matched.map (· ++ (Merkle.read height ((flagBits flags).drop (i + 1)) hashes).1.matched))
      rw [if_pos hflag]
      simp only [hl, hr, ih, hil]
      simp [hflag, Merkle.read, Merkle.Partial.childValues_node]

theorem visitedChildren_eq (block : MerkleBlock) :
    visitedChildren c block = (merkleTree block).childValues (hashChildren c) := by
  rw [visitedChildren, (merkleHashes_spec block).1, childrenVisited_eq, List.drop_zero, merkleTree]

/-! ## The block behind the root -/

/-- `hash256`. -/
def digest (b : Bytes) : Bytes := c.sha256 (c.sha256 b)

/-- What is hashed for a node. -/
def childString (left right : Data) : Bytes := Data.toBytes left ++ Data.toBytes (right.or left)

/-- The strings that are hashed for the walk, for the tree over the block, and for its ids. -/
def HashedFor (block : MerkleBlock) (txs : List Bytes) (s : Bytes) : Prop :=
  (∃ x ∈ visitedChildren c block, s = childString x.1 x.2) ∨
    (∃ level pos a, Merkle.node (hashChildren c) (txs.map (digest c)) level (2 * pos) = some a ∧
      s = childString (some a) (Merkle.node (hashChildren c) (txs.map (digest c)) level (2 * pos + 1))) ∨
    s ∈ txs

/-- The transactions of a block with the root of the header. A transaction has 60 bytes and
    more; one of 64 bytes could pass for a pair of hashes. No two strings in play collide. -/
structure HonestBlock (block : MerkleBlock) (txs : List Bytes) : Prop where
  root_eq : merkleRoot block = Merkle.root (hashChildren c) (txs.map (digest c))
  tx_length : ∀ tx ∈ txs, 60 ≤ tx.length ∧ tx.length ≠ 64
  collisionFree : ∀ s t, HashedFor c block txs s → HashedFor c block txs t → digest c s = digest c t → s = t

/-! ## What is to be shown -/

/-- No node that is visited has two supplied children with equal hashes. -/
def NoEqualChildren (block : MerkleBlock) : Prop :=
  ∀ x ∈ visitedChildren c block, x.1 ≠ none → x.2 ≠ none → x.1 ≠ x.2

/-- The ids that are returned, without NULL, have no duplicates the block does not have: at
    the block's own height they are a part of its list, and they are distinct where its ids
    are, at whatever height. -/
def NoNewDuplicates (block : MerkleBlock) : Prop :=
  ∀ txs, HonestBlock c block txs →
    (treeHeight block = Nat.clog 2 txs.length →
      ((matchingTxIdsIfValidRoot c block).filterMap id).Sublist (txs.map (digest c))) ∧
    ((txs.map (digest c)).Nodup → ((matchingTxIdsIfValidRoot c block).filterMap id).Nodup)

/-! ## Pairs in play -/

theorem childString_some {left : Bytes} {right : Data} : childString (some left) right = left ++ right.getD left := by
  cases right <;> rfl

theorem visitedChildren_length {block : MerkleBlock} {x : Data × Data} (hx : x ∈ visitedChildren c block) :
    (∀ b, x.1 = some b → b.length = 32) ∧ ∀ b, x.2 = some b → b.length = 32 := by
  rw [visitedChildren_eq] at hx
  obtain ⟨y, hy, rfl⟩ := List.mem_map.mp hx
  have hlen := (merkleHashes_spec block).2
  rw [merkleTree] at hy
  obtain ⟨hl, hr⟩ := (Merkle.tree_from _ _ _).children y hy
  exact ⟨fun b hb => hl.value hlen (hashChildren_length c) hb, fun b hb => hr.value hlen (hashChildren_length c) hb⟩

theorem childString_length {block : MerkleBlock} {x : Data × Data} (hx : x ∈ visitedChildren c block) :
    (childString x.1 x.2).length = 64 ∧ x.1 ≠ none ∨ (childString x.1 x.2).length ≤ 32 ∧ x.1 = none := by
  obtain ⟨hl, hr⟩ := visitedChildren_length c hx
  rcases x with ⟨left, right⟩
  cases left with
  | some a =>
    have ha := hl a rfl
    rw [childString_some, List.length_append]
    cases right with
    | none => exact Or.inl ⟨by rw [Option.getD_none]; omega, by simp⟩
    | some b =>
      have hb := hr b rfl
      exact Or.inl ⟨by rw [Option.getD_some]; omega, by simp⟩
  | none =>
    cases right with
    | none => exact Or.inr ⟨by simp [childString], rfl⟩
    | some b =>
      have hb := hr b rfl
      exact Or.inr ⟨by simp [childString, hb], rfl⟩

section Honest

variable {c} {block : MerkleBlock} {txs : List Bytes}

theorem node_length {level pos : Nat} {a : Bytes}
    (h : Merkle.node (hashChildren c) (txs.map (digest c)) level pos = some a) : a.length = 32 := by
  refine Merkle.node_of (P := fun b => b.length = 32) (hashChildren c) ?_ (hashChildren_length c) h
  intro b hb
  obtain ⟨tx, _, rfl⟩ := List.mem_map.mp hb
  exact c.sha256_length _

theorem node_getD_length {level pos : Nat} {a : Bytes}
    (h : Merkle.node (hashChildren c) (txs.map (digest c)) level pos = some a) (pos' : Nat) :
    ((Merkle.node (hashChildren c) (txs.map (digest c)) level pos').getD a).length = 32 := by
  cases hr : Merkle.node (hashChildren c) (txs.map (digest c)) level pos' with
  | none => exact node_length h
  | some b => exact node_length hr

theorem HonestBlock.faithful (hb : HonestBlock c block txs) :
    Merkle.Faithful (hashChildren c) (txs.map (digest c)) (visitedChildren c block) where
  pair := by
    intro x hx level pos a hn heq
    have hs := hb.collisionFree _ _ (Or.inl ⟨x, hx, rfl⟩) (Or.inr (Or.inl ⟨level, pos, a, hn, rfl⟩)) heq
    have ha := node_length hn
    have hr := node_getD_length hn (2 * pos + 1)
    have hlen := congrArg List.length hs
    rw [childString_some, List.length_append] at hlen
    rcases childString_length c hx with ⟨_, hne⟩ | ⟨hle, _⟩
    · obtain ⟨b, hxb⟩ := Option.ne_none_iff_exists'.mp hne
      have hbl := (visitedChildren_length c hx).1 b hxb
      rw [hxb, childString_some, childString_some] at hs
      obtain ⟨rfl, hright⟩ := List.append_inj hs (hbl.trans ha.symm)
      exact ⟨hxb, hright⟩
    · omega
  leaf := by
    intro x hx hmem
    obtain ⟨tx, htx, heq⟩ := List.mem_map.mp hmem
    have hs := hb.collisionFree _ _ (Or.inr (Or.inr htx)) (Or.inl ⟨x, hx, rfl⟩) heq
    have hlen := congrArg List.length hs
    have := hb.tx_length tx htx
    rcases childString_length c hx with ⟨_, _⟩ | ⟨_, _⟩ <;> omega

theorem HonestBlock.injective (hb : HonestBlock c block txs) :
    Merkle.Injective (hashChildren c) (txs.map (digest c)) := by
  intro level p q a b ha hb' heq
  have hs := hb.collisionFree _ _ (Or.inr (Or.inl ⟨level, p, a, ha, rfl⟩)) (Or.inr (Or.inl ⟨level, q, b, hb', rfl⟩)) heq
  rw [childString_some, childString_some] at hs
  exact (List.append_inj hs ((node_length ha).trans (node_length hb').symm)).1

end Honest

theorem noEqualChildren_iff (block : MerkleBlock) :
    NoEqualChildren c block ↔ Merkle.Distinct (visitedChildren c block) := by
  unfold NoEqualChildren Merkle.Distinct
  constructor
  · intro h x hx a ha hb
    exact h x hx (by simp [ha]) (by simp [hb]) (ha.trans hb.symm)
  · intro h x hx hl hr heq
    obtain ⟨a, ha⟩ := Option.ne_none_iff_exists'.mp hl
    exact h x hx a ha (heq ▸ ha)

theorem merkleTree_ofHeight (block : MerkleBlock) : (merkleTree block).OfHeight (treeHeight block) := by
  rw [merkleTree]
  exact Merkle.tree_ofHeight (treeHeight block) (flagBits (merkleFlags block)) (carriedHashes block)

/-- Without equal siblings the matches are part of one level of the block's tree. -/
theorem noNewDuplicates {block : MerkleBlock} (hacc : RootAccepted c block) (hne : NoEqualChildren c block) :
    NoNewDuplicates c block := by
  intro txs hb
  have hf := hb.faithful
  have hd := (noEqualChildren_iff c block).mp hne
  rw [visitedChildren_eq] at hf hd
  have hheight := merkleTree_ofHeight block
  have hmatch := matchingTxIds_accepted c hacc
  obtain ⟨_, root, hvalue, hroot⟩ := hacc
  have hn : Merkle.root (hashChildren c) (txs.map (digest c)) = some root := by rw [← hb.root_eq, hroot]
  rw [Merkle.root] at hn
  have hsub := Merkle.matched_sublist_below hf hd hheight hvalue hn
  rw [hmatch]
  constructor
  · intro heq
    rw [heq, List.length_map, Merkle.below_leaves] at hsub
    · exact hsub
    · rw [List.length_map]
      exact Nat.le_pow_clog (by decide) _
  · intro hnd
    exact (Merkle.below_nodup hb.injective hnd _ _ _).sublist hsub

/-! ## Which siblings the guard refuses -/

/-- The tree of the message with the place of each hash in the list. -/
def positionTree (block : MerkleBlock) : Merkle.Partial (Bytes × Nat) :=
  Merkle.tree (treeHeight block) (flagBits (merkleFlags block)) (carriedHashes block).zipIdx

/-- The hash of a node of the message's tree. -/
def hashAt (t : Merkle.Partial (Bytes × Nat)) : Data := (t.map Prod.fst).value (hashChildren c)

/-- The two children are carried as they are, and last. -/
def IsLastPair (count : Nat) (x : Merkle.Partial (Bytes × Nat) × Merkle.Partial (Bytes × Nat)) : Prop :=
  1 < count ∧ ∃ fl fr a b, x.1 = .taken fl (some (a, count - 2)) ∧ x.2 = .taken fr (some (b, count - 1))

theorem positionTree_map (height : Nat) (bits : List Bool) (hashes : List Bytes) :
    (Merkle.tree height bits hashes.zipIdx).map Prod.fst = Merkle.tree height bits hashes := by
  have h := Merkle.read_map (β := Bytes) Prod.fst height bits hashes.zipIdx
  rw [List.zipIdx_map_fst] at h
  exact (congrArg Prod.fst h).symm

theorem visitedChildren_positions (block : MerkleBlock) :
    visitedChildren c block = (positionTree block).children.map fun x => (hashAt c x.1, hashAt c x.2) := by
  rw [visitedChildren_eq, merkleTree, positionTree, ← positionTree_map, Merkle.Partial.childValues,
    Merkle.Partial.children_map, List.map_map]
  rfl

theorem position_get {block : MerkleBlock} {x : Merkle.Partial (Bytes × Nat) × Merkle.Partial (Bytes × Nat)}
    (hx : x ∈ (positionTree block).children) {f : Bool} {a : Bytes} {k : Nat}
    (h : x.1 = .taken f (some (a, k)) ∨ x.2 = .taken f (some (a, k))) : (carriedHashes block)[k]? = some a := by
  rw [positionTree] at hx
  obtain ⟨hl, hr⟩ := (Merkle.tree_from _ _ _).children x hx
  rcases h with h | h
  · rw [h] at hl
    exact List.mem_zipIdx_iff_getElem?.mp (hl (a, k) rfl)
  · rw [h] at hr
    exact List.mem_zipIdx_iff_getElem?.mp (hr (a, k) rfl)

theorem isLastPair_differs {block : MerkleBlock} (hv : MerkleBlockValid block = true)
    {x : Merkle.Partial (Bytes × Nat) × Merkle.Partial (Bytes × Nat)} (hx : x ∈ (positionTree block).children)
    (hlast : IsLastPair (carriedHashes block).length x) : hashAt c x.1 ≠ hashAt c x.2 := by
  obtain ⟨hlt, fl, fr, a, b, hl, hr⟩ := hlast
  have hne := ((merkleBlockValid_iff block).mp hv).2 hlt
  rw [position_get hx (Or.inr hr), position_get hx (Or.inl hl)] at hne
  intro heq
  rw [hl, hr] at heq
  exact hne heq.symm

/-- An accepted block is free of equal siblings, and so of new duplicates, exactly when the
    only siblings of its tree with equal hashes would be the last two carried hashes. -/
theorem noDuplicateSubtrees_iff {block : MerkleBlock}
    (h : ∃ root, calculatedMerkleRoot c block = some root ∧ merkleRoot block = some root) :
    NoEqualChildren c block ∧ NoNewDuplicates c block ↔
      ∀ x ∈ (positionTree block).children, ∀ a, hashAt c x.1 = some a → hashAt c x.2 = some a →
        IsLastPair (carriedHashes block).length x := by
  have hacc := (rootAccepted_iff c block).mpr h
  constructor
  · intro hno x hx a hl hr
    have hmem : (hashAt c x.1, hashAt c x.2) ∈ visitedChildren c block := by
      rw [visitedChildren_positions]
      exact List.mem_map_of_mem hx
    exact absurd (hl.trans hr.symm) (hno.1 _ hmem (by simp [hl]) (by simp [hr]))
  · intro hcond
    have hne : NoEqualChildren c block := by
      intro y hy hl hr heq
      rw [visitedChildren_positions] at hy
      obtain ⟨x, hx, rfl⟩ := List.mem_map.mp hy
      obtain ⟨a, ha⟩ := Option.ne_none_iff_exists'.mp hl
      have hlast := hcond x hx a ha (heq.symm.trans ha)
      exact isLastPair_differs c hacc.1 hx hlast heq
    exact ⟨hne, noNewDuplicates c hacc hne⟩

/-! ## Six transactions passed off as eight -/

/-- Six ids, and the last two again. -/
def eightHashes : List Bytes := [0, 1, 2, 3, 4, 5, 4, 5].map fun k => List.replicate 32 k

def sixRoot : Bytes :=
  hashChildren c
    (some (hashChildren c (some (hashChildren c (some (List.replicate 32 0)) (some (List.replicate 32 1))))
      (some (hashChildren c (some (List.replicate 32 2)) (some (List.replicate 32 3))))))
    (some (hashChildren c (some (hashChildren c (some (List.replicate 32 4)) (some (List.replicate 32 5)))) none))

theorem sixRoot_length : (sixRoot c).length = 32 := hashChildren_length c _ _

theorem eightHashes_length : ∀ b ∈ eightHashes, b.length = 32 := by decide

def eightHashesBlock : MerkleBlock where
  data := some (merkleBlockMessage (headerWith (sixRoot c)) 8 eightHashes (List.replicate 15 true))
  length_lt := by
    rw [length_some, merkleBlockMessage, List.length_append, headerWith_length (sixRoot_length c)]
    simp only [List.length_append, flatten_length eightHashes_length]
    decide

theorem eightHashesBlock_isMessage :
    IsMessage (eightHashesBlock c) (headerWith (sixRoot c)) 8 eightHashes (List.replicate 15 true) where
  data_eq := rfl
  header_length := headerWith_length (sixRoot_length c)
  count_lt := by decide
  hash_length := eightHashes_length

theorem eightHashesBlock_tree :
    merkleTree (eightHashesBlock c) = Merkle.tree 3 (List.replicate 15 true ++ [false]) eightHashes := by
  have hlog : Nat.clog 2 8 = 3 := by decide +kernel
  rw [(eightHashesBlock_isMessage c).tree_eq (by decide) (by decide) (by decide), hlog]
  rfl

theorem eightHashesBlock_accepted : RootAccepted c (eightHashesBlock c) := by
  have hmsg := eightHashesBlock_isMessage c
  refine ⟨hmsg.valid_iff.mpr fun _ => by decide, sixRoot c, ?_, ?_⟩
  · rw [eightHashesBlock_tree]
    rfl
  · rw [hmsg.merkleRoot_eq, root_of_headerWith (sixRoot_length c)]

def pairHash : Bytes := hashChildren c (some (List.replicate 32 4)) (some (List.replicate 32 5))

/-- The node over the last two ids and its copy. -/
theorem eightHashesBlock_equalChildren :
    (some (pairHash c), some (pairHash c)) ∈ visitedChildren c (eightHashesBlock c) := by
  rw [visitedChildren_eq, eightHashesBlock_tree]
  exact List.mem_of_getElem? (i := 4) rfl

theorem noDuplicateSubtrees_eightHashes :
    (∃ root, calculatedMerkleRoot plainCrypto (eightHashesBlock plainCrypto) = some root ∧
        merkleRoot (eightHashesBlock plainCrypto) = some root) ∧
      (NoEqualChildren plainCrypto (eightHashesBlock plainCrypto) ∧
          NoNewDuplicates plainCrypto (eightHashesBlock plainCrypto) ↔
        ∀ x ∈ (positionTree (eightHashesBlock plainCrypto)).children, ∀ a, hashAt plainCrypto x.1 = some a →
          hashAt plainCrypto x.2 = some a → IsLastPair (carriedHashes (eightHashesBlock plainCrypto)).length x) := by
  have h := (rootAccepted_iff plainCrypto _).mp (eightHashesBlock_accepted plainCrypto)
  exact ⟨h, noDuplicateSubtrees_iff plainCrypto h⟩

theorem not_noDuplicateSubtrees :
    ¬ ∀ (c : Crypto) (block : MerkleBlock),
      (∃ root, calculatedMerkleRoot c block = some root ∧ merkleRoot block = some root) →
        NoEqualChildren c block ∧ NoNewDuplicates c block := by
  intro hall
  obtain ⟨hne, _⟩ := hall plainCrypto _ ((rootAccepted_iff plainCrypto _).mp (eightHashesBlock_accepted plainCrypto))
  exact hne _ (eightHashesBlock_equalChildren plainCrypto) (by simp) (by simp) rfl

end BitcoinSpoon
