/-
  BitcoinSpoon.Merkle.Block — a merkle block and the proof it carries
  (`code/MerkleBlock.c`).

  The message is a header of 80 bytes, a transaction count, a list of hashes and the flag
  bytes. `calculatedMerkleRootFlexible` walks the tree they describe with a cursor `i` in
  the flag bits and the hashes that are left. `flexible_eq_read` says that the walk is
  `Merkle.read` on the bits: the value it returns is the value of the partial tree, and
  `matches` grows by its flagged leaves.
-/

import BitcoinSpoon.Merkle.Tree
import BitcoinSpoon.Util.Keys
import Mathlib.Data.Nat.Log

namespace BitcoinSpoon

open Wire

/-- `hashCache` is not read here. A `Data` has an `unsigned int` length. -/
structure MerkleBlock where
  data : Data
  length_lt : data.length < 2 ^ 32

/-! ## The message -/

def merkleRoot (block : MerkleBlock) : Data :=
  if block.data.length < 80 then none else some ((block.data.toBytes.drop 36).take 32)

def MerkleBlockTransactionCount (block : MerkleBlock) : Nat :=
  if block.data.length < 84 then 0 else leNat ((block.data.toBytes.drop 80).take 4)

/-- The loop of `merkleHashes`; `none` when it meets the end. -/
def merkleHashesFrom : Nat → Bytes → Option Datas
  | 0, _ => some []
  | count + 1, ptr =>
    if ptr.length < 32 then none else (merkleHashesFrom count (ptr.drop 32)).map (some (ptr.take 32) :: ·)

def merkleHashes (block : MerkleBlock) : Datas :=
  if block.data.length < 85 then []
  else
    let (count, ptr) := readVarInt (block.data.toBytes.drop 84)
    (merkleHashesFrom count ptr).getD []

@[irreducible] def merkleFlags (block : MerkleBlock) : Data :=
  -- `ptr` starts behind `end` here. There are no hashes then, so no flags make a root.
  if block.data.length < 84 then none
  else
    let (hashCount, ptr) := readVarInt (block.data.toBytes.drop 84)
    if ptr.length < hashCount * 32 % 2 ^ 64 then none
    else
      let (flagBytes, ptr) := readVarInt (ptr.drop (hashCount * 32 % 2 ^ 64))
      if ptr.length ≠ flagBytes then none else some ptr

def MerkleBlockValid (block : MerkleBlock) : Bool :=
  let hashes := merkleHashes block
  let result := decide (80 ≤ block.data.length)
  if 1 < hashes.length then
    result && !dataEqual (hashes.getD (hashes.length - 1) none) (hashes.getD (hashes.length - 2) none)
  else result

/-- The value of a `uint32_t` as an `int`. -/
def intOfUInt32 (n : Nat) : Int := if n < 2 ^ 31 then n else n - 2 ^ 32

/-- `uint32_t` arithmetic, returned as an `int`. -/
def calculateTreeWidth (block : MerkleBlock) (height : Nat) : Int :=
  intOfUInt32 (((MerkleBlockTransactionCount block + 2 ^ height + (2 ^ 32 - 1)) % 2 ^ 32) >>> height)

/-- `while(calculateTreeWidth(block, height) > 1) height++`. -/
def treeHeightFrom (block : MerkleBlock) : Nat → Nat → Nat
  | 0, height => height
  | rounds + 1, height =>
    if 1 < calculateTreeWidth block height then treeHeightFrom block rounds (height + 1) else height

/-- 31 rounds are enough (`calculateTreeWidth_treeHeight`). -/
@[irreducible] def treeHeight (block : MerkleBlock) : Nat := treeHeightFrom block 31 0

/-! ## The walk -/

def nextElement (array : Datas) : Data × Datas :=
  if array.length = 0 then (none, array) else (datasFirst array, array.tail)

/-- `*i`, `*hashes` and `*matches`, whose pointer may be NULL. The cursor is an `int`: a
    walk of 2^31 bits and more is not defined. -/
structure WalkState where
  i : Nat
  hashes : Datas
  matched : Option Datas

/-- `flags.length * 8`, an `unsigned int`. -/
def flagCount (flags : Data) : Nat := flags.length * 8 % 2 ^ 32

def flagAt (flags : Data) (i : Nat) : Nat := (flags.toBytes.getD (i / 8) 0).toNat &&& 1 <<< (i % 8)

variable (c : Crypto)

def calculatedMerkleRootFlexible (flags : Data) : Nat → WalkState → Data × WalkState
  | height, s =>
    if flagCount flags ≤ s.i then (none, s)
    else
      let flag := flagAt flags s.i
      let s := { s with i := s.i + 1 }
      if flag ≠ 0 then
        match height with
        | 0 =>
          let (element, hashes) := nextElement s.hashes
          (element, { s with hashes := hashes, matched := s.matched.map (· ++ [element]) })
        | height + 1 =>
          let (left, s) := calculatedMerkleRootFlexible flags height s
          let (right, s) := calculatedMerkleRootFlexible flags height s
          let right := if right = none then left else right
          (hash256 c (dataAdd left right), s)
      else
        let (element, hashes) := nextElement s.hashes
        (element, { s with hashes := hashes })

/-- The root and the matches. -/
def calculatedMerkleRootMaestro (block : MerkleBlock) (matched : Option Datas) : Data × Option Datas :=
  if !MerkleBlockValid block then (none, matched)
  else
    let (root, s) := calculatedMerkleRootFlexible c (merkleFlags block) (treeHeight block) ⟨0, merkleHashes block, matched⟩
    (root, s.matched)

def calculatedMerkleRoot (block : MerkleBlock) : Data := (calculatedMerkleRootMaestro c block none).1

def matchingTxIdsIfValidRoot (block : MerkleBlock) : Datas :=
  let (root, matched) := calculatedMerkleRootMaestro c block (some [])
  if root = none || merkleRoot block = none || !dataEqual root (merkleRoot block) then [] else matched.getD []

/-! ## The message as lists -/

/-- Bit 0 of the first byte first. -/
@[irreducible] def flagBits (flags : Data) : List Bool :=
  (List.range (flagCount flags)).map fun i => decide (flagAt flags i ≠ 0)

/-- The hashes the message carries. -/
def carriedHashes (block : MerkleBlock) : List Bytes := (merkleHashes block).map Data.toBytes

/-- `hash256` of the children; a NULL right child is a copy of the left one. -/
def hashChildren (left right : Option Bytes) : Bytes :=
  c.sha256 (c.sha256 (Data.toBytes left ++ Data.toBytes (right.or left)))

/-- The tree the flags and the count describe over the carried hashes. -/
def merkleTree (block : MerkleBlock) : Merkle.Partial Bytes :=
  Merkle.tree (treeHeight block) (flagBits (merkleFlags block)) (carriedHashes block)

theorem hashChildren_dupRight : Merkle.DupRight (hashChildren c) := fun _ => rfl

theorem merkleHashesFrom_eq {count : Nat} {ptr : Bytes} {hashes : Datas} (h : merkleHashesFrom count ptr = some hashes) :
    hashes = (hashes.map Data.toBytes).map some ∧ ∀ b ∈ hashes.map Data.toBytes, b.length = 32 := by
  induction count generalizing ptr hashes with
  | zero =>
    obtain rfl := Option.some.inj h
    simp
  | succ count ih =>
    simp only [merkleHashesFrom] at h
    split at h
    · cases h
    rename_i hlen
    rcases Option.map_eq_some_iff.mp h with ⟨rest, hrest, rfl⟩
    obtain ⟨heq, hall⟩ := ih hrest
    refine ⟨?_, ?_⟩
    · rw [List.map_cons, List.map_cons, ← heq]
      rfl
    · intro b hb
      rcases List.mem_cons.mp hb with rfl | hb
      · rw [toBytes_some, List.length_take]; omega
      · exact hall b hb

theorem merkleHashes_spec (block : MerkleBlock) :
    merkleHashes block = (carriedHashes block).map some ∧ ∀ b ∈ carriedHashes block, b.length = 32 := by
  unfold carriedHashes merkleHashes
  split
  · simp
  rcases readVarInt (block.data.toBytes.drop 84) with ⟨count, ptr⟩
  dsimp only
  cases h : merkleHashesFrom count ptr with
  | none => simp
  | some hashes => exact merkleHashesFrom_eq h

/-- The guard compares the last two carried hashes. -/
theorem merkleBlockValid_iff (block : MerkleBlock) :
    MerkleBlockValid block = true ↔ 80 ≤ block.data.length ∧
      (1 < (carriedHashes block).length →
        (carriedHashes block)[(carriedHashes block).length - 1]? ≠ (carriedHashes block)[(carriedHashes block).length - 2]?) := by
  rw [MerkleBlockValid, (merkleHashes_spec block).1]
  generalize carriedHashes block = hashes
  rw [List.length_map]
  by_cases h : 1 < hashes.length
  · rw [if_pos h]
    simp [h, List.getElem?_eq_getElem (show hashes.length - 1 < hashes.length by omega),
      List.getElem?_eq_getElem (show hashes.length - 2 < hashes.length by omega), Bool.eq_false_iff]
  · rw [if_neg h]
    simp [h]

theorem nextElement_map (hashes : List Bytes) :
    nextElement (hashes.map some) = (hashes.head?, hashes.tail.map some) := by
  cases hashes <;> rfl

theorem drop_flagBits {flags : Data} {i : Nat} (h : i < flagCount flags) :
    (flagBits flags).drop i = decide (flagAt flags i ≠ 0) :: (flagBits flags).drop (i + 1) := by
  have hlen : i < (flagBits flags).length := by rw [flagBits, List.length_map, List.length_range]; exact h
  rw [List.drop_eq_getElem_cons hlen]
  simp only [flagBits, List.getElem_map, List.getElem_range]

theorem flagBits_drop_nil {flags : Data} {i : Nat} (h : flagCount flags ≤ i) : (flagBits flags).drop i = [] := by
  rw [List.drop_eq_nil_iff, flagBits, List.length_map, List.length_range]
  exact h

theorem hash256_dataAdd (left right : Data) :
    hash256 c (dataAdd left (if right = none then left else right)) = some (hashChildren c left right) := by
  cases right <;> rfl

/-! ## The walk reads the tree -/

theorem flexible_spent {flags : Data} {height : Nat} {s : WalkState} (h : flagCount flags ≤ s.i) :
    calculatedMerkleRootFlexible c flags height s = (none, s) := by
  cases height <;> rw [calculatedMerkleRootFlexible, if_pos h]

theorem flexible_unflagged {flags : Data} {height : Nat} {s : WalkState} (h : s.i < flagCount flags)
    (hflag : flagAt flags s.i = 0) :
    calculatedMerkleRootFlexible c flags height s =
      ((nextElement s.hashes).1, { s with i := s.i + 1, hashes := (nextElement s.hashes).2 }) := by
  cases height <;> simp [calculatedMerkleRootFlexible, Nat.not_le.mpr h, hflag]

theorem flexible_leaf {flags : Data} {s : WalkState} (h : s.i < flagCount flags)
    (hflag : flagAt flags s.i ≠ 0) :
    calculatedMerkleRootFlexible c flags 0 s =
      ((nextElement s.hashes).1,
        ⟨s.i + 1, (nextElement s.hashes).2, s.matched.map (· ++ [(nextElement s.hashes).1])⟩) := by
  simp [calculatedMerkleRootFlexible, Nat.not_le.mpr h, hflag]

theorem flexible_node {flags : Data} {height : Nat} {s sl sr : WalkState} {left right : Data}
    (h : s.i < flagCount flags) (hflag : flagAt flags s.i ≠ 0)
    (hl : calculatedMerkleRootFlexible c flags height { s with i := s.i + 1 } = (left, sl))
    (hr : calculatedMerkleRootFlexible c flags height sl = (right, sr)) :
    calculatedMerkleRootFlexible c flags (height + 1) s = (some (hashChildren c left right), sr) := by
  simp [calculatedMerkleRootFlexible, Nat.not_le.mpr h, hflag, hl, hr, hash256_dataAdd]

theorem flexible_eq_read (flags : Data) (height i : Nat) (hashes : List Bytes) (matched : Option Datas) :
    ∃ i', (flagBits flags).drop i' = (Merkle.read height ((flagBits flags).drop i) hashes).2.1 ∧
      calculatedMerkleRootFlexible c flags height ⟨i, hashes.map some, matched⟩ =
        ((Merkle.read height ((flagBits flags).drop i) hashes).1.value (hashChildren c),
          ⟨i', (Merkle.read height ((flagBits flags).drop i) hashes).2.2.map some,
            matched.map (· ++ (Merkle.read height ((flagBits flags).drop i) hashes).1.matched)⟩) := by
  induction height generalizing i hashes matched with
  | zero =>
    by_cases h : i < flagCount flags
    · rw [drop_flagBits h]
      refine ⟨i + 1, ?_⟩
      by_cases hflag : flagAt flags i = 0
      · rw [flexible_unflagged c h hflag, nextElement_map]
        simp [hflag, Merkle.read_false, Merkle.Partial.value, Merkle.Partial.matched]
      · rw [flexible_leaf c h hflag, nextElement_map]
        simp [hflag, Merkle.read, Merkle.Partial.value, Merkle.Partial.matched]
    · have hnil := flagBits_drop_nil (Nat.not_lt.mp h)
      rw [flexible_spent c (Nat.not_lt.mp h), hnil, Merkle.read_nil]
      exact ⟨i, hnil, by simp [Merkle.Partial.matched, Merkle.Partial.value]⟩
  | succ height ih =>
    by_cases h : i < flagCount flags
    · rw [drop_flagBits h]
      by_cases hflag : flagAt flags i = 0
      · rw [flexible_unflagged c h hflag, nextElement_map]
        refine ⟨i + 1, ?_⟩
        simp [hflag, Merkle.read_false, Merkle.Partial.value, Merkle.Partial.matched]
      · obtain ⟨il, hil, hl⟩ := ih (i + 1) hashes matched
        obtain ⟨ir, hir, hr⟩ := ih il _ _
        rw [hil] at hir hr
        rw [flexible_node c h hflag hl hr]
        refine ⟨ir, ?_⟩
        simp [hflag, Merkle.read, hir, Merkle.Partial.value, Merkle.Partial.matched, Function.comp_def]
    · have hnil := flagBits_drop_nil (Nat.not_lt.mp h)
      rw [flexible_spent c (Nat.not_lt.mp h), hnil, Merkle.read_nil]
      exact ⟨i, hnil, by simp [Merkle.Partial.matched, Merkle.Partial.value]⟩

theorem walk_eq_tree (flags : Data) (height : Nat) (hashes : List Bytes) (matched : Option Datas) :
    ∃ s, calculatedMerkleRootFlexible c flags height ⟨0, hashes.map some, matched⟩ =
        ((Merkle.tree height (flagBits flags) hashes).value (hashChildren c), s) ∧
      s.matched = matched.map (· ++ (Merkle.tree height (flagBits flags) hashes).matched) := by
  obtain ⟨i, _, hwalk⟩ := flexible_eq_read c flags height 0 hashes matched
  rw [List.drop_zero] at hwalk
  exact ⟨_, hwalk, rfl⟩

theorem walk_from_start (block : MerkleBlock) (matched : Option Datas) :
    ∃ s, calculatedMerkleRootFlexible c (merkleFlags block) (treeHeight block) ⟨0, merkleHashes block, matched⟩ =
        ((merkleTree block).value (hashChildren c), s) ∧ s.matched = matched.map (· ++ (merkleTree block).matched) := by
  rw [(merkleHashes_spec block).1]
  exact walk_eq_tree c (merkleFlags block) (treeHeight block) (carriedHashes block) matched

theorem calculatedMerkleRootMaestro_eq (block : MerkleBlock) (matched : Option Datas) :
    calculatedMerkleRootMaestro c block matched =
      if MerkleBlockValid block then
        ((merkleTree block).value (hashChildren c), matched.map (· ++ (merkleTree block).matched))
      else (none, matched) := by
  obtain ⟨s, hs, hm⟩ := walk_from_start c block matched
  unfold calculatedMerkleRootMaestro
  rw [hs, ← hm]
  dsimp only
  cases MerkleBlockValid block with
  | true => rw [if_neg (by decide), if_pos rfl]
  | false => rw [if_pos (by decide), if_neg (by decide)]

theorem calculatedMerkleRoot_eq (block : MerkleBlock) :
    calculatedMerkleRoot c block = if MerkleBlockValid block then (merkleTree block).value (hashChildren c) else none := by
  rw [calculatedMerkleRoot, calculatedMerkleRootMaestro_eq]
  cases MerkleBlockValid block with
  | true => rw [if_pos rfl, if_pos rfl]
  | false => rw [if_neg (by decide), if_neg (by decide)]

/-- The block passes `MerkleBlockValid` and its tree has the root of the header. -/
def RootAccepted (block : MerkleBlock) : Prop :=
  MerkleBlockValid block = true ∧ ∃ root, (merkleTree block).value (hashChildren c) = some root ∧ merkleRoot block = some root

/-- The two tests at the end. -/
theorem root_tests {root header : Data} :
    (root = none || header = none || !dataEqual root header) = false ↔ ∃ r, root = some r ∧ header = some r := by
  cases root with
  | none => simp
  | some a =>
    cases header with
    | none => simp
    | some b =>
      simp
      exact eq_comm

theorem matchingTxIds_accepted {block : MerkleBlock} (h : RootAccepted c block) :
    matchingTxIdsIfValidRoot c block = (merkleTree block).matched := by
  obtain ⟨hv, hroot⟩ := h
  rw [matchingTxIdsIfValidRoot, calculatedMerkleRootMaestro_eq, hv, if_pos rfl]
  dsimp only
  rw [root_tests.mpr hroot, if_neg (by decide), Option.map_some, Option.getD_some, List.nil_append]

theorem matchingTxIds_rejected {block : MerkleBlock} (h : ¬ RootAccepted c block) :
    matchingTxIdsIfValidRoot c block = [] := by
  rw [matchingTxIdsIfValidRoot, calculatedMerkleRootMaestro_eq]
  cases hv : MerkleBlockValid block with
  | false =>
    rw [if_neg (show ¬ false = true by decide)]
    rfl
  | true =>
    have hroot : ¬ _ := fun hr => h ⟨hv, root_tests.mp hr⟩
    rw [Bool.not_eq_false] at hroot
    rw [if_pos rfl]
    dsimp only
    rw [hroot, if_pos rfl]

theorem rootAccepted_iff (block : MerkleBlock) :
    RootAccepted c block ↔ ∃ root, calculatedMerkleRoot c block = some root ∧ merkleRoot block = some root := by
  rw [calculatedMerkleRoot_eq, RootAccepted]
  cases MerkleBlockValid block with
  | false => simp
  | true => rw [if_pos rfl]; exact and_iff_right rfl

/-! ## The height -/

theorem treeHeightFrom_spec (block : MerkleBlock) (rounds height : Nat) :
    height ≤ treeHeightFrom block rounds height ∧ treeHeightFrom block rounds height ≤ height + rounds ∧
      (∀ k, height ≤ k → k < treeHeightFrom block rounds height → 1 < calculateTreeWidth block k) ∧
      (treeHeightFrom block rounds height < height + rounds →
        calculateTreeWidth block (treeHeightFrom block rounds height) ≤ 1) := by
  induction rounds generalizing height with
  | zero =>
    refine ⟨Nat.le_refl _, Nat.le_refl _, ?_, ?_⟩
    · intro k hk hlt
      simp only [treeHeightFrom] at hlt
      omega
    · intro h
      simp [treeHeightFrom] at h
  | succ rounds ih =>
    rw [treeHeightFrom]
    split
    · rename_i hw
      obtain ⟨h1, h2, h3, h4⟩ := ih (height + 1)
      refine ⟨by omega, by omega, ?_, ?_⟩
      · intro k hk hlt
        rcases Nat.eq_or_lt_of_le hk with rfl | hk
        · exact hw
        · exact h3 k hk hlt
      · intro h
        exact h4 (by omega)
    · rename_i hw
      exact ⟨Nat.le_refl _, by omega, fun k hk hlt => by omega, fun _ => by omega⟩

theorem calculateTreeWidth_31 (block : MerkleBlock) : calculateTreeWidth block 31 ≤ 1 := by
  unfold calculateTreeWidth intOfUInt32
  have h := Nat.mod_lt (MerkleBlockTransactionCount block + 2 ^ 31 + (2 ^ 32 - 1)) (show 0 < 2 ^ 32 by decide)
  rw [Nat.shiftRight_eq_div_pow]
  split <;> omega

/-- The loop ends. -/
theorem calculateTreeWidth_treeHeight (block : MerkleBlock) : calculateTreeWidth block (treeHeight block) ≤ 1 := by
  obtain ⟨_, hle, _, hend⟩ := treeHeightFrom_spec block 31 0
  unfold treeHeight
  generalize treeHeightFrom block 31 0 = height at hle hend
  rcases Nat.lt_or_ge height 31 with h | h
  · exact hend (by omega)
  · obtain rfl : height = 31 := by omega
    exact calculateTreeWidth_31 block

/-- The height of the tree over as many leaves, while the count fits an `int`. -/
theorem treeHeight_eq_clog {block : MerkleBlock} {n : Nat} (hn : MerkleBlockTransactionCount block = n) (h0 : 0 < n)
    (hlt : n < 2 ^ 31) : treeHeight block = Nat.clog 2 n := by
  have hwidth : ∀ k ≤ 31, 1 < calculateTreeWidth block k ↔ 2 ^ k < n := by
    intro k hk
    have hpow : 2 ^ k ≤ 2 ^ 31 := Nat.pow_le_pow_right (by decide) hk
    have hpos : 0 < 2 ^ k := Nat.two_pow_pos k
    have hmod : (n + 2 ^ k + (2 ^ 32 - 1)) % 2 ^ 32 = n + 2 ^ k - 1 := by omega
    have hdiv : (n + 2 ^ k - 1) / 2 ^ k < 2 ^ 31 := by
      rw [Nat.div_lt_iff_lt_mul hpos]
      generalize 2 ^ k = width at hpos
      omega
    unfold calculateTreeWidth intOfUInt32
    rw [hn, hmod, Nat.shiftRight_eq_div_pow, if_pos hdiv]
    have htwo : 2 ≤ (n + 2 ^ k - 1) / 2 ^ k ↔ 2 * 2 ^ k ≤ n + 2 ^ k - 1 := Nat.le_div_iff_mul_le hpos
    omega
  obtain ⟨_, hle, hlow, hend⟩ := treeHeightFrom_spec block 31 0
  unfold treeHeight
  generalize treeHeightFrom block 31 0 = height at hle hlow hend
  have htop : n ≤ 2 ^ height := by
    rcases Nat.lt_or_ge height 31 with h | h
    · have := hend (by omega)
      have := hwidth height (by omega)
      omega
    · obtain rfl : height = 31 := by omega
      omega
  apply Nat.le_antisymm
  · by_contra hgt
    have hbelow := (hwidth (Nat.clog 2 n) (by omega)).mp (hlow _ (Nat.zero_le _) (by omega))
    have := Nat.le_pow_clog (b := 2) (by decide) n
    omega
  · exact Nat.clog_le_of_le_pow htop

end BitcoinSpoon
