/-
  BitcoinSpoon.Database.Chain — whether the stored headers name one another
  (`code/Database.c`).

  A block is stored above the one it names, at the height `DatabaseHeightOf` returns for it.
  Two things break the chain. The height can be that of another hash with the same four
  bytes, since the cache keeps no more of it. And of two blocks for one height the smaller
  hash replaces the other one, whatever was stored above it: that block stays, and names a
  block that is gone.

  `Fits` rules both out, and a run keeps the chain exactly if all of its blocks fit
  (`chain_iff`).
-/

import BitcoinSpoon.Database.Blocks

namespace BitcoinSpoon.Database

open Wire Loop

variable {search : BinarySearch} {c : Crypto} {network : Network} {self next : BlockDatabase} {blocks : BlockTable}

/-- Of two added blocks with one height between them the upper one names the lower one. -/
def BlockTable.Chained (blocks : BlockTable) : Prop :=
  ∀ below ∈ blocks.rows, ∀ above ∈ blocks.rows, above.height.toInt = below.height.toInt + 1 → below.added.isSome →
    ∀ block, above.added = some block → blockPrevHash block = some below.hash

instance (blocks : BlockTable) : Decidable blocks.Chained :=
  inferInstanceAs (Decidable (∀ below ∈ blocks.rows, ∀ above ∈ blocks.rows, above.height.toInt = below.height.toInt + 1 →
    below.added.isSome → ∀ block ∈ above.added, blockPrevHash block = some below.hash))

/-! ## The height of the parent -/

/-- The height under the four bytes of the hash, or 0. -/
def BlockDatabase.cachedHeight (search : BinarySearch) (self : BlockDatabase) (hash : Data) : Int32 :=
  (dataGetInt (self.blockHeightCache.get search (hashPrefixOf hash.toBytes))).getD 0

/-- A height above 0 in the cache, else the one of the table. -/
def BlockDatabase.heightFor (search : BinarySearch) (network : Network) (self : BlockDatabase) (hash : Data) : Int32 :=
  if 0 < self.cachedHeight search hash then self.cachedHeight search hash else tableHeightOf network self.blocks hash

theorem heightOf_eq {hash : Data} (h : hash.length = 32) : (databaseHeightOf search network self hash).1 = self.heightFor search network hash := by
  rw [databaseHeightOf, if_neg (not_not.2 h), BlockDatabase.heightFor, tableHeightOf_eq]
  dsimp only
  rw [← BlockDatabase.cachedHeight]
  split
  · rfl
  · cases self.blocks.withHash hash.toBytes <;> rfl

/-- A row at the height of the parent is the parent, unless the height is from the cache. -/
theorem heightFor_row {hash : Data} (hhash : hash.length = 32) (htable : ¬ 0 < self.cachedHeight search hash) {row : BlockRow}
    (hrow : row ∈ self.blocks.rows) (hheight : row.height = self.heightFor search network hash) : hash = some row.hash := by
  have hpos := row.height_pos
  rw [BlockDatabase.heightFor, if_neg htable, tableHeightOf_eq] at hheight
  cases hfound : self.blocks.withHash hash.toBytes with
  | none =>
    rw [hfound] at hheight
    dsimp only at hheight
    rw [hheight] at hpos
    split at hpos <;> exact absurd hpos (by decide)
  | some found =>
    rw [hfound] at hheight
    obtain ⟨hmem, heq⟩ := withHash_some hfound
    rw [row_unique hrow hmem hheight, heq]
    cases hash with
    | none => cases hhash
    | some bytes => rfl

/-- Only the rows at a cached height can be others than the parent. -/
theorem parent_below_iff {hash : Data} (h : hash.length = 32) :
    (∀ below ∈ self.blocks.rows, below.height = self.heightFor search network hash → below.added.isSome → hash = some below.hash) ↔
      ∀ below ∈ self.blocks.rows, below.height = self.cachedHeight search hash → below.added.isSome → hash = some below.hash := by
  refine forall₂_congr fun below hmem => ?_
  by_cases hcached : 0 < self.cachedHeight search hash
  · rw [BlockDatabase.heightFor, if_pos hcached]
  · constructor
    · intro _ hheight
      exact absurd (hheight ▸ below.height_pos) hcached
    · exact fun _ hheight _ => heightFor_row h hcached hmem hheight

/-! ## One block -/

/-- The new row has two neighbours; all others are as before. -/
theorem chained_put (h : blocks.Chained) {row : BlockRow} {block : MerkleBlock} (hadded : row.added = some block) :
    (blocks.put row).Chained ↔
      (∀ below ∈ blocks.rows, row.height.toInt = below.height.toInt + 1 → below.added.isSome → blockPrevHash block = some below.hash) ∧
        ∀ above ∈ blocks.rows, above.height.toInt = row.height.toInt + 1 →
          ∀ other, above.added = some other → blockPrevHash other = some row.hash := by
  have hkept : ∀ {other : BlockRow}, other ∈ blocks.rows → other.height.toInt ≠ row.height.toInt → other ∈ (blocks.put row).rows :=
    fun hmem hne => mem_put.2 (Or.inr ⟨hmem, fun heq => hne (congrArg Int32.toInt heq)⟩)
  constructor
  · intro hput
    constructor
    · intro below hbelow hheight hsome
      exact hput below (hkept hbelow (by omega)) row (mem_put.2 (Or.inl rfl)) hheight hsome block hadded
    · intro above habove hheight other hsome
      exact hput row (mem_put.2 (Or.inl rfl)) above (hkept habove (by omega)) hheight (by rw [hadded]; rfl) other hsome
  · rintro ⟨hdown, hup⟩ below hbelow above habove hheight hsome other hother
    rcases mem_put.1 hbelow with rfl | ⟨hold, -⟩
    · rcases mem_put.1 habove with rfl | ⟨hold, -⟩
      · omega
      · exact hup above hold hheight other hother
    · rcases mem_put.1 habove with rfl | ⟨hold', -⟩
      · rw [hadded] at hother
        cases hother
        exact hdown below hold hheight hsome
      · exact h below hold above hold' hheight hsome other hother

/-- If the block is going to be stored: a height that the cache has for its parent is the
    height of no other added block, and the added block above its place, if there is one,
    names it. -/
def Fits (search : BinarySearch) (c : Crypto) (network : Network) (self : BlockDatabase) (block : MerkleBlock) : Prop :=
  let parent := blockPrevHash block
  let hash := (Sync.blockHash c block).toBytes
  let prevHeight := self.heightFor search network parent
  MerkleBlockValid block = true → ¬ prevHeight < 0 → prevHeight ≠ Int32.maxValue → self.blocks.admits (prevHeight + 1) hash = true →
    (∀ below ∈ self.blocks.rows, below.height = self.cachedHeight search parent → below.added.isSome → parent = some below.hash) ∧
      ∀ above ∈ self.blocks.rows, above.height.toInt = prevHeight.toInt + 2 →
        ∀ other, above.added = some other → blockPrevHash other = some hash

theorem addBlock_chained (h : self.blocks.Chained) {block : MerkleBlock} {stored : Bool}
    (hnext : databaseAddBlock search c network self block = some (stored, next)) :
    next.blocks.Chained ↔ Fits search c network self block := by
  rcases addBlock_cases hnext with ⟨hinvalid, rfl, -⟩ | ⟨hvalid, prevHeight, found, hfound, hcases⟩
  · exact iff_of_true h fun hvalid => absurd hvalid (by rw [hinvalid]; decide)
  have hblocks : found.blocks = self.blocks := by
    rw [← heightOf_blocks search network self (blockPrevHash block), hfound]
  have hprev : prevHeight = self.heightFor search network (blockPrevHash block) := by
    rw [← heightOf_eq (parent_length hvalid), hfound]
  rcases hcases with ⟨hneg, rfl, -⟩ | ⟨hnonneg, hmax, ⟨hrefused, rfl, -⟩ | ⟨hadmitted, -, row, hheight, hhash, hadded, rfl⟩⟩
  · rw [heightOf_blocks, hblocks]
    exact iff_of_true h fun _ hnonneg => absurd (hprev ▸ hneg) hnonneg
  · rw [hblocks] at hrefused ⊢
    refine iff_of_true h fun _ _ _ hadmitted => ?_
    rw [← hprev, hrefused] at hadmitted
    cases hadmitted
  · have hrow : row.height.toInt = prevHeight.toInt + 1 := by rw [hheight, succ_toInt hnonneg hmax]
    show (found.blocks.put row).Chained ↔ _
    rw [hblocks] at hadmitted ⊢
    rw [chained_put h hadded, hrow]
    have hbelow : (∀ below ∈ self.blocks.rows, prevHeight.toInt + 1 = below.height.toInt + 1 → below.added.isSome →
          blockPrevHash block = some below.hash) ↔
        ∀ below ∈ self.blocks.rows, below.height = self.heightFor search network (blockPrevHash block) → below.added.isSome →
          blockPrevHash block = some below.hash := by
      refine forall₂_congr fun below _ => imp_congr_left ?_
      rw [← hprev, ← Int32.toInt_inj]
      omega
    rw [hbelow, parent_below_iff (parent_length hvalid), hhash]
    constructor
    · rintro ⟨hdown, hup⟩ _ _ _ _
      refine ⟨hdown, fun above hmem habove => hup above hmem ?_⟩
      rw [habove, ← hprev]
      omega
    · intro hfits
      obtain ⟨hdown, hup⟩ := hfits hvalid (hprev ▸ hnonneg) (hprev ▸ hmax) (hprev ▸ hadmitted)
      refine ⟨hdown, fun above hmem habove => hup above hmem ?_⟩
      rw [habove, ← hprev]
      omega

/-! ## A run -/

def addStep (search : BinarySearch) (c : Crypto) (network : Network) (self : BlockDatabase) (block : MerkleBlock) : Option BlockDatabase :=
  (databaseAddBlock search c network self block).map Prod.snd

/-- A block whose height overflows is not stored. -/
theorem fits_of_overflow {block : MerkleBlock} (h : databaseAddBlock search c network self block = none) :
    Fits search c network self block := by
  obtain ⟨hvalid, hmax⟩ := overflow_of_none h
  rw [heightOf_eq (parent_length hvalid)] at hmax
  exact fun _ _ hfits => absurd hmax hfits

/-- In every state of a run from the starting blocks the added blocks form a chain exactly if
    every block fits where it is added. -/
theorem chain_iff (search : BinarySearch) (c : Crypto) (network : Network) (added : List MerkleBlock) :
    Throughout (addStep search c network) (fun self => self.blocks.Chained) ⟨network.initialBlocks, .empty⟩ added ↔
      Along (addStep search c network) (Fits search c network) ⟨network.initialBlocks, .empty⟩ added := by
  refine @reached_iff_along _ _ _ (fun self : BlockDatabase => self.blocks.Chained) (fun _ => True) _
    (fun self block next _ hgood hnext => ?_) (fun self block hnone => fits_of_overflow (Option.map_eq_none_iff.1 hnone)) _ _ trivial
    (fun below hbelow _ _ _ hsome => ?_)
  · obtain ⟨⟨stored, db⟩, hadd, rfl⟩ := Option.map_eq_some_iff.1 hnext
    exact ⟨trivial, addBlock_chained hgood hadd⟩
  · rw [network.not_added below hbelow] at hsome
    cases hsome

/-- A header that names the parent. -/
def headerOn (parent : Data) (nonce : UInt8) : MerkleBlock where
  data := some (List.replicate 4 0 ++ parent.toBytes.take 32 ++ List.replicate 43 0 ++ [nonce])
  length_lt := by
    simp only [length_some, List.length_append, List.length_replicate, List.length_take, List.length_singleton]
    omega

/-- The third block replaces the first one, and the second one stays above it. -/
theorem not_chain :
    ¬ Throughout (addStep .halving plainCrypto network2015) (fun self => self.blocks.Chained) ⟨network2015.initialBlocks, .empty⟩
      [headerOn blockZero 1, headerOn (Sync.blockHash plainCrypto (headerOn blockZero 1)) 0, headerOn blockZero 0] := by
  intro h
  have hwrong : (after (addStep .halving plainCrypto network2015) ⟨network2015.initialBlocks, .empty⟩
      [headerOn blockZero 1, headerOn (Sync.blockHash plainCrypto (headerOn blockZero 1)) 0, headerOn blockZero 0]).map
        (fun self => decide self.blocks.Chained) = some false := by decide +kernel
  obtain ⟨reached, hreached, hfalse⟩ := Option.map_eq_some_iff.1 hwrong
  exact of_decide_eq_false hfalse (h _ (List.prefix_refl _) reached hreached)

end BitcoinSpoon.Database
