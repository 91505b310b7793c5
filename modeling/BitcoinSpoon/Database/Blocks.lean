/-
  BitcoinSpoon.Database.Blocks — the table of blocks and the cache of their heights
  (`code/Database.c`).

  A block is stored one above the block it names as the previous one; of two for one height
  the table keeps the one with the smaller hash. `DatabaseHeightOf` keeps the heights it has
  found, and `DatabaseAddBlock` those it has stored, by the first four bytes of the hash; a
  second one under the same bytes makes them -1. A height above 0 in the cache is returned
  without a look at the rest of the hash or at the table.

  Statements are executed as they are written. `none` is a sum that overflows.
-/

import BitcoinSpoon.Loop.Runs
import BitcoinSpoon.Manager.Sync
import BitcoinSpoon.Util.RoundTrips

namespace BitcoinSpoon.Database

open Wire Loop KeysAndValues

/-! ## The table -/

/-- `*(int32_t*)hash.bytes` -/
def hashPrefixOf (hash : Bytes) : Int32 := (UInt32.ofNat (leNat (hash.take 4))).toInt32

/-- A row; `height` is the primary key. `added` is no column: it is the block, if
    `DatabaseAddBlock` has stored it. -/
structure BlockRow where
  height : Int32
  hash : Bytes
  hashPrefix : Int32
  merkleRoot : Data
  time : Nat
  added : Option MerkleBlock
  height_pos : 0 < height
  hashPrefix_eq : hashPrefix = hashPrefixOf hash

/-- The rows in the order of their heights. -/
structure BlockTable where
  rows : List BlockRow
  sorted : rows.Pairwise fun a b => a.height < b.height

def BlockTable.atHeight (blocks : BlockTable) (height : Int32) : Option BlockRow := blocks.rows.find? fun row => row.height = height

/-- ``where `hashPrefix`=?``, and the first of these rows with the hash. -/
def BlockTable.withHash (blocks : BlockTable) (hash : Bytes) : Option BlockRow :=
  (blocks.rows.filter fun row => row.hashPrefix = hashPrefixOf hash).find? fun row => row.hash = hash

/-- `insert`, or `replace`. -/
def BlockTable.put (blocks : BlockTable) (new : BlockRow) : BlockTable where
  rows := blocks.rows.filter (fun row => row.height < new.height) ++ new :: blocks.rows.filter fun row => new.height < row.height
  sorted := by
    refine List.pairwise_append.2 ⟨blocks.sorted.filter _, List.pairwise_cons.2 ⟨fun row hrow => ?_, blocks.sorted.filter _⟩, ?_⟩
    · exact of_decide_eq_true (List.mem_filter.1 hrow).2
    · intro a ha b hb
      have hbelow : a.height < new.height := of_decide_eq_true (List.mem_filter.1 ha).2
      rcases List.mem_cons.1 hb with rfl | hb
      · exact hbelow
      · exact Int32.lt_trans hbelow (of_decide_eq_true (List.mem_filter.1 hb).2)

/-! ## The cache -/

def HASH_CACHE_SIZE : Nat := 15000

/-- The heights by the first bytes of the hashes. -/
structure HeightCache where
  elements : Elements
  ascending : Ascending defaultOrder elements
  ints : ∀ item ∈ elements, ∃ height : Int32, item.2 = dataInt height

def HeightCache.empty : HeightCache := ⟨[], ascending_nil, by simp⟩

/-- `trimBlockHeightCacheIfNeeded`: the last one goes as long as there are
    `HASH_CACHE_SIZE`. -/
def HeightCache.trim (cache : HeightCache) : HeightCache where
  elements := cache.elements.take (HASH_CACHE_SIZE - 1)
  ascending := cache.ascending.sublist (List.take_sublist _ _)
  ints item hitem := cache.ints item (List.mem_of_mem_take hitem)

variable (search : BinarySearch)

def HeightCache.get (cache : HeightCache) (hashPrefix : Int32) : Data :=
  KeysAndValues.dictionaryGetValue search defaultOrder cache.elements (dataInt hashPrefix).toBytes

def HeightCache.put (cache : HeightCache) (hashPrefix height : Int32) : HeightCache where
  elements := KeysAndValues.dictionaryAddCopy search defaultOrder cache.elements (dataInt hashPrefix).toBytes (dataInt height)
  ascending := ascending_addCopy cache.ascending _ _
  ints item hitem := by
    have hget := (@getValue_iff_mem search _ _ (ascending_addCopy cache.ascending _ _) item.1 item.2).2 hitem
    rw [getValue_addCopy cache.ascending] at hget
    split at hget
    · exact ⟨height, (Option.some.inj hget).symm⟩
    · exact cache.ints item ((getValue_iff_mem cache.ascending _ _).1 hget)

/-- What both calls do with a height they have found or stored. -/
def HeightCache.remember (cache : HeightCache) (hashPrefix height : Int32) : HeightCache :=
  let num := cache.get search hashPrefix
  cache.trim.put search hashPrefix (if num.length ≠ 0 then -1 else height)

/-! ## The calls -/

/-- The network: its starting blocks, which nobody has added, and its first block. -/
structure Network where
  initialBlocks : BlockTable
  firstBlockHash : Data
  not_added : ∀ row ∈ initialBlocks.rows, row.added = none

def blockZero : Data := some
  [0x6f, 0xe2, 0x8c, 0x0a, 0xb6, 0xf1, 0xb3, 0x72, 0xc1, 0xa6, 0xa2, 0x46, 0xae, 0x63, 0xf7, 0x4f,
    0x93, 0x1e, 0x83, 0x65, 0xe1, 0x5a, 0x08, 0x9c, 0x68, 0xd6, 0x19, 0x00, 0x00, 0x00, 0x00, 0x00]

structure BlockDatabase where
  blocks : BlockTable
  blockHeightCache : HeightCache

variable (c : Crypto) (network : Network)

/-- Every value in the cache has four bytes, so `DataGetInt` does not abort. -/
def databaseHeightOf (self : BlockDatabase) (hash : Data) : Int32 × BlockDatabase :=
  if hash.length ≠ 32 then (-1, self)
  else
    let hashPrefix := hashPrefixOf hash.toBytes
    let value := (dataGetInt (self.blockHeightCache.get search hashPrefix)).getD 0
    if 0 < value then (value, self)
    else
      match self.blocks.withHash hash.toBytes with
      | some row => (row.height, { self with blockHeightCache := self.blockHeightCache.remember search hashPrefix row.height })
      | none => (if dataEqual hash network.firstBlockHash then 0 else -1, self)

def blockPrevHash (block : MerkleBlock) : Data :=
  if block.data.length < 80 then none else some ((block.data.toBytes.drop 4).take 32)

def blockTimestamp (block : MerkleBlock) : Nat :=
  if block.data.length < 80 then 0 else leNat ((block.data.toBytes.drop 68).take 4)

/-- Nothing is stored at the height, or a block whose hash is greater. -/
def BlockTable.admits (blocks : BlockTable) (height : Int32) (hash : Bytes) : Bool :=
  match blocks.atHeight height with
  | none => true
  | some existing => dataCompare (some hash.reverse) (some existing.hash.reverse) < 0

theorem succ_toInt {height : Int32} (h : ¬ height < 0) (hmax : height ≠ Int32.maxValue) : (height + 1).toInt = height.toInt + 1 := by
  have hlow : 0 ≤ height.toInt := Int.not_lt.1 fun hneg => h (Int32.lt_iff_toInt_lt.2 hneg)
  have hhigh : height.toInt ≠ 2147483647 := fun heq => hmax (Int32.toInt_inj.1 heq)
  have hlt := height.toInt_lt
  rw [Int32.toInt_add]
  show (height.toInt + 1).bmod (2 ^ 32) = _
  rw [Int.bmod_eq_of_le (by omega) (by omega)]

theorem succ_pos {height : Int32} (h : ¬ height < 0) (hmax : height ≠ Int32.maxValue) : 0 < height + 1 := by
  have hlow : 0 ≤ height.toInt := Int.not_lt.1 fun hneg => h (Int32.lt_iff_toInt_lt.2 hneg)
  rw [Int32.lt_iff_toInt_lt, succ_toInt h hmax]
  show 0 < height.toInt + 1
  omega

/-- Whether it was stored. A block that is not found is looked for twice. -/
def databaseAddBlock (self : BlockDatabase) (block : MerkleBlock) : Option (Bool × BlockDatabase) :=
  if !MerkleBlockValid block then some (false, self)
  else
    let (prevHeight, self) := databaseHeightOf search network self (blockPrevHash block)
    if hprev : prevHeight < 0 then some (false, (databaseHeightOf search network self (blockPrevHash block)).2)
    else if hmax : prevHeight = Int32.maxValue then none
    else
      let hash := (Sync.blockHash c block).toBytes
      if self.blocks.admits (prevHeight + 1) hash then
        some (true,
          { blocks := self.blocks.put
              { height := prevHeight + 1
                hash := hash
                hashPrefix := hashPrefixOf hash
                merkleRoot := merkleRoot block
                time := blockTimestamp block
                added := some block
                height_pos := succ_pos hprev hmax
                hashPrefix_eq := rfl }
            blockHeightCache := self.blockHeightCache.remember search (hashPrefixOf hash) (prevHeight + 1) })
      else some (false, self)

/-- The cache stays. -/
def databaseResetAllBlocks (self : BlockDatabase) : BlockDatabase := { self with blocks := network.initialBlocks }

/-- The table alone: the height of the row with the hash. -/
def tableHeightOf (blocks : BlockTable) (hash : Data) : Int32 :=
  match blocks.rows.find? fun row => row.hash = hash.toBytes with
  | some row => row.height
  | none => if dataEqual hash network.firstBlockHash then 0 else -1

variable {search c network} {self next : BlockDatabase} {cache : HeightCache} {blocks : BlockTable}

/-! ## What the cache holds -/

/-- There is nothing under the four bytes, or a height. -/
theorem get_cases (search : BinarySearch) (cache : HeightCache) (hashPrefix : Int32) :
    cache.get search hashPrefix = none ∨ ∃ height, cache.get search hashPrefix = dataInt height := by
  rw [HeightCache.get, KeysAndValues.dictionaryGetValue]
  cases hget : dictionaryGetValueFlexible search defaultOrder cache.elements (dataInt hashPrefix).toBytes with
  | none => exact Or.inl rfl
  | some value =>
    obtain ⟨height, hvalue⟩ := cache.ints _ ((getValue_iff_mem cache.ascending _ _).1 hget)
    exact Or.inr ⟨height, hvalue⟩

theorem dataInt_inj {a b : Int32} (h : (dataInt a).toBytes = (dataInt b).toBytes) : a = b := by
  have hdata : dataInt a = dataInt b := congrArg some h
  have ha := dataGetInt_dataInt a
  rw [hdata, dataGetInt_dataInt] at ha
  exact (Option.some.inj ha).symm

theorem get_trim (hashPrefix : Int32) :
    cache.trim.get search hashPrefix = cache.get search hashPrefix ∨ cache.trim.get search hashPrefix = none := by
  rw [HeightCache.get, HeightCache.get, KeysAndValues.dictionaryGetValue, KeysAndValues.dictionaryGetValue]
  cases hget : dictionaryGetValueFlexible search defaultOrder cache.trim.elements (dataInt hashPrefix).toBytes with
  | none => exact Or.inr rfl
  | some value =>
    have hmem := List.mem_of_mem_take ((getValue_iff_mem cache.trim.ascending _ _).1 hget)
    rw [(getValue_iff_mem cache.ascending _ _).2 hmem]
    exact Or.inl rfl

theorem get_put (hashPrefix other height : Int32) : (cache.put search hashPrefix height).get search other =
    if other = hashPrefix then dataInt height else cache.get search other := by
  rw [HeightCache.get, HeightCache.put, KeysAndValues.dictionaryGetValue, getValue_addCopy cache.ascending]
  by_cases hother : other = hashPrefix
  · rw [if_pos hother, if_pos (by rw [hother])]
    rfl
  · rw [if_neg hother, if_neg fun heq => hother (dataInt_inj heq)]
    rfl

theorem get_empty (hashPrefix : Int32) : HeightCache.empty.get search hashPrefix = none := rfl

/-- Nothing in the cache is returned without a look at the table. -/
def Quiet (search : BinarySearch) (cache : HeightCache) : Prop :=
  ∀ hashPrefix height, cache.get search hashPrefix = dataInt height → ¬ 0 < height

theorem value_of_quiet (h : Quiet search cache) (hashPrefix : Int32) :
    ¬ 0 < (dataGetInt (cache.get search hashPrefix)).getD 0 := by
  rcases get_cases search cache hashPrefix with hnone | ⟨height, hheight⟩
  · rw [hnone]
    decide
  · rw [hheight, dataGetInt_dataInt]
    exact h hashPrefix height hheight

/-! ## Rows -/

theorem row_unique {a b : BlockRow} (ha : a ∈ blocks.rows) (hb : b ∈ blocks.rows) (h : a.height = b.height) : a = b := by
  have hnodup : (blocks.rows.map (·.height)).Nodup := List.pairwise_map.2 (blocks.sorted.imp fun hlt => Int32.ne_of_lt hlt)
  exact List.inj_on_of_nodup_map hnodup ha hb h

theorem atHeight_iff {row : BlockRow} {height : Int32} : blocks.atHeight height = some row ↔ row ∈ blocks.rows ∧ row.height = height := by
  constructor
  · intro h
    exact ⟨List.mem_of_find?_eq_some h, by simpa using List.find?_some h⟩
  · rintro ⟨hmem, hheight⟩
    obtain ⟨other, hother⟩ := Option.isSome_iff_exists.1
      (show (blocks.atHeight height).isSome from List.find?_isSome.2 ⟨row, hmem, by simpa using hheight⟩)
    have hsame : other.height = height := by simpa using List.find?_some hother
    rw [hother, row_unique (List.mem_of_find?_eq_some hother) hmem (hsame.trans hheight.symm)]

theorem mem_put {new row : BlockRow} : row ∈ (blocks.put new).rows ↔ row = new ∨ row ∈ blocks.rows ∧ row.height ≠ new.height := by
  have hne : row.height ≠ new.height ↔ row.height < new.height ∨ new.height < row.height := by
    rw [Ne, ← Int32.toInt_inj, Int32.lt_iff_toInt_lt, Int32.lt_iff_toInt_lt]
    omega
  rw [hne, BlockTable.put, List.mem_append, List.mem_cons, List.mem_filter, List.mem_filter, decide_eq_true_iff, decide_eq_true_iff]
  tauto

/-- The rows of the same four bytes have all rows with the hash. -/
theorem find_of_hashPrefix {α : Type} {hashOf : α → Bytes} {prefixes : α → Int32} (h : ∀ row, prefixes row = hashPrefixOf (hashOf row))
    (rows : List α) (hash : Bytes) :
    (rows.filter fun row => prefixes row = hashPrefixOf hash).find? (fun row => hashOf row = hash) =
      rows.find? fun row => hashOf row = hash := by
  rw [List.find?_filter]
  congr 1
  funext row
  by_cases hrow : hashOf row = hash
  · simp [hrow, h]
  · simp [hrow]

theorem withHash_eq (blocks : BlockTable) (hash : Bytes) : blocks.withHash hash = blocks.rows.find? fun row => row.hash = hash :=
  find_of_hashPrefix BlockRow.hashPrefix_eq blocks.rows hash

theorem tableHeightOf_eq (blocks : BlockTable) (hash : Data) : tableHeightOf network blocks hash =
    match blocks.withHash hash.toBytes with
    | some row => row.height
    | none => if dataEqual hash network.firstBlockHash then 0 else -1 := by
  rw [withHash_eq]
  rfl

theorem withHash_some {hash : Bytes} {row : BlockRow} (h : blocks.withHash hash = some row) : row ∈ blocks.rows ∧ row.hash = hash := by
  rw [withHash_eq] at h
  exact ⟨List.mem_of_find?_eq_some h, by simpa using List.find?_some h⟩

/-! ## What a call does -/

/-- The cache after a look at the table. -/
def BlockDatabase.looked (search : BinarySearch) (self : BlockDatabase) (hash : Bytes) : HeightCache :=
  match self.blocks.withHash hash with
  | some row => self.blockHeightCache.remember search row.hashPrefix row.height
  | none => self.blockHeightCache

theorem heightOf_quiet (h : Quiet search self.blockHeightCache) {hash : Data} (hlength : hash.length = 32) :
    databaseHeightOf search network self hash =
      (tableHeightOf network self.blocks hash, { self with blockHeightCache := self.looked search hash.toBytes }) := by
  rw [databaseHeightOf, if_neg (not_not.2 hlength), tableHeightOf_eq, BlockDatabase.looked]
  dsimp only
  rw [if_neg (value_of_quiet h _)]
  cases hrow : self.blocks.withHash hash.toBytes with
  | none => rfl
  | some row =>
    rw [← (withHash_some hrow).2, ← row.hashPrefix_eq]

theorem heightOf_blocks (search : BinarySearch) (network : Network) (self : BlockDatabase) (hash : Data) :
    (databaseHeightOf search network self hash).2.blocks = self.blocks := by
  rw [databaseHeightOf]
  split
  · rfl
  · dsimp only
    split
    · rfl
    · split <;> rfl

theorem length_of_valid {block : MerkleBlock} (h : MerkleBlockValid block = true) : 80 ≤ block.data.length := by
  rw [MerkleBlockValid] at h
  split at h
  · exact of_decide_eq_true (Bool.and_eq_true_iff.1 h).1
  · exact of_decide_eq_true h

theorem parent_length {block : MerkleBlock} (h : MerkleBlockValid block = true) : (blockPrevHash block).length = 32 := by
  have hlength := length_of_valid h
  rw [blockPrevHash, if_neg (Nat.not_lt.2 hlength), length_some, List.length_take, List.length_drop]
  have heq : block.data.toBytes.length = block.data.length := rfl
  omega

/-- A block is invalid; or its parent is not found; or it is stored above it, or not. -/
theorem addBlock_cases {block : MerkleBlock} {stored : Bool} (h : databaseAddBlock search c network self block = some (stored, next)) :
    (MerkleBlockValid block = false ∧ next = self ∧ stored = false) ∨
      MerkleBlockValid block = true ∧ ∃ prevHeight found, databaseHeightOf search network self (blockPrevHash block) = (prevHeight, found) ∧
        ((prevHeight < 0 ∧ next = (databaseHeightOf search network found (blockPrevHash block)).2 ∧ stored = false) ∨
          ¬ prevHeight < 0 ∧ prevHeight ≠ Int32.maxValue ∧
            ((found.blocks.admits (prevHeight + 1) (Sync.blockHash c block).toBytes = false ∧ next = found ∧ stored = false) ∨
              found.blocks.admits (prevHeight + 1) (Sync.blockHash c block).toBytes = true ∧ stored = true ∧
                ∃ row : BlockRow, row.height = prevHeight + 1 ∧ row.hash = (Sync.blockHash c block).toBytes ∧ row.added = some block ∧
                  next = ⟨found.blocks.put row, found.blockHeightCache.remember search row.hashPrefix row.height⟩)) := by
  rw [databaseAddBlock] at h
  split at h
  · rename_i hinvalid
    cases h
    exact Or.inl ⟨by simpa using hinvalid, rfl, rfl⟩
  rename_i hvalid
  obtain ⟨⟨prevHeight, found⟩, hfound⟩ : ∃ result, databaseHeightOf search network self (blockPrevHash block) = result := ⟨_, rfl⟩
  rw [hfound] at h
  refine Or.inr ⟨by simpa using hvalid, prevHeight, found, hfound, ?_⟩
  dsimp only at h
  split at h
  · rename_i hprev
    cases h
    exact Or.inl ⟨hprev, rfl, rfl⟩
  rename_i hprev
  refine Or.inr ⟨hprev, ?_⟩
  split at h
  · cases h
  rename_i hmax
  refine ⟨hmax, ?_⟩
  split at h
  · rename_i hadmits
    cases h
    exact Or.inr ⟨hadmits, rfl, _, rfl, rfl, rfl, rfl⟩
  · rename_i hadmits
    cases h
    exact Or.inl ⟨by simpa using hadmits, rfl, rfl⟩

theorem overflow_of_none {block : MerkleBlock} (h : databaseAddBlock search c network self block = none) :
    MerkleBlockValid block = true ∧ (databaseHeightOf search network self (blockPrevHash block)).1 = Int32.maxValue := by
  rw [databaseAddBlock] at h
  split at h
  · cases h
  rename_i hvalid
  refine ⟨by simpa using hvalid, ?_⟩
  dsimp only at h
  split at h
  · cases h
  split at h
  · assumption
  · split at h <;> cases h

/-! ## A network with one starting block -/

def hash2015 : Bytes :=
  [0x63, 0x97, 0xbb, 0x6a, 0xbd, 0x4f, 0xc5, 0x21, 0xc0, 0xd3, 0xf6, 0x07, 0x1b, 0x56, 0x50, 0x38,
    0x9f, 0x0b, 0x45, 0x51, 0xbc, 0x40, 0xb4, 0xe6, 0xb0, 0x67, 0x30, 0x69, 0x00, 0x00, 0x00, 0x00]

def merkleRoot2015 : Data := some
  [0x0c, 0x11, 0x3d, 0xf1, 0x18, 0x5e, 0x16, 0x2e, 0xe9, 0x2d, 0x03, 0x1f, 0xe2, 0x1d, 0x14, 0x00,
    0xff, 0x7d, 0x70, 0x5a, 0x3e, 0x9b, 0x9c, 0x86, 0x0e, 0xea, 0x85, 0x53, 0x13, 0xcd, 0x8c, 0xa2]

def network2015 : Network where
  initialBlocks :=
    ⟨[⟨2015, hash2015, hashPrefixOf hash2015, merkleRoot2015, 1233061996, none, by decide, rfl⟩], List.pairwise_singleton _ _⟩
  firstBlockHash := blockZero
  not_added row hrow := by rw [List.mem_singleton.1 hrow]

def row2015 : BlockRow := ⟨2015, hash2015, hashPrefixOf hash2015, merkleRoot2015, 1233061996, none, by decide, rfl⟩

theorem firstHeight_pos : (0 : Int32) < 1 := by decide

end BitcoinSpoon.Database
