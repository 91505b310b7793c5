/-
  BitcoinSpoon.Database.Transactions — the heights and the times of the stored transactions
  (`code/Database.c`, `code/SqlStructure.h`).

  A transaction gets its row when it is first added, with the clock's time. When it is added
  again with a block, the row gets the block's height, and the block's time if that is
  smaller. So a transaction that comes with its block at once keeps a clock time that may be
  later than the block's, and one that was seen before has the block's (`addTransaction_orders_iff`).
  The `update` has a `limit`, which is an option of sqlite: where it is not known, a row once
  unconfirmed stays so.

  Of a row there are the columns that these calls read or write.
-/

import BitcoinSpoon.Database.Chain
import BitcoinSpoon.Transaction.Binding

namespace BitcoinSpoon.Database

open Wire Loop

/-! ## The table -/

structure TransactionRow where
  hash : Bytes
  hashPrefix : Int32
  height : Int32
  transaction : Bytes
  time : Nat
  hashPrefix_eq : hashPrefix = hashPrefixOf hash

/-- `hash` is the primary key. -/
structure TransactionTable where
  rows : List TransactionRow
  unique : (rows.map TransactionRow.hash).Nodup

/-- ``where `hashPrefix`=?``, and the first of these rows with the hash. -/
def TransactionTable.withHash (transactions : TransactionTable) (hash : Bytes) : Option TransactionRow :=
  (transactions.rows.filter fun row => row.hashPrefix = hashPrefixOf hash).find? fun row => row.hash = hash

/-- Whatever row has the hash. -/
def TransactionTable.ofHash (transactions : TransactionTable) (hash : Bytes) : List TransactionRow :=
  transactions.rows.filter fun row => row.hash = hash

/-- `none` is a broken constraint: the hash is there, or NULL is bound for the transaction. -/
def TransactionTable.insert (transactions : TransactionTable) (hash : Bytes) (height : Int32) (data : Data) (now : Nat) :
    Option TransactionTable :=
  match data with
  | none => none
  | some bytes =>
    if h : hash ∈ transactions.rows.map TransactionRow.hash then none
    else
      some
        { rows := transactions.rows ++ [⟨hash, hashPrefixOf hash, height, bytes, now, rfl⟩]
          unique := by
            rw [List.map_append, List.nodup_append]
            refine ⟨transactions.unique, List.nodup_singleton _, fun a ha b hb => ?_⟩
            rw [List.mem_singleton.1 hb]
            rintro rfl
            exact h ha }

/-- The row of the same hash is this one now. -/
def TransactionTable.replace (transactions : TransactionTable) (new : TransactionRow) : TransactionTable where
  rows := transactions.rows.map fun row => if row.hash = new.hash then new else row
  unique := by
    have hsame : (TransactionRow.hash ∘ fun row => if row.hash = new.hash then new else row) = TransactionRow.hash := by
      funext row
      rw [Function.comp_apply]
      split
      · exact Eq.symm ‹_›
      · rfl
    rw [List.map_map, hsame]
    exact transactions.unique

/-- The `update`. `MIN` with a NULL is NULL, which `time` must not be. -/
def TransactionTable.confirm (transactions : TransactionTable) (hash : Bytes) (height : Int32) (blockTime : Option Nat) :
    Option TransactionTable :=
  match transactions.withHash hash with
  | none => some transactions
  | some row => blockTime.map fun time => transactions.replace { row with height := height, time := min row.time time }

/-! ## The calls -/

structure TransactionDatabase extends BlockDatabase where
  transactions : TransactionTable

/-- `blockHash` of a block that can be NULL. -/
def blockHashOf (c : Crypto) (block : Option MerkleBlock) : Data :=
  match block with
  | none => none
  | some block => Sync.blockHash c block

variable (search : BinarySearch) (c : Crypto) (network : Network)

/-- `now` is `strftime('%s', 'now')`. Where sqlite knows no `limit` for `update`, the
    statement is not prepared. -/
def databaseAddTransaction (limitKnown : Bool) (self : TransactionDatabase) (data : Data) (block : Option MerkleBlock) (now : Nat) :
    Bool × TransactionDatabase :=
  let (height, database) := databaseHeightOf search network self.toBlockDatabase (blockHashOf c block)
  let self := { self with toBlockDatabase := database }
  let hash := (hash256 c data).toBytes
  match self.transactions.insert hash height data now with
  | some transactions => (true, { self with transactions := transactions })
  | none =>
    if 0 < height ∧ limitKnown then
      match self.transactions.confirm hash height ((self.blocks.atHeight height).map BlockRow.time) with
      | some transactions => (true, { self with transactions := transactions })
      | none => (false, self)
    else (false, self)

def databaseTransactionHeight (self : TransactionDatabase) (hash : Data) : Int32 :=
  if hash.length < 32 then -1
  else
    match self.transactions.withHash hash.toBytes with
    | some row => row.height
    | none => -1

def databaseTransactionTime (self : TransactionDatabase) (hash : Data) : UInt32 :=
  if hash.length < 32 then 0
  else
    match self.transactions.withHash hash.toBytes with
    | some row => UInt32.ofNat row.time
    | none => 0

variable {search c network} {limitKnown : Bool} {self : TransactionDatabase} {transactions next : TransactionTable} {hash : Bytes}
  {row : TransactionRow}

/-! ## Rows -/

theorem TransactionTable.withHash_eq : transactions.withHash hash = transactions.rows.find? fun row => row.hash = hash :=
  find_of_hashPrefix TransactionRow.hashPrefix_eq transactions.rows hash

theorem TransactionTable.withHash_hash (h : transactions.withHash hash = some row) : row.hash = hash := by
  rw [withHash_eq] at h
  simpa using List.find?_some h

theorem TransactionTable.withHash_none : transactions.withHash hash = none ↔ hash ∉ transactions.rows.map TransactionRow.hash := by
  rw [withHash_eq]
  simp

/-- There is at most one row with the hash. -/
theorem TransactionTable.ofHash_eq : transactions.ofHash hash = (transactions.withHash hash).toList := by
  obtain ⟨rows, hunique⟩ := transactions
  rw [withHash_eq, ofHash]
  dsimp only
  induction rows with
  | nil => rfl
  | cons first rows ih =>
    obtain ⟨hfirst, hrows⟩ := List.nodup_cons.1 hunique
    by_cases hhash : first.hash = hash
    · rw [List.filter_cons_of_pos (by simpa using hhash), List.find?_cons_of_pos (by simpa using hhash), List.filter_eq_nil_iff.2]
      · rfl
      · intro other hother heq
        refine hfirst (List.mem_map.2 ⟨other, hother, ?_⟩)
        rw [hhash, of_decide_eq_true heq]
    · rw [List.filter_cons_of_neg (by simpa using hhash), List.find?_cons_of_neg (by simpa using hhash)]
      exact ih hrows

/-- What a caller reads of the row. -/
theorem transaction_reads (hfound : self.transactions.withHash hash = some row) (hlength : hash.length = 32) :
    databaseTransactionHeight self (some hash) = row.height ∧ databaseTransactionTime self (some hash) = UInt32.ofNat row.time := by
  have hlong : ¬ Data.length (some hash) < 32 := by
    rw [length_some, hlength]
    decide
  rw [databaseTransactionHeight, databaseTransactionTime, if_neg hlong, if_neg hlong]
  show (match self.transactions.withHash hash with | some row => row.height | none => -1) = _ ∧
    (match self.transactions.withHash hash with | some row => UInt32.ofNat row.time | none => 0) = _
  rw [hfound]
  exact ⟨rfl, rfl⟩

theorem insert_fresh {height : Int32} {bytes : Bytes} {now : Nat} (h : transactions.withHash hash = none) :
    ∃ next, transactions.insert hash height (some bytes) now = some next ∧
      next.withHash hash = some ⟨hash, hashPrefixOf hash, height, bytes, now, rfl⟩ := by
  have hnot := TransactionTable.withHash_none.1 h
  rw [TransactionTable.insert, dif_neg hnot]
  refine ⟨_, rfl, ?_⟩
  rw [TransactionTable.withHash_eq] at h ⊢
  rw [List.find?_append, h, Option.none_or, List.find?_cons_of_pos (by simp)]

theorem insert_again {height : Int32} {data : Data} {now : Nat} (h : transactions.withHash hash = some row) :
    transactions.insert hash height data now = none := by
  cases data with
  | none => rfl
  | some bytes =>
    rw [TransactionTable.insert]
    exact dif_pos (by_contra fun hnot => by rw [TransactionTable.withHash_none.2 hnot] at h; cases h)

theorem withHash_replace {new : TransactionRow} (h : transactions.withHash new.hash = some row) :
    (transactions.replace new).withHash new.hash = some new := by
  rw [TransactionTable.withHash_eq] at h ⊢
  rw [TransactionTable.replace, List.find?_map]
  have hsame : ((fun row : TransactionRow => decide (row.hash = new.hash)) ∘ fun row => if row.hash = new.hash then new else row) =
      fun row => decide (row.hash = new.hash) := by
    funext row
    rw [Function.comp_apply]
    split <;> simp [*]
  rw [hsame, h, Option.map_some, if_pos (by simpa using List.find?_some h)]

/-! ## What a call does -/

/-- The row of a transaction after a call with the height of the block, -1 if there is none. -/
def rowAfter (limitKnown : Bool) (hash bytes : Bytes) (height : Int32) (blockTime : Option Nat) (now : Nat)
    (before : Option TransactionRow) : TransactionRow :=
  match before with
  | none => ⟨hash, hashPrefixOf hash, height, bytes, now, rfl⟩
  | some row =>
    match blockTime with
    | some time => if 0 < height ∧ limitKnown then { row with height := height, time := min row.time time } else row
    | none => row

theorem addTransaction_row (bytes : Bytes) (block : Option MerkleBlock) (now : Nat) :
    let hash := (hash256 c (some bytes)).toBytes
    let found := databaseHeightOf search network self.toBlockDatabase (blockHashOf c block)
    let next := (databaseAddTransaction search c network limitKnown self (some bytes) block now).2
    next.toBlockDatabase = found.2 ∧ next.transactions.withHash hash =
      some (rowAfter limitKnown hash bytes found.1 ((self.blocks.atHeight found.1).map BlockRow.time) now (self.transactions.withHash hash)) := by
  dsimp only
  rw [databaseAddTransaction]
  dsimp only
  rw [heightOf_blocks]
  generalize databaseHeightOf search network self.toBlockDatabase (blockHashOf c block) = found
  generalize (hash256 c (some bytes)).toBytes = hash
  cases hrow : self.transactions.withHash hash with
  | none =>
    obtain ⟨next, hnext, hwith⟩ := @insert_fresh self.transactions hash found.1 bytes now hrow
    rw [hnext]
    exact ⟨rfl, hwith⟩
  | some row =>
    rw [insert_again hrow, TransactionTable.confirm, hrow, rowAfter.eq_def]
    dsimp only
    by_cases hheight : 0 < found.1 ∧ limitKnown
    · rw [if_pos hheight]
      cases (self.blocks.atHeight found.1).map BlockRow.time with
      | none => exact ⟨rfl, hrow⟩
      | some time =>
        dsimp only [Option.map_some]
        rw [if_pos hheight]
        have hhash := TransactionTable.withHash_hash hrow
        subst hhash
        exact ⟨rfl, @withHash_replace _ row { row with height := found.1, time := min row.time time } hrow⟩
    · rw [if_neg hheight]
      refine ⟨rfl, ?_⟩
      rw [hrow]
      cases (self.blocks.atHeight found.1).map BlockRow.time <;> simp [hheight]

/-! ## The two orders -/

/-- Unconfirmed first, then in its block. -/
def seenThenMined (search : BinarySearch) (c : Crypto) (network : Network) (limitKnown : Bool) (self : TransactionDatabase)
    (bytes : Bytes) (block : MerkleBlock) (earlier later : Nat) : TransactionDatabase :=
  let seen := (databaseAddTransaction search c network limitKnown self (some bytes) none earlier).2
  (databaseAddTransaction search c network limitKnown seen (some bytes) (some block) later).2

/-- In its block first, then unconfirmed. -/
def minedThenSeen (search : BinarySearch) (c : Crypto) (network : Network) (limitKnown : Bool) (self : TransactionDatabase)
    (bytes : Bytes) (block : MerkleBlock) (earlier later : Nat) : TransactionDatabase :=
  let mined := (databaseAddTransaction search c network limitKnown self (some bytes) (some block) earlier).2
  (databaseAddTransaction search c network limitKnown mined (some bytes) none later).2

/-- One row, with this height and this time, and the calls that read them return them. -/
def LeavesRow (hash : Bytes) (height : Int32) (time : Nat) (self : TransactionDatabase) : Prop :=
  (∃ row, self.transactions.ofHash hash = [row] ∧ row.height = height ∧ row.time = time) ∧
    databaseTransactionHeight self (some hash) = height ∧ databaseTransactionTime self (some hash) = UInt32.ofNat time

/-- Both orders leave one row with the same height and time, whatever the later clock time
    is. -/
def OrdersAgree (search : BinarySearch) (c : Crypto) (network : Network) (limitKnown : Bool) (self : TransactionDatabase)
    (bytes : Bytes) (block : MerkleBlock) (earlier : Nat) : Prop :=
  let hash := (hash256 c (some bytes)).toBytes
  ∃ height time, ∀ later, earlier ≤ later →
    LeavesRow hash height time (seenThenMined search c network limitKnown self bytes block earlier later) ∧
      LeavesRow hash height time (minedThenSeen search c network limitKnown self bytes block earlier later)

theorem leavesRow_iff {height : Int32} {time : Nat} (h : self.transactions.withHash hash = some row) (hlength : hash.length = 32) :
    LeavesRow hash height time self ↔ row.height = height ∧ row.time = time := by
  obtain ⟨hheight, htime⟩ := transaction_reads h hlength
  rw [LeavesRow, TransactionTable.ofHash_eq, h, hheight, htime]
  constructor
  · intro hleaves
    obtain ⟨⟨other, hother, hrow⟩, -⟩ := hleaves
    rwa [← List.singleton_inj.1 hother] at hrow
  · intro hrow
    exact ⟨⟨row, rfl, hrow⟩, hrow.1, congrArg UInt32.ofNat hrow.2⟩

/-- A stored block has a height above 0, from the cache or from the table. -/
theorem heightFor_pos {database : BlockDatabase} {stored : BlockRow} (h : stored ∈ database.blocks.rows) :
    0 < database.heightFor search network (some stored.hash) := by
  rw [BlockDatabase.heightFor]
  split
  · assumption
  · obtain ⟨found, hfound⟩ := Option.isSome_iff_exists.1
      (show (database.blocks.rows.find? fun row => row.hash = Data.toBytes (some stored.hash)).isSome from
        List.find?_isSome.2 ⟨stored, h, by simp⟩)
    rw [tableHeightOf, hfound]
    exact found.height_pos

/-- Without a block the table of blocks is not looked at. -/
theorem heightOf_none (database : BlockDatabase) : databaseHeightOf search network database (blockHashOf c none) = (-1, database) := rfl

/-- An unconfirmed transaction is stored if it is new, and else nothing changes. -/
theorem rowAfter_unconfirmed (hash bytes : Bytes) (blockTime : Option Nat) (now : Nat) (before : Option TransactionRow) :
    rowAfter limitKnown hash bytes (-1) blockTime now before = before.getD ⟨hash, hashPrefixOf hash, -1, bytes, now, rfl⟩ := by
  cases before with
  | none => rfl
  | some row => cases blockTime <;> rfl

theorem rowAfter_confirmed {height : Int32} (hheight : 0 < height) (hash bytes : Bytes) (time now : Nat) (row : TransactionRow) :
    rowAfter true hash bytes height (some time) now (some row) = { row with height := height, time := min row.time time } :=
  if_pos ⟨hheight, rfl⟩

/-- Without a `limit` a row that is there stays. -/
theorem rowAfter_unlimited (hash bytes : Bytes) (height : Int32) (blockTime : Option Nat) (now : Nat) (row : TransactionRow) :
    rowAfter false hash bytes height blockTime now (some row) = row := by
  cases blockTime with
  | none => rfl
  | some time => exact if_neg (by simp)

theorem seenThenMined_row (bytes : Bytes) (block : MerkleBlock) (earlier later : Nat) :
    let hash := (hash256 c (some bytes)).toBytes
    let height := (databaseHeightOf search network self.toBlockDatabase (Sync.blockHash c block)).1
    (seenThenMined search c network limitKnown self bytes block earlier later).transactions.withHash hash =
      some (rowAfter limitKnown hash bytes height ((self.blocks.atHeight height).map BlockRow.time) later
        (some ((self.transactions.withHash hash).getD ⟨hash, hashPrefixOf hash, -1, bytes, earlier, rfl⟩))) := by
  obtain ⟨hblocks, hseen⟩ := @addTransaction_row search c network limitKnown self bytes none earlier
  obtain ⟨-, hmined⟩ := @addTransaction_row search c network limitKnown
    (databaseAddTransaction search c network limitKnown self (some bytes) none earlier).2 bytes (some block) later
  rw [heightOf_none] at hblocks hseen
  rw [rowAfter_unconfirmed] at hseen
  rw [hblocks, hseen] at hmined
  exact hmined

theorem minedThenSeen_row (bytes : Bytes) (block : MerkleBlock) (earlier later : Nat) :
    let hash := (hash256 c (some bytes)).toBytes
    let height := (databaseHeightOf search network self.toBlockDatabase (Sync.blockHash c block)).1
    (minedThenSeen search c network limitKnown self bytes block earlier later).transactions.withHash hash =
      some (rowAfter limitKnown hash bytes height ((self.blocks.atHeight height).map BlockRow.time) earlier (self.transactions.withHash hash)) := by
  obtain ⟨-, hmined⟩ := @addTransaction_row search c network limitKnown self bytes (some block) earlier
  obtain ⟨-, hseen⟩ := @addTransaction_row search c network limitKnown
    (databaseAddTransaction search c network limitKnown self (some bytes) (some block) earlier).2 bytes none later
  rw [heightOf_none, rowAfter_unconfirmed, hmined] at hseen
  exact hseen

/-- The orders agree if the transaction was stored before, or if sqlite knows the `limit` and
    a block is stored at the height that is found for its block, with a time that is not
    before the clock's. -/
theorem addTransaction_orders_iff {stored : BlockRow} {block : MerkleBlock} (hstored : stored ∈ self.blocks.rows)
    (hblock : Sync.blockHash c block = some stored.hash) (bytes : Bytes) (earlier : Nat) :
    OrdersAgree search c network limitKnown self bytes block earlier ↔
      (self.transactions.withHash (hash256 c (some bytes)).toBytes).isSome ∨
        limitKnown = true ∧ ∃ row, self.blocks.atHeight (databaseHeightOf search network self.toBlockDatabase (some stored.hash)).1 = some row ∧
          earlier ≤ row.time := by
  have hlength : Data.length (some stored.hash) = 32 := by
    rw [← hblock]
    rw [Sync.blockHash] at hblock ⊢
    split at hblock
    · cases hblock
    · rw [if_neg ‹_›]
      exact c.sha256_length _
  have hpos := @heightFor_pos search network _ _ hstored
  rw [← heightOf_eq hlength] at hpos
  have hhash : (hash256 c (some bytes)).toBytes.length = 32 := c.sha256_length _
  have hseen := @seenThenMined_row search c network limitKnown self bytes block earlier
  have hmined := @minedThenSeen_row search c network limitKnown self bytes block earlier
  rw [hblock] at hseen hmined
  dsimp only at hseen hmined
  rw [OrdersAgree]
  simp only [leavesRow_iff (hseen _) hhash, leavesRow_iff (hmined _) hhash]
  generalize (databaseHeightOf search network self.toBlockDatabase (some stored.hash)).1 = height at hpos ⊢
  -- a row that stays unconfirmed is not that of the block
  have hunconfirmed : ∀ {rowOf : Nat → TransactionRow},
      (∀ later, (rowOf later).height = -1) → ¬ ∃ (found : Int32) (time : Nat), ∀ later, earlier ≤ later →
        ((rowOf later).height = found ∧ (rowOf later).time = time) ∧ height = found ∧ earlier = time := by
    intro rowOf hrow hall
    obtain ⟨found, time, hall⟩ := hall
    obtain ⟨⟨hfound, -⟩, hheight, -⟩ := hall earlier (Nat.le_refl _)
    rw [hheight, ← hfound, hrow] at hpos
    exact absurd hpos (by decide)
  cases self.transactions.withHash (hash256 c (some bytes)).toBytes with
  | some row => exact iff_of_true ⟨_, _, fun later _ => ⟨⟨rfl, rfl⟩, rfl, rfl⟩⟩ (Or.inl rfl)
  | none =>
    rw [Option.getD_none, or_iff_right (by simp)]
    cases limitKnown with
    | false => exact iff_of_false (hunconfirmed fun _ => congrArg TransactionRow.height (rowAfter_unlimited _ _ _ _ _ _)) (by simp)
    | true =>
      rw [and_iff_right rfl]
      cases hrow : self.blocks.atHeight height with
      | none => exact iff_of_false (hunconfirmed fun _ => rfl) (by simp)
      | some row =>
        -- the update takes the smaller time, the insert the clock's
        rw [Option.map_some]
        simp only [rowAfter_confirmed hpos]
        constructor
        · intro hagree
          obtain ⟨_, _, hall⟩ := hagree
          obtain ⟨⟨-, hmin⟩, -, hclock⟩ := hall earlier (Nat.le_refl _)
          exact ⟨row, rfl, min_eq_left_iff.1 (hmin.trans hclock.symm)⟩
        · intro hnot
          obtain ⟨other, hother, hle⟩ := hnot
          cases hother
          exact ⟨height, earlier, fun _ _ => ⟨⟨rfl, Nat.min_eq_left hle⟩, rfl, rfl⟩⟩

/-- The first block above block 0. -/
def firstAddedRow : BlockRow where
  height := 1
  hash := (Sync.blockHash plainCrypto (headerOn blockZero 0)).toBytes
  hashPrefix := hashPrefixOf (Sync.blockHash plainCrypto (headerOn blockZero 0)).toBytes
  merkleRoot := merkleRoot (headerOn blockZero 0)
  time := blockTimestamp (headerOn blockZero 0)
  added := some (headerOn blockZero 0)
  height_pos := firstHeight_pos
  hashPrefix_eq := rfl

def firstAdded : TransactionDatabase := ⟨⟨network2015.initialBlocks.put firstAddedRow, .empty⟩, ⟨[], List.nodup_nil⟩⟩

theorem orders_agree_atBlockTime : OrdersAgree .halving plainCrypto network2015 true firstAdded [1] (headerOn blockZero 0) 0 := by
  refine (@addTransaction_orders_iff .halving plainCrypto network2015 true firstAdded firstAddedRow (headerOn blockZero 0)
    (mem_put.2 (Or.inl rfl)) rfl [1] 0).2 (Or.inr ⟨rfl, firstAddedRow, ?_, Nat.zero_le _⟩)
  have hheight : (databaseHeightOf .halving network2015 firstAdded.toBlockDatabase (some firstAddedRow.hash)).1 = 1 := by decide +kernel
  rw [hheight]
  exact atHeight_iff.2 ⟨mem_put.2 (Or.inl rfl), rfl⟩

/-- A second after the block's time. -/
theorem not_orders_agree : ¬ OrdersAgree .halving plainCrypto network2015 true firstAdded [1] (headerOn blockZero 0) 1 := by
  intro hagree
  obtain ⟨height, time, hall⟩ := hagree
  obtain ⟨⟨⟨seen, hseen, -, hseenTime⟩, -⟩, ⟨mined, hmined, -, hminedTime⟩, -⟩ := hall 1 (Nat.le_refl _)
  have hfirst : ((seenThenMined .halving plainCrypto network2015 true firstAdded [1] (headerOn blockZero 0) 1 1).transactions.ofHash
      (hash256 plainCrypto (some [1])).toBytes).map TransactionRow.time = [0] := by decide +kernel
  have hsecond : ((minedThenSeen .halving plainCrypto network2015 true firstAdded [1] (headerOn blockZero 0) 1 1).transactions.ofHash
      (hash256 plainCrypto (some [1])).toBytes).map TransactionRow.time = [1] := by decide +kernel
  rw [hseen] at hfirst
  rw [hmined] at hsecond
  have hzero := List.singleton_inj.1 hfirst
  have hone := List.singleton_inj.1 hsecond
  omega

end BitcoinSpoon.Database
