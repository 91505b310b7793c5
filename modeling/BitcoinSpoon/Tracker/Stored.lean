/-
  BitcoinSpoon.Tracker.Stored — the transactions a wallet keeps
  (`code/TransactionTracker.c`).

  Three lists in parallel: the transactions, the hashes of the bytes they came in and their
  txids. `TTAddTransaction` looks for the hash of the bytes among the hashes and among the
  txids, never for the txid: a transaction that is stored without its witness is stored
  once more when it comes with one (`not_stored_once`). `stored_once` says exactly which
  calls keep the txids apart.

  Beside them stands the memory of the scripts (`TrackerMemory`). The funding output of an
  input is a copy of the struct, so its script is the memory of the transaction that has the
  output. A removal hands all scripts of the row to the innermost scope, the funding scripts
  with them. The rest of a row's memory is its own; the token sets of a script are copied
  and handed on together with it, and are empty without one.

  The lists are the columns of a table: adding appends a row, removing filters the rows,
  however many match and wherever they stand (`trackerStep_columns`). What makes a
  transaction interesting is a parameter, which may read whatever the tracker holds. `none`
  is `abort()` or a block that is freed twice.
-/

import BitcoinSpoon.Loop.Frames
import BitcoinSpoon.Loop.Rules
import BitcoinSpoon.Loop.Runs
import BitcoinSpoon.Util.Dict
import Mathlib.Data.List.InsertIdx
import Mathlib.Data.List.Nodup

namespace BitcoinSpoon

open Wire Loop

structure TransactionTracker where
  allTransactions : List Transaction
  allTransactionHashes : Datas
  allTransactionTxids : Datas
  matchCount : Nat
  mismatchCount : Nat
  deriving DecidableEq, Repr

/-! ## What is interesting -/

def ttTransactionInputsContainsOneOf (tx : Transaction) (keysAndHashes : Dict) : Bool :=
  tx.inputs.any fun input =>
    dictDoesIntersect (transactionInputGetScriptTokensPushDataSet input) keysAndHashes ||
      dictDoesIntersect (transactionOutputGetScriptTokensPushDataSet input.fundingOutput) keysAndHashes

def ttTransactionOutputsContainsOneOf (tx : Transaction) (keysAndHashes : Dict) : Bool :=
  tx.outputs.any fun output => dictDoesIntersect (transactionOutputGetScriptTokensPushDataSet output) keysAndHashes

def ttTransactionContainsOneOf (tx : Transaction) (keysAndHashes : Dict) : Bool :=
  ttTransactionInputsContainsOneOf tx keysAndHashes || ttTransactionOutputsContainsOneOf tx keysAndHashes

def ttInterestingTransaction (keysAndKeyHashes : Dict) (transaction : Transaction) : Bool :=
  ttTransactionContainsOneOf transaction keysAndKeyHashes

/-! ## The lists -/

/-- `none` for -1. -/
def datasMatchingDataIndex (datas : Datas) (data : Data) : Option Nat := datas.findIdx? (dataEqual · data)

def ttTransactionForTxid (self : TransactionTracker) (txid : Data) : Option Transaction :=
  (datasMatchingDataIndex self.allTransactionTxids txid).bind fun index => self.allTransactions[index]?

def ttTransactionForHash (self : TransactionTracker) (hash : Data) : Option Transaction :=
  (datasMatchingDataIndex self.allTransactionHashes hash).bind fun index => self.allTransactions[index]?

/-- The index is an `int`. -/
def transactionOutputOrNilAt (transaction : Option Transaction) (index : UInt32) : Option TransactionOutput :=
  if 2 ^ 31 ≤ index.toNat then none else transaction.bind fun transaction => transaction.outputs[index.toNat]?

/-- The inputs with the outputs they spend, as far as those are stored. -/
def fundInputs (self : TransactionTracker) (transaction : Transaction) : Transaction :=
  { transaction with
    inputs := transaction.inputs.map fun input =>
      match transactionOutputOrNilAt (ttTransactionForTxid self input.previousTransactionHash) input.outputIndex with
      | some output => { input with fundingOutput := output }
      | none => input }

variable (c : Crypto)

/-- `TTNew`, over what `DatabaseAllTransactions` returns. -/
def ttNew (array : Datas) : Option TransactionTracker := do
  let transactions ← array.mapM transactionNew
  let self : TransactionTracker := ⟨transactions, array.map (hash256 c), transactions.map (transactionTxid c), 0, 0⟩
  some { self with allTransactions := transactions.map (fundInputs self) }

section

variable (interesting : TransactionTracker → Transaction → Bool)

def ttMissingFundingTransactions (self : TransactionTracker) : Datas :=
  (self.allTransactions.filter (interesting self)).flatMap fun transaction =>
    (transaction.inputs.map (·.previousTransactionHash)).filter fun hash =>
      !datasHasMatchingData self.allTransactionTxids hash

/-- The tracker and what the call returns. -/
def ttAddTransaction (self : TransactionTracker) (data : Data) : Option (TransactionTracker × Int) := do
  let transaction ← transactionNew data
  let transaction := fundInputs self transaction
  let hash := hash256 c data
  let interesting := interesting self transaction ||
    datasHasMatchingData (ttMissingFundingTransactions interesting self) (transactionTxid c transaction)
  if !interesting then some ({ self with mismatchCount := self.mismatchCount + 1 }, -2)
  else if datasHasMatchingData self.allTransactionHashes hash || datasHasMatchingData self.allTransactionTxids hash then
    some (self, -1)
  else
    some
      ({ allTransactions := self.allTransactions ++ [transaction]
         allTransactionHashes := self.allTransactionHashes ++ [hash]
         allTransactionTxids := self.allTransactionTxids ++ [transactionTxid c transaction]
         matchCount := self.matchCount + 1
         mismatchCount := self.mismatchCount }, 1)

end

/-! ## The memory of the scripts -/

/-- What the script of an output lies in: the number of its transaction and its position. -/
abbrev ScriptBlock := Nat × Nat

/-- The scripts of a stored transaction that was the `number`th to be parsed. -/
structure ScriptBlocks where
  number : Nat
  /-- `none` is NULL. -/
  fundingOutputs : List (Option ScriptBlock)
  deriving DecidableEq, Repr

structure TrackerMemory extends TransactionTracker where
  /-- In parallel with `allTransactions`. -/
  blocks : List ScriptBlocks
  /-- How many transactions were parsed and stored. -/
  parsed : Nat
  frames : Frames ScriptBlock

def outputBlocks (number : Nat) (outputs : List TransactionOutput) : List ScriptBlock :=
  outputs.zipIdx.filterMap fun output => output.1.script.map fun _ => (number, output.2)

/-- What `TransactionTrack` goes through. -/
def ScriptBlocks.tracked (blocks : ScriptBlocks) (transaction : Transaction) : List ScriptBlock :=
  blocks.fundingOutputs.filterMap id ++ outputBlocks blocks.number transaction.outputs

def transactionTrack (transaction : Transaction) (blocks : ScriptBlocks) (frames : Frames ScriptBlock) :
    Option (Frames ScriptBlock) :=
  (blocks.tracked transaction).foldlM Frames.track frames

def transactionUntrack (transaction : Transaction) (blocks : ScriptBlocks) (frames : Frames ScriptBlock) : Frames ScriptBlock :=
  (blocks.tracked transaction).foldl Frames.untrack frames

/-- The script of `input->fundingOutput = *output`. -/
def fundingBlock (self : TrackerMemory) (input : TransactionInput) : Option ScriptBlock := do
  let index ← datasMatchingDataIndex self.allTransactionTxids input.previousTransactionHash
  let blocks ← self.blocks[index]?
  let output ← transactionOutputOrNilAt self.allTransactions[index]? input.outputIndex
  output.script.map fun _ => (blocks.number, input.outputIndex.toNat)

/-- `TTNew`, called with `outer` scopes open. It opens one more and leaves it so. -/
def TrackerMemory.ttNew (outer : Nat) (array : Datas) : Option TrackerMemory :=
  (BitcoinSpoon.ttNew c array).map fun tracker =>
    let self : TrackerMemory :=
      { toTransactionTracker := tracker
        blocks := (List.range tracker.allTransactions.length).map (⟨·, []⟩)
        parsed := tracker.allTransactions.length
        frames := ⟨[], List.replicate (outer + 1) []⟩ }
    { self with
      blocks := tracker.allTransactions.zipIdx.map fun transaction =>
        ⟨transaction.2, transaction.1.inputs.map (fundingBlock self)⟩ }

variable (interesting : TrackerMemory → Transaction → Bool)

def TrackerMemory.ttAddTransaction (self : TrackerMemory) (data : Data) : Option (TrackerMemory × Int) := do
  let transaction ← transactionNew data
  let (tracker, result) ← BitcoinSpoon.ttAddTransaction c (fun _ => interesting self) self.toTransactionTracker data
  if result = 1 then
    let blocks : ScriptBlocks := ⟨self.parsed, transaction.inputs.map (fundingBlock self)⟩
    some
      ({ toTransactionTracker := tracker
         blocks := self.blocks ++ [blocks]
         parsed := self.parsed + 1
         frames := transactionUntrack transaction blocks self.frames }, result)
  else some ({ self with toTransactionTracker := tracker }, result)

/-- `DatasRemoveIndex` on the lists. -/
def removeIndex (self : TrackerMemory) (i : Nat) : TrackerMemory :=
  { self with
    allTransactions := self.allTransactions.eraseIdx i
    allTransactionHashes := self.allTransactionHashes.eraseIdx i
    allTransactionTxids := self.allTransactionTxids.eraseIdx i
    blocks := self.blocks.eraseIdx i }

/-- The loop over `ids`, with `count - i` of them still to be looked at. -/
def removeMatching (ids : TrackerMemory → Datas) (id : Data) : Nat → TrackerMemory → Nat → Option (TrackerMemory × Nat)
  | 0, self, _ => some (self, 0)
  | rounds + 1, self, i =>
    if dataEqual ((ids self)[i]?.getD none) id then do
      let transaction ← self.allTransactions[i]?
      let blocks ← self.blocks[i]?
      let frames ← transactionTrack transaction blocks self.frames
      let (self, result) ← removeMatching ids id rounds (removeIndex { self with frames := frames } i) i
      some (self, result + 1)
    else removeMatching ids id rounds self (i + 1)

def ttRemoveTransactionByHash (self : TrackerMemory) (hash : Data) : Option (TrackerMemory × Nat) :=
  if hash.length = 0 then some (self, 0)
  else removeMatching (·.allTransactionHashes) hash self.allTransactionHashes.length self 0

def ttRemoveTransactionByTxid (self : TrackerMemory) (txid : Data) : Option (TrackerMemory × Nat) :=
  if txid.length = 0 then some (self, 0)
  else removeMatching (·.allTransactionTxids) txid self.allTransactionTxids.length self 0

/-! ## Runs -/

inductive TrackerCall where
  | addTransaction (data : Data)
  | removeTransactionByHash (hash : Data)
  | removeTransactionByTxid (txid : Data)
  | dataTrackPush
  | dataTrackPop

/-- The scopes are those of the caller, who closes what was opened: one is left. -/
def trackerStep (self : TrackerMemory) : TrackerCall → Option TrackerMemory
  | .addTransaction data => (self.ttAddTransaction c interesting data).map Prod.fst
  | .removeTransactionByHash hash => (ttRemoveTransactionByHash self hash).map Prod.fst
  | .removeTransactionByTxid txid => (ttRemoveTransactionByTxid self txid).map Prod.fst
  | .dataTrackPush => some { self with frames := self.frames.push }
  | .dataTrackPop =>
    if self.frames.scopes.length ≤ 1 then none else self.frames.pop.map fun frames => { self with frames := frames }

/-- No two stored transactions have the same txid. -/
def StoredOnce (self : TrackerMemory) : Prop := (self.allTransactions.map (transactionTxid c)).Nodup

/-- An interesting transaction whose txid is stored comes in bytes whose hash is stored, as a
    hash or as a txid: the bytes it was stored from, or its bytes without a witness. -/
def AddsKnownBytes (self : TrackerMemory) : TrackerCall → Prop
  | .addTransaction data =>
    ∀ transaction, transactionNew data = some transaction →
      interesting self (fundInputs self.toTransactionTracker transaction) = true →
      datasHasMatchingData self.allTransactionTxids (transactionTxid c transaction) = true →
      datasHasMatchingData self.allTransactionHashes (hash256 c data) = true ∨
        datasHasMatchingData self.allTransactionTxids (hash256 c data) = true
  | _ => True

/-! ## Rows -/

structure Row where
  transaction : Transaction
  hash : Data
  txid : Data
  blocks : ScriptBlocks

def Row.outputBlocks (row : Row) : List ScriptBlock := BitcoinSpoon.outputBlocks row.blocks.number row.transaction.outputs

def Row.tracked (row : Row) : List ScriptBlock := row.blocks.tracked row.transaction

/-- The tracker whose lists are the columns of a table. -/
def columns (rows : List Row) (self : TrackerMemory) : TrackerMemory :=
  { self with
    allTransactions := rows.map (·.transaction)
    allTransactionHashes := rows.map (·.hash)
    allTransactionTxids := rows.map (·.txid)
    blocks := rows.map (·.blocks) }

variable {c interesting} {self next : TrackerMemory} {rows : List Row}

@[simp] theorem columns_transactions : (columns rows self).allTransactions = rows.map (·.transaction) := rfl
@[simp] theorem columns_hashes : (columns rows self).allTransactionHashes = rows.map (·.hash) := rfl
@[simp] theorem columns_txids : (columns rows self).allTransactionTxids = rows.map (·.txid) := rfl
@[simp] theorem columns_blocks : (columns rows self).blocks = rows.map (·.blocks) := rfl
@[simp] theorem columns_parsed : (columns rows self).parsed = self.parsed := rfl
@[simp] theorem columns_frames : (columns rows self).frames = self.frames := rfl

/-- The rows that stay. -/
def staying (key : Row → Data) (id : Data) (rows : List Row) : List Row := rows.filter fun row => !dataEqual (key row) id

/-- The rows that go. -/
def going (key : Row → Data) (id : Data) (rows : List Row) : List Row := rows.filter fun row => dataEqual (key row) id

/-- The key and the value a call removes by. -/
def TrackerCall.removes : TrackerCall → Option ((Row → Data) × Data)
  | .removeTransactionByHash hash => some (Row.hash, hash)
  | .removeTransactionByTxid txid => some (Row.txid, txid)
  | _ => none

theorem removeIndex_columns (i : Nat) : removeIndex (columns rows self) i = columns (rows.eraseIdx i) self := by
  simp only [removeIndex, columns, List.eraseIdx_map]

/-- The loop keeps the rows before `i` and filters the rest: the row that moves up to `i`
    is looked at next. -/
theorem removeMatching_columns {ids : TrackerMemory → Datas} {key : Row → Data}
    (hids : ∀ rows self, ids (columns rows self) = rows.map key) (id : Data) (before after : List Row) :
    removeMatching ids id after.length (columns (before ++ after) self) before.length =
      (((going key id after).flatMap Row.tracked).foldlM Frames.track self.frames).map fun frames =>
        (columns (before ++ staying key id after) { self with frames := frames }, (going key id after).length) := by
  induction after generalizing before self with
  | nil => rfl
  | cons row after ih =>
    have hrow : ((ids (columns (before ++ row :: after) self))[before.length]?).getD none = key row := by
      simp [hids]
    rw [List.length_cons, removeMatching, hrow]
    cases hmatch : dataEqual (key row) id with
    | true =>
      have herase : (before ++ row :: after).eraseIdx before.length = before ++ after := by
        rw [List.eraseIdx_append_of_length_le (Nat.le_refl _), Nat.sub_self, List.eraseIdx_cons_zero]
      have hgoing : going key id (row :: after) = row :: going key id after := by simp [going, hmatch]
      have hstaying : staying key id (row :: after) = staying key id after := by simp [staying, hmatch]
      have htransaction : (columns (before ++ row :: after) self).allTransactions[before.length]? = some row.transaction := by
        simp
      have hblocks : (columns (before ++ row :: after) self).blocks[before.length]? = some row.blocks := by
        simp
      rw [if_pos rfl, htransaction, hblocks, hgoing, hstaying, List.flatMap_cons, List.foldlM_append]
      show (transactionTrack row.transaction row.blocks self.frames).bind _ = Option.map _ (Option.bind _ _)
      cases htrack : transactionTrack row.transaction row.blocks self.frames with
      | none =>
        rw [show row.tracked.foldlM Frames.track self.frames = none from htrack]
        rfl
      | some frames =>
        rw [show row.tracked.foldlM Frames.track self.frames = some frames from htrack, Option.bind_some, Option.bind_some]
        have hstep : removeIndex { columns (before ++ row :: after) self with frames := frames } before.length =
            columns (before ++ after) { self with frames := frames } := by
          rw [← herase]
          exact @removeIndex_columns { self with frames := frames } _ before.length
        rw [hstep, ih]
        cases List.foldlM Frames.track frames (List.flatMap Row.tracked (going key id after)) <;> rfl
    | false =>
      have hnext := @ih self (before ++ [row])
      rw [List.length_append, List.length_singleton, List.append_assoc, List.singleton_append] at hnext
      have hgoing : going key id (row :: after) = going key id after := by simp [going, hmatch]
      have hstaying : staying key id (row :: after) = row :: staying key id after := by simp [staying, hmatch]
      rw [if_neg Bool.false_ne_true, hnext, hgoing, hstaying, List.append_assoc, List.singleton_append]

theorem trackerStep_removes {call : TrackerCall} {key : Row → Data} {id : Data} (hremoves : call.removes = some (key, id)) :
    trackerStep c interesting (columns rows self) call =
      if id.length = 0 then some (columns rows self)
      else (((going key id rows).flatMap Row.tracked).foldlM Frames.track self.frames).map fun frames =>
        columns (staying key id rows) { self with frames := frames } := by
  have hall : ∀ {ids : TrackerMemory → Datas}, (∀ rows self, ids (columns rows self) = rows.map key) →
      (removeMatching ids id rows.length (columns rows self) 0).map Prod.fst =
        (((going key id rows).flatMap Row.tracked).foldlM Frames.track self.frames).map fun frames =>
          columns (staying key id rows) { self with frames := frames } := by
    intro ids hids
    have hloop := @removeMatching_columns self ids key hids id [] rows
    rw [List.nil_append, List.length_nil, List.nil_append] at hloop
    rw [hloop, Option.map_map]
    rfl
  cases call with
  | removeTransactionByHash hash =>
    cases hremoves
    rw [trackerStep, ttRemoveTransactionByHash]
    split
    · rfl
    · rw [columns_hashes, List.length_map]
      exact hall fun _ _ => rfl
  | removeTransactionByTxid txid =>
    cases hremoves
    rw [trackerStep, ttRemoveTransactionByTxid]
    split
    · rfl
    · rw [columns_txids, List.length_map]
      exact hall fun _ _ => rfl
  | addTransaction data => cases hremoves
  | dataTrackPush => cases hremoves
  | dataTrackPop => cases hremoves

/-! ## One step -/

/-- `TTAddTransaction` stores the transaction. -/
def Stores (c : Crypto) (interesting : TrackerMemory → Transaction → Bool) (self : TrackerMemory) (data : Data)
    (parsed : Transaction) : Prop :=
  (interesting self (fundInputs self.toTransactionTracker parsed) = true ∨
      datasHasMatchingData (ttMissingFundingTransactions (fun _ => interesting self) self.toTransactionTracker)
        (transactionTxid c parsed) = true) ∧
    datasHasMatchingData self.allTransactionHashes (hash256 c data) = false ∧
    datasHasMatchingData self.allTransactionTxids (hash256 c data) = false

/-- The row that is appended. -/
def addedRow (c : Crypto) (self : TrackerMemory) (data : Data) (parsed : Transaction) : Row :=
  ⟨fundInputs self.toTransactionTracker parsed, hash256 c data, transactionTxid c parsed,
    ⟨self.parsed, parsed.inputs.map (fundingBlock self)⟩⟩

/-- What a call makes of the rows of `self`, of the scopes and of the number of the next
    transaction. -/
inductive RowsStep (c : Crypto) (interesting : TrackerMemory → Transaction → Bool) (self : TrackerMemory) (rows : List Row) :
    TrackerCall → List Row → Frames ScriptBlock → Nat → Prop
  | dull (data : Data) (parsed : Transaction) (hparsed : transactionNew data = some parsed)
      (hdull : ¬ Stores c interesting self data parsed) :
      RowsStep c interesting self rows (.addTransaction data) rows self.frames self.parsed
  | stored (data : Data) (parsed : Transaction) (hparsed : transactionNew data = some parsed)
      (hstores : Stores c interesting self data parsed) :
      RowsStep c interesting self rows (.addTransaction data) (rows ++ [addedRow c self data parsed])
        ((addedRow c self data parsed).tracked.foldl Frames.untrack self.frames) (self.parsed + 1)
  | nothing (call : TrackerCall) (key : Row → Data) (id : Data) (hremoves : call.removes = some (key, id))
      (hlength : id.length = 0) : RowsStep c interesting self rows call rows self.frames self.parsed
  | removed (call : TrackerCall) (key : Row → Data) (id : Data) (hremoves : call.removes = some (key, id))
      (hlength : id.length ≠ 0) (frames : Frames ScriptBlock)
      (htrack : ((going key id rows).flatMap Row.tracked).foldlM Frames.track self.frames = some frames) :
      RowsStep c interesting self rows call (staying key id rows) frames self.parsed
  | push : RowsStep c interesting self rows .dataTrackPush rows self.frames.push self.parsed
  | pop (frames : Frames ScriptBlock) (hdepth : 1 < self.frames.scopes.length) (hpop : self.frames.pop = some frames) :
      RowsStep c interesting self rows .dataTrackPop rows frames self.parsed

/-- A txid does not depend on what is not serialized. -/
theorem transactionTxid_mapInputs {f : TransactionInput → TransactionInput}
    (hf : ∀ input, transactionInputData (f input) = transactionInputData input) (transaction : Transaction) :
    transactionTxid c { transaction with inputs := transaction.inputs.map f } = transactionTxid c transaction := by
  have hinputs : (transaction.inputs.map f).flatMap transactionInputData = transaction.inputs.flatMap transactionInputData := by
    rw [List.flatMap_map]
    exact List.flatMap_congr fun input _ => hf input
  simp only [transactionTxid, transactionTx, hinputs, List.length_map]

theorem transactionTxid_fundInputs (tracker : TransactionTracker) (transaction : Transaction) :
    transactionTxid c (fundInputs tracker transaction) = transactionTxid c transaction := by
  apply transactionTxid_mapInputs
  intro input
  split <;> rfl

/-- What adding does to the lists, by whether the transaction is stored. -/
theorem ttAddTransaction_cases {data : Data} {parsed : Transaction} (hparsed : transactionNew data = some parsed) :
    (Stores c interesting self data parsed ∧
      ttAddTransaction c (fun _ => interesting self) self.toTransactionTracker data =
        some
          ({ allTransactions := self.allTransactions ++ [fundInputs self.toTransactionTracker parsed]
             allTransactionHashes := self.allTransactionHashes ++ [hash256 c data]
             allTransactionTxids := self.allTransactionTxids ++ [transactionTxid c parsed]
             matchCount := self.matchCount + 1
             mismatchCount := self.mismatchCount }, 1)) ∨
      ¬ Stores c interesting self data parsed ∧ ∃ matches' mismatches result, result ≠ 1 ∧
        ttAddTransaction c (fun _ => interesting self) self.toTransactionTracker data =
          some ({ self.toTransactionTracker with matchCount := matches', mismatchCount := mismatches }, result) := by
  rw [ttAddTransaction, hparsed, Option.bind_eq_bind, Option.bind_some]
  simp only [transactionTxid_fundInputs]
  split
  · rename_i hdull
    rw [Bool.not_eq_true', Bool.or_eq_false_iff] at hdull
    refine Or.inr ⟨fun hstores => ?_, _, _, -2, by decide, rfl⟩
    rcases hstores.1 with h | h
    · rw [hdull.1] at h; cases h
    · rw [hdull.2] at h; cases h
  rename_i hinteresting
  rw [Bool.not_eq_true, Bool.not_eq_false', Bool.or_eq_true] at hinteresting
  split
  · rename_i hknown
    refine Or.inr ⟨fun hstores => ?_, _, _, -1, by decide, rfl⟩
    rw [hstores.2.1, hstores.2.2] at hknown
    cases hknown
  · rename_i hnew
    rw [Bool.not_eq_true, Bool.or_eq_false_iff] at hnew
    exact Or.inl ⟨⟨hinteresting, hnew⟩, rfl⟩

/-- Bytes that are a transaction are added or not; nothing aborts. -/
theorem trackerStep_add {data : Data} {parsed : Transaction} (hparsed : transactionNew data = some parsed) :
    ∃ rows' next, trackerStep c interesting (columns rows self) (.addTransaction data) = some (columns rows' next) ∧
      RowsStep c interesting (columns rows self) rows (.addTransaction data) rows' next.frames next.parsed := by
  rw [trackerStep, TrackerMemory.ttAddTransaction, hparsed, Option.bind_eq_bind, Option.bind_some]
  rcases @ttAddTransaction_cases c interesting (columns rows self) data parsed hparsed with h | h
  · obtain ⟨hstores, hadd⟩ := h
    rw [hadd, Option.bind_eq_bind, Option.bind_some]
    refine ⟨rows ++ [addedRow c (columns rows self) data parsed],
      { self with
        matchCount := self.matchCount + 1
        parsed := self.parsed + 1
        frames := (addedRow c (columns rows self) data parsed).tracked.foldl Frames.untrack self.frames }, ?_,
      .stored data parsed hparsed hstores⟩
    simp only [columns, addedRow, List.map_append, List.map_cons, List.map_nil]
    rfl
  · obtain ⟨hdull, matches', mismatches, result, hresult, hadd⟩ := h
    rw [hadd, Option.bind_eq_bind, Option.bind_some]
    dsimp only
    rw [if_neg hresult]
    exact ⟨rows, { self with matchCount := matches', mismatchCount := mismatches }, rfl, .dull data parsed hparsed hdull⟩

theorem trackerStep_columns {call : TrackerCall} (h : trackerStep c interesting (columns rows self) call = some next) :
    ∃ rows' next', next = columns rows' next' ∧
      RowsStep c interesting (columns rows self) rows call rows' next'.frames next'.parsed := by
  have hremoval : ∀ key id, call.removes = some (key, id) → ∃ rows' next', next = columns rows' next' ∧
      RowsStep c interesting (columns rows self) rows call rows' next'.frames next'.parsed := by
    intro key id hremoves
    rw [trackerStep_removes hremoves] at h
    split at h
    · rename_i hlength
      cases h
      exact ⟨rows, self, rfl, .nothing call key id hremoves hlength⟩
    · rename_i hlength
      obtain ⟨frames, htrack, rfl⟩ := Option.map_eq_some_iff.1 h
      exact ⟨_, { self with frames := frames }, rfl, .removed call key id hremoves hlength frames htrack⟩
  cases call with
  | addTransaction data =>
    cases hparsed : transactionNew data with
    | none =>
      rw [trackerStep, TrackerMemory.ttAddTransaction, hparsed] at h
      cases h
    | some parsed =>
      obtain ⟨rows', next', hadd, hstep⟩ := @trackerStep_add c interesting self rows data parsed hparsed
      rw [hadd] at h
      cases h
      exact ⟨rows', next', rfl, hstep⟩
  | removeTransactionByHash hash => exact hremoval _ _ rfl
  | removeTransactionByTxid txid => exact hremoval _ _ rfl
  | dataTrackPush =>
    cases h
    exact ⟨rows, { self with frames := self.frames.push }, rfl, .push⟩
  | dataTrackPop =>
    rw [trackerStep] at h
    split at h
    · cases h
    · rename_i hdepth
      obtain ⟨frames, hpop, rfl⟩ := Option.map_eq_some_iff.1 h
      exact ⟨rows, { self with frames := frames }, rfl, .pop frames (by simpa using hdepth) hpop⟩

/-! ## No txid twice -/

/-- The txids listed are those of the transactions. -/
def Parallel (c : Crypto) (rows : List Row) : Prop := ∀ row ∈ rows, row.txid = transactionTxid c row.transaction

theorem Parallel.txids (h : Parallel c rows) : rows.map (·.txid) = rows.map fun row => transactionTxid c row.transaction :=
  List.map_congr_left h

theorem storedOnce_columns : StoredOnce c (columns rows self) ↔ (rows.map fun row => transactionTxid c row.transaction).Nodup := by
  rw [StoredOnce, columns_transactions, List.map_map]
  rfl

theorem rowsStep_parallel {call : TrackerCall} {rows' : List Row} {frames : Frames ScriptBlock} {parsed : Nat}
    (hstep : RowsStep c interesting self rows call rows' frames parsed) (h : Parallel c rows) : Parallel c rows' := by
  cases hstep with
  | dull data parsed hparsed hdull => exact h
  | stored data parsed hparsed hstores =>
    intro row hmem
    rcases List.mem_append.1 hmem with hmem | hmem
    · exact h row hmem
    · obtain rfl := List.mem_singleton.1 hmem
      exact (transactionTxid_fundInputs _ _).symm
  | nothing _ key id hremoves hlength => exact h
  | removed _ key id hremoves hlength _ htrack => exact fun row hmem => h row (List.mem_filter.1 hmem).1
  | push => exact h
  | pop _ hdepth hpop => exact h

/-- Txids are never NULL, so a match is a member. -/
theorem hasMatchingTxid_iff {transactions : List Transaction} {transaction : Transaction} :
    datasHasMatchingData (transactions.map (transactionTxid c)) (transactionTxid c transaction) = true ↔
      transactionTxid c transaction ∈ transactions.map (transactionTxid c) := by
  rw [datasHasMatchingData, List.any_eq_true]
  constructor
  · rintro ⟨txid, hmem, heq⟩
    obtain ⟨other, -, rfl⟩ := List.mem_map.1 hmem
    rw [dataEqual_iff] at heq
    have : transactionTxid c other = transactionTxid c transaction := congrArg some heq
    rwa [← this]
  · intro hmem
    exact ⟨_, hmem, by rw [dataEqual_iff]⟩

/-- A txid that is stored is not missing. -/
theorem missing_not_stored {tracker : TransactionTracker} {inTracker : TransactionTracker → Transaction → Bool} {txid : Data}
    (h : datasHasMatchingData (ttMissingFundingTransactions inTracker tracker) txid = true) :
    datasHasMatchingData tracker.allTransactionTxids txid = false := by
  rw [datasHasMatchingData, List.any_eq_true] at h
  obtain ⟨hash, hmem, heq⟩ := h
  obtain ⟨transaction, -, hmem⟩ := List.mem_flatMap.1 hmem
  have hnot := (List.mem_filter.1 hmem).2
  rw [Bool.not_eq_true'] at hnot
  have hsame : ∀ d : Data, dataEqual d txid = dataEqual d hash := by
    intro d
    rw [dataEqual_iff] at heq
    rw [dataEqual, dataEqual, heq]
  simp only [datasHasMatchingData, hsame] at hnot ⊢
  exact hnot

/-- A stored transaction keeps the txids apart exactly when it is added as the condition says. -/
theorem stored_apart_iff {data : Data} {parsed : Transaction} (hparallel : Parallel c rows)
    (honce : (rows.map fun row => transactionTxid c row.transaction).Nodup) (hparsed : transactionNew data = some parsed)
    (hstores : Stores c interesting (columns rows self) data parsed) :
    ((rows ++ [addedRow c (columns rows self) data parsed]).map fun row => transactionTxid c row.transaction).Nodup ↔
      AddsKnownBytes c interesting (columns rows self) (.addTransaction data) := by
  obtain ⟨hinteresting, hnohash, hnotxid⟩ := hstores
  have hlisted : datasHasMatchingData (columns rows self).allTransactionTxids (transactionTxid c parsed) = true ↔
      transactionTxid c parsed ∈ rows.map fun row => transactionTxid c row.transaction := by
    have hmap : (rows.map fun row => transactionTxid c row.transaction) = (rows.map (·.transaction)).map (transactionTxid c) := by
      rw [List.map_map]
      rfl
    rw [columns_txids, hparallel.txids, hmap]
    exact hasMatchingTxid_iff
  rw [List.map_append, List.map_singleton, List.nodup_append_comm, List.singleton_append, List.nodup_cons,
    show transactionTxid c (addedRow c (columns rows self) data parsed).transaction = transactionTxid c parsed from
      transactionTxid_fundInputs _ _, ← hlisted]
  simp only [AddsKnownBytes, hparsed, Option.some.injEq, forall_eq']
  rw [hnohash, hnotxid]
  constructor
  · intro h _ hstored
    exact absurd hstored h.1
  · intro hadds
    refine ⟨fun hstored => ?_, honce⟩
    -- a stored txid is not missing, so the transaction itself is interesting
    rcases hinteresting with h | h
    · rcases hadds h hstored with h | h <;> cases h
    · have hnot : datasHasMatchingData (columns rows self).allTransactionTxids (transactionTxid c parsed) = false :=
        missing_not_stored h
      rw [hnot] at hstored
      cases hstored

/-- The tracker is a table whose txids are those of its transactions. -/
def ParallelTable (c : Crypto) (self : TrackerMemory) : Prop := ∃ rows base, self = columns rows base ∧ Parallel c rows

theorem addsKnownBytes_of_removes {call : TrackerCall} {key : Row → Data} {id : Data} (hremoves : call.removes = some (key, id)) :
    AddsKnownBytes c interesting self call := by
  cases call with
  | addTransaction data => cases hremoves
  | removeTransactionByHash hash => trivial
  | removeTransactionByTxid txid => trivial
  | dataTrackPush => trivial
  | dataTrackPop => trivial

theorem trackerStep_storedOnce_iff {call : TrackerCall} (htable : ParallelTable c self) (hs : StoredOnce c self)
    (h : trackerStep c interesting self call = some next) :
    ParallelTable c next ∧ (StoredOnce c next ↔ AddsKnownBytes c interesting self call) := by
  obtain ⟨rows, base, rfl, hparallel⟩ := htable
  obtain ⟨rows', next', rfl, hstep⟩ := trackerStep_columns h
  refine ⟨⟨rows', next', rfl, rowsStep_parallel hstep hparallel⟩, ?_⟩
  rw [storedOnce_columns] at hs ⊢
  generalize next'.frames = frames, next'.parsed = parsed at hstep
  cases hstep with
  | dull data parsed hparsed hdull =>
    refine iff_of_true hs ?_
    intro transaction htransaction hinteresting _
    cases hparsed.symm.trans htransaction
    by_contra hknown
    rw [not_or, Bool.not_eq_true, Bool.not_eq_true] at hknown
    exact hdull ⟨Or.inl hinteresting, hknown⟩
  | stored data parsed hparsed hstores => exact stored_apart_iff hparallel hs hparsed hstores
  | nothing _ key id hremoves hlength => exact iff_of_true hs (addsKnownBytes_of_removes hremoves)
  | removed _ key id hremoves hlength _ htrack =>
    exact iff_of_true (hs.sublist (List.filter_sublist.map _)) (addsKnownBytes_of_removes hremoves)
  | push => exact iff_of_true hs trivial
  | pop _ hdepth hpop => exact iff_of_true hs trivial

/-- What stops a run adds nothing. -/
theorem addsKnownBytes_of_abort {call : TrackerCall} (htable : ParallelTable c self)
    (h : trackerStep c interesting self call = none) : AddsKnownBytes c interesting self call := by
  obtain ⟨rows, base, rfl, -⟩ := htable
  cases call with
  | addTransaction data =>
    intro parsed hparsed
    obtain ⟨rows', next, hadd, -⟩ := @trackerStep_add c interesting base rows data parsed hparsed
    rw [hadd] at h
    cases h
  | removeTransactionByHash hash => trivial
  | removeTransactionByTxid txid => trivial
  | dataTrackPush => trivial
  | dataTrackPop => trivial

/-! ## A new tracker -/

def parsedData (data : Data) : Transaction := (transactionNew data).getD default

/-- The database holds nothing that does not parse. -/
def AllParsed (array : Datas) : Prop := ∀ data ∈ array, transactionNew data = some (parsedData data)

/-- Nothing stored yet. -/
def TrackerMemory.opened (outer parsed : Nat) : TrackerMemory :=
  { allTransactions := []
    allTransactionHashes := []
    allTransactionTxids := []
    matchCount := 0
    mismatchCount := 0
    blocks := []
    parsed := parsed
    frames := ⟨[], List.replicate (outer + 1) []⟩ }

/-- The rows of a new tracker before it links the inputs. -/
def parsedRows (c : Crypto) (array : Datas) : List Row :=
  array.zipIdx.map fun data =>
    ⟨parsedData data.1, hash256 c data.1, transactionTxid c (parsedData data.1), ⟨data.2, []⟩⟩

/-- The row with the outputs its inputs spend. -/
def Row.link (rows : List Row) (row : Row) : Row :=
  { row with transaction := fundInputs (columns rows (TrackerMemory.opened 0 0)).toTransactionTracker row.transaction }

/-- The row with the memory of their scripts. -/
def Row.share (rows : List Row) (row : Row) : Row :=
  { row with
    blocks := ⟨row.blocks.number, row.transaction.inputs.map (fundingBlock (columns rows (TrackerMemory.opened 0 0)))⟩ }

def linkedRows (c : Crypto) (array : Datas) : List Row := (parsedRows c array).map (Row.link (parsedRows c array))

def newRows (c : Crypto) (array : Datas) : List Row := (linkedRows c array).map (Row.share (linkedRows c array))

theorem map_parsedRows {α : Type} (array : Datas) (f : Row → α) (g : Data → α)
    (h : ∀ data number, f ⟨parsedData data, hash256 c data, transactionTxid c (parsedData data), ⟨number, []⟩⟩ = g data) :
    (parsedRows c array).map f = array.map g := by
  conv_rhs => rw [← List.zipIdx_map_fst 0 array]
  rw [parsedRows, List.map_map, List.map_map]
  exact List.map_congr_left fun data _ => h data.1 data.2

theorem linkedRows_numbers (array : Datas) :
    (linkedRows c array).map (·.blocks) = (List.range array.length).map (⟨·, []⟩) := by
  have hrange : List.range array.length = array.zipIdx.map Prod.snd := by
    rw [List.zipIdx_map_snd, List.range_eq_range']
  rw [linkedRows, parsedRows, List.map_map, List.map_map, hrange, List.map_map]
  rfl

theorem parsedRows_tracker (array : Datas) :
    (columns (parsedRows c array) (TrackerMemory.opened 0 0)).toTransactionTracker =
      ⟨array.map parsedData, array.map (hash256 c), array.map fun data => transactionTxid c (parsedData data), 0, 0⟩ := by
  have htransactions : (parsedRows c array).map (·.transaction) = array.map parsedData :=
    map_parsedRows array (·.transaction) parsedData fun _ _ => rfl
  have hhashes : (parsedRows c array).map (·.hash) = array.map (hash256 c) :=
    map_parsedRows array (·.hash) (hash256 c) fun _ _ => rfl
  have htxids : (parsedRows c array).map (·.txid) = array.map fun data => transactionTxid c (parsedData data) :=
    map_parsedRows array (·.txid) (fun data => transactionTxid c (parsedData data)) fun _ _ => rfl
  rw [← htransactions, ← hhashes, ← htxids]
  rfl

theorem linkedRows_tracker (array : Datas) :
    (columns (linkedRows c array) (TrackerMemory.opened 0 0)).toTransactionTracker =
      ⟨array.map fun data => fundInputs (columns (parsedRows c array) (TrackerMemory.opened 0 0)).toTransactionTracker
          (parsedData data), array.map (hash256 c), array.map fun data => transactionTxid c (parsedData data), 0, 0⟩ := by
  have hlists : ∀ {α : Type} (f : Row → α), (linkedRows c array).map f =
      (parsedRows c array).map fun row => f (row.link (parsedRows c array)) := fun f => List.map_map
  have htransactions : (linkedRows c array).map (·.transaction) = array.map fun data =>
      fundInputs (columns (parsedRows c array) (TrackerMemory.opened 0 0)).toTransactionTracker (parsedData data) := by
    rw [hlists]
    exact map_parsedRows array _ _ fun _ _ => rfl
  have hhashes : (linkedRows c array).map (·.hash) = array.map (hash256 c) := by
    rw [hlists]
    exact map_parsedRows array _ _ fun _ _ => rfl
  have htxids : (linkedRows c array).map (·.txid) = array.map fun data => transactionTxid c (parsedData data) := by
    rw [hlists]
    exact map_parsedRows array _ _ fun _ _ => rfl
  rw [← htransactions, ← hhashes, ← htxids]
  rfl

theorem ttNew_of_parsed {array : Datas} (h : AllParsed array) :
    BitcoinSpoon.ttNew c array = some (columns (linkedRows c array) (TrackerMemory.opened 0 0)).toTransactionTracker := by
  rw [BitcoinSpoon.ttNew, mapM_of_forall h, linkedRows_tracker, parsedRows_tracker, Option.bind_eq_bind, Option.bind_some,
    List.map_map]
  dsimp only
  rw [List.map_map]
  rfl

theorem ttNew_parsed {array : Datas} {tracker : TransactionTracker} (h : BitcoinSpoon.ttNew c array = some tracker) :
    AllParsed array := by
  obtain ⟨transactions, htransactions, -⟩ := Option.bind_eq_some_iff.1 h
  exact (mapM_some htransactions default).2

theorem ttNew_columns {outer : Nat} {array : Datas} (h : TrackerMemory.ttNew c outer array = some self) :
    AllParsed array ∧ self = columns (newRows c array) (TrackerMemory.opened outer array.length) := by
  obtain ⟨tracker, htracker, rfl⟩ := Option.map_eq_some_iff.1 h
  have hparsed := ttNew_parsed htracker
  refine ⟨hparsed, ?_⟩
  have hlinked : tracker = (columns (linkedRows c array) (TrackerMemory.opened 0 0)).toTransactionTracker :=
    Option.some.inj (htracker.symm.trans (ttNew_of_parsed hparsed))
  have hlength : tracker.allTransactions.length = array.length := by
    rw [hlinked, linkedRows_tracker, List.length_map]
  -- the memory is looked up in the lists
  have hshared : ∀ memory : TrackerMemory, memory.toTransactionTracker = tracker →
      memory.blocks = (List.range array.length).map (⟨·, []⟩) →
      fundingBlock memory = fundingBlock (columns (linkedRows c array) (TrackerMemory.opened 0 0)) := by
    intro memory htracker hblocks
    funext input
    rw [fundingBlock, fundingBlock, columns_blocks, linkedRows_numbers, hblocks, htracker, hlinked]
  have hnumbers : (linkedRows c array).map (fun row => row.blocks.number) = List.range array.length := by
    have h := congrArg (List.map ScriptBlocks.number) (linkedRows_numbers (c := c) array)
    rw [List.map_map, List.map_map] at h
    rw [← List.map_id (List.range array.length)]
    exact h
  have hrows : tracker.allTransactions.zipIdx = (linkedRows c array).map fun row => (row.transaction, row.blocks.number) := by
    rw [List.zipIdx_eq_zip_range', hlength, ← List.range_eq_range', ← hnumbers, hlinked, columns_transactions, List.zip_map']
  have hlists : ∀ {α : Type} (f : Row → α), (newRows c array).map f =
      (linkedRows c array).map fun row => f (row.share (linkedRows c array)) := fun f => List.map_map
  dsimp only
  rw [hshared _ rfl (by rw [hlength]), hrows, hlength, hlinked, List.map_map]
  simp only [columns, hlists]
  rfl

theorem newRows_parallel (array : Datas) : Parallel c (newRows c array) := by
  intro row hrow
  obtain ⟨linked, hlinked, rfl⟩ := List.mem_map.1 hrow
  obtain ⟨parsed, hparsed, rfl⟩ := List.mem_map.1 hlinked
  obtain ⟨data, -, rfl⟩ := List.mem_map.1 hparsed
  exact (transactionTxid_fundInputs _ _).symm

theorem newRows_txids (array : Datas) :
    (newRows c array).map (fun row => transactionTxid c row.transaction) =
      array.map fun data => transactionTxid c (parsedData data) := by
  rw [← (newRows_parallel array).txids, newRows, List.map_map, linkedRows, List.map_map]
  exact map_parsedRows array _ _ fun _ _ => rfl

/-- The database holds each transaction once. -/
def DatabaseOnce (c : Crypto) (array : Datas) : Prop :=
  ∀ transactions, array.mapM transactionNew = some transactions → (transactions.map (transactionTxid c)).Nodup

/-- In a run from a new tracker over a database without duplicates, no two stored
    transactions ever have the same txid exactly when every transaction that is stored
    already and added once more comes in bytes whose hash is stored. -/
theorem stored_once {outer : Nat} {array : Datas} {calls : List TrackerCall}
    (hnew : TrackerMemory.ttNew c outer array = some self) (hdatabase : DatabaseOnce c array) :
    Throughout (trackerStep c interesting) (StoredOnce c) self calls ↔
      Along (trackerStep c interesting) (AddsKnownBytes c interesting) self calls := by
  obtain ⟨hparsed, rfl⟩ := ttNew_columns hnew
  have htable : ParallelTable c (columns (newRows c array) (TrackerMemory.opened outer array.length)) :=
    ⟨_, _, rfl, newRows_parallel array⟩
  refine @throughout_iff_along _ _ _ (StoredOnce c) (ParallelTable c) (AddsKnownBytes c interesting) (fun _ _ _ htable hs h => ?_)
    (fun _ _ htable _ h => addsKnownBytes_of_abort htable h) _ _ htable ?_
  · obtain ⟨hnext, hiff⟩ := trackerStep_storedOnce_iff htable hs h
    exact ⟨fun _ => hnext, hiff⟩
  · rw [storedOnce_columns, newRows_txids]
    have hmap : array.mapM transactionNew = some (array.map parsedData) := mapM_of_forall hparsed
    have honce := hdatabase _ hmap
    rw [List.map_map] at honce
    exact honce

/-- One input, one output of 5 to a script that pushes one byte. -/
def strippedTransaction : Bytes :=
  [1, 0, 0, 0, 1] ++ List.replicate 41 0 ++ [1, 5, 0, 0, 0, 0, 0, 0, 0, 2, 1, 7] ++ [0, 0, 0, 0]

/-- The same with a witness of one byte. -/
def witnessTransaction : Bytes :=
  [1, 0, 0, 0, 0, 1, 1] ++ List.replicate 41 0 ++ [1, 5, 0, 0, 0, 0, 0, 0, 0, 2, 1, 7] ++ [1, 1, 7] ++ [0, 0, 0, 0]

/-- The wallet has the byte they pay. -/
def paidKeys : Dict := dictAdd dictNew (some [7]) none

def paidInteresting (_ : TrackerMemory) : Transaction → Bool := ttInterestingTransaction paidKeys

theorem databaseOnce_nil : DatabaseOnce plainCrypto [] := by
  intro transactions h
  cases h
  exact List.nodup_nil

theorem stored_once_first :
    Throughout (trackerStep plainCrypto paidInteresting) (StoredOnce plainCrypto) (columns [] (TrackerMemory.opened 0 0))
      [.addTransaction (some witnessTransaction)] := by
  have hnew : TrackerMemory.ttNew plainCrypto 0 [] = some (columns [] (TrackerMemory.opened 0 0)) := rfl
  refine (stored_once hnew databaseOnce_nil).2 ⟨?_, fun _ _ => trivial⟩
  intro transaction _ _ hstored
  cases hstored

/-- The transaction without its witness first, then with it. -/
theorem not_stored_once :
    ¬ ∀ (c : Crypto) (interesting : TrackerMemory → Transaction → Bool) (outer : Nat) (array : Datas)
      (calls : List TrackerCall) (self : TrackerMemory), TrackerMemory.ttNew c outer array = some self → DatabaseOnce c array →
      Throughout (trackerStep c interesting) (StoredOnce c) self calls := by
  intro h
  have hall := h plainCrypto paidInteresting 0 []
    [.addTransaction (some strippedTransaction), .addTransaction (some witnessTransaction)] _ rfl databaseOnce_nil
  obtain ⟨reached, hreached⟩ := Option.isSome_iff_exists.1
    (show (after (trackerStep plainCrypto paidInteresting) (columns [] (TrackerMemory.opened 0 0))
      [.addTransaction (some strippedTransaction), .addTransaction (some witnessTransaction)]).isSome = true by decide +kernel)
  have hstored := hall _ (List.prefix_refl _) reached hreached
  have htwice : (after (trackerStep plainCrypto paidInteresting) (columns [] (TrackerMemory.opened 0 0))
      [.addTransaction (some strippedTransaction), .addTransaction (some witnessTransaction)]).map
        (fun reached => decide (reached.allTransactions.map (transactionTxid plainCrypto)).Nodup) = some false := by
    decide +kernel
  rw [hreached, Option.map_some, Option.some.injEq, decide_eq_false_iff_not] at htwice
  exact htwice hstored

end BitcoinSpoon
