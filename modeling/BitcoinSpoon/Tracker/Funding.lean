/-
  BitcoinSpoon.Tracker.Funding — the outputs the stored inputs spend
  (`code/TransactionTracker.c`).

  `TTNew` links every input to the output it spends, `TTAddTransaction` only the inputs of
  the transaction it adds, and a removal none. So a transaction that comes after one that
  spends it stays unlinked until the next `TTNew`, and the output of a removed transaction
  stays where it was spent, without its script when the scope has ended
  (`not_funded_as_new`). And a removal takes the funding scripts of its row along.
  `funded_as_new_iff` says exactly which calls keep every link.
-/

import BitcoinSpoon.Tracker.Aligned

namespace BitcoinSpoon

open Wire Loop

variable {c : Crypto} {interesting : TrackerMemory → Transaction → Bool} {self next : TrackerMemory} {rows rows' : List Row}

/-! ## Links -/

/-- No output. -/
def noOutput : TransactionOutput := ⟨none, 0⟩

/-- The output the input refers to, as far as it is stored. -/
def referencedOutput (self : TransactionTracker) (input : TransactionInput) : TransactionOutput :=
  (transactionOutputOrNilAt (ttTransactionForTxid self input.previousTransactionHash) input.outputIndex).getD noOutput

/-- Every input is linked to the output it refers to, if that is stored, and else to none. -/
def Funded (self : TransactionTracker) : Prop :=
  ∀ transaction ∈ self.allTransactions, ∀ input ∈ transaction.inputs, input.fundingOutput = referencedOutput self input

/-- The lists are those `TTNew` would build from the bytes of what is stored. -/
def AsNew (c : Crypto) (self : TransactionTracker) : Prop :=
  ∃ array fresh, List.Forall₂ ParsedFrom array self.allTransactions ∧
    array.map (hash256 c) = self.allTransactionHashes ∧ ttNew c array = some fresh ∧
    fresh.allTransactions = self.allTransactions ∧ fresh.allTransactionHashes = self.allTransactionHashes ∧
    fresh.allTransactionTxids = self.allTransactionTxids

/-- The scripts of the funding outputs. -/
def TrackerMemory.fundingScripts (self : TrackerMemory) : List ScriptBlock :=
  self.blocks.flatMap fun blocks => blocks.fundingOutputs.filterMap id

/-- Every link is right, the lists are those of a new tracker, and the scripts of the outputs
    and of the links are there, also when the open scopes have ended. -/
structure FundedAsNew (c : Crypto) (self : TrackerMemory) : Prop where
  funded : Funded self.toTransactionTracker
  asNew : AsNew c self.toTransactionTracker
  scripts : ∃ ended, self.frames.close = some ended ∧ ∀ block ∈ self.outputScripts ++ self.fundingScripts, block ∉ ended.freed

/-! ## The condition -/

def parentOf (rows : List Row) (input : TransactionInput) : Option Row :=
  rows.find? fun row => dataEqual row.txid input.previousTransactionHash

/-- The output of `row` that the input refers to. -/
def outputOf (row : Option Row) (input : TransactionInput) : TransactionOutput :=
  (transactionOutputOrNilAt (row.map (·.transaction)) input.outputIndex).getD noOutput

/-- No row that goes is spent by one that stays: the output is empty, or has no script and
    another row with the txid stays and has the same. -/
def NoneLeftSpending (key : Row → Data) (id : Data) (rows : List Row) : Prop :=
  ∀ spender ∈ staying key id rows, ∀ input ∈ spender.transaction.inputs, ∀ parent, parentOf rows input = some parent →
    dataEqual (key parent) id = true →
    (outputOf (some parent) input).script = none ∧
      outputOf (some parent) input = outputOf (parentOf (staying key id rows) input) input

/-- A transaction that is stored comes before the ones that spend it, unless its txid is
    stored already. -/
def ParentsFirst (c : Crypto) (interesting : TrackerMemory → Transaction → Bool) (self : TrackerMemory) : TrackerCall → Prop
  | .addTransaction data =>
    ∀ transaction, transactionNew data = some transaction → Stores c interesting self data transaction →
      ttTransactionForTxid self.toTransactionTracker (transactionTxid c transaction) = none →
      ∀ spender ∈ self.allTransactions ++ [transaction], ∀ input ∈ spender.inputs,
        dataEqual (transactionTxid c transaction) input.previousTransactionHash = true →
        (transactionOutputOrNilAt (some transaction) input.outputIndex).getD noOutput = noOutput
  | _ => True

/-- A transaction that is removed spends no stored script and is spent by none that stays. -/
def NoneSpent (self : TrackerMemory) (call : TrackerCall) : Prop :=
  Unlinked self call ∧ ∀ key id, call.removes = some (key, id) → id.length ≠ 0 → NoneLeftSpending key id (rowsOf self)

/-! ## Rows -/

variable {key : Row → Data} {id : Data} {frames frames' : Frames ScriptBlock} {parsed : Nat}

theorem referencedOutput_columns (input : TransactionInput) :
    referencedOutput (columns rows self).toTransactionTracker input = outputOf (parentOf rows input) input := by
  rw [referencedOutput, forTxid_columns]
  rfl

/-- Every stored input has the output its row is found to have. -/
def RowsFunded (rows : List Row) : Prop :=
  ∀ row ∈ rows, ∀ input ∈ row.transaction.inputs, input.fundingOutput = outputOf (parentOf rows input) input

theorem funded_columns : Funded (columns rows self).toTransactionTracker ↔ RowsFunded rows := by
  simp only [Funded, RowsFunded, referencedOutput_columns, columns_transactions, List.forall_mem_map]

/-- Two tables in which every input finds the same output are funded alike. -/
theorem rowsFunded_congr (hfunded : RowsFunded rows) (hsub : ∀ row ∈ rows', row ∈ rows) :
    RowsFunded rows' ↔ ∀ row ∈ rows', ∀ input ∈ row.transaction.inputs,
      outputOf (parentOf rows input) input = outputOf (parentOf rows' input) input := by
  constructor
  · intro h row hmem input hinput
    rw [← hfunded row (hsub row hmem) input hinput, h row hmem input hinput]
  · intro h row hmem input hinput
    rw [hfunded row (hsub row hmem) input hinput, h row hmem input hinput]

/-! ## Removing -/

theorem parentOf_cons (row : Row) (rows : List Row) (input : TransactionInput) :
    parentOf (row :: rows) input =
      if dataEqual row.txid input.previousTransactionHash = true then some row else parentOf rows input := by
  rw [parentOf, List.find?_cons]
  split <;> rename_i h <;> simp [h, parentOf]

theorem staying_cons (key : Row → Data) (id : Data) (row : Row) (rows : List Row) :
    staying key id (row :: rows) =
      if dataEqual (key row) id = true then staying key id rows else row :: staying key id rows := by
  rw [staying, List.filter_cons]
  by_cases h : dataEqual (key row) id = true <;> simp [h, staying]

/-- A parent that stays is found as before. -/
theorem parentOf_staying {key : Row → Data} {id : Data} {rows : List Row} {input : TransactionInput}
    (h : ∀ parent, parentOf rows input = some parent → ¬ dataEqual (key parent) id = true) :
    parentOf (staying key id rows) input = parentOf rows input := by
  induction rows with
  | nil => rfl
  | cons row rows ih =>
    rw [parentOf_cons] at h
    rw [staying_cons, parentOf_cons]
    split at h
    · rename_i hparent
      rw [if_neg (h row rfl), parentOf_cons, if_pos hparent, if_pos hparent]
    · rename_i hparent
      rw [if_neg hparent]
      split
      · exact ih h
      · rw [parentOf_cons, if_neg hparent]
        exact ih h

/-- What the rows that stay find where a parent goes. -/
theorem parentOf_staying_cases (rows : List Row) (key : Row → Data) (id : Data) (input : TransactionInput) :
    parentOf (staying key id rows) input = parentOf rows input ∨
      ∃ parent, parentOf rows input = some parent ∧ dataEqual (key parent) id = true := by
  by_cases hgone : ∃ parent, parentOf rows input = some parent ∧ dataEqual (key parent) id = true
  · exact Or.inr hgone
  · exact Or.inl (parentOf_staying fun parent hparent hgoes => hgone ⟨parent, hparent, hgoes⟩)

theorem rowsFunded_staying (hfunded : RowsFunded rows) :
    RowsFunded (staying key id rows) ↔
      ∀ spender ∈ staying key id rows, ∀ input ∈ spender.transaction.inputs, ∀ parent, parentOf rows input = some parent →
        dataEqual (key parent) id = true → outputOf (some parent) input = outputOf (parentOf (staying key id rows) input) input := by
  have hsub : ∀ row ∈ staying key id rows, row ∈ rows := fun row hmem => (List.mem_filter.1 hmem).1
  rw [rowsFunded_congr hfunded hsub]
  constructor
  · intro h spender hspender input hinput parent hparent _
    rw [← h spender hspender input hinput, hparent]
  · intro h spender hspender input hinput
    rcases parentOf_staying_cases rows key id input with hsame | hgone
    · rw [hsame]
    · obtain ⟨parent, hparent, hgone⟩ := hgone
      rw [hparent]
      exact h spender hspender input hinput parent hparent hgone

/-! ## Adding -/

theorem parentOf_concat (rows : List Row) (row : Row) (input : TransactionInput) :
    parentOf (rows ++ [row]) input =
      match parentOf rows input with
      | some parent => some parent
      | none => if dataEqual row.txid input.previousTransactionHash = true then some row else none := by
  rw [parentOf, List.find?_append]
  show (parentOf rows input).or _ = _
  cases parentOf rows input with
  | some parent => rfl
  | none => exact parentOf_cons row [] input

/-- The link `TTAddTransaction` makes. -/
theorem fundInputs_linked {parsed : Transaction} (hparsed : ∀ input ∈ parsed.inputs, Unfunded input) :
    (fundInputs (columns rows self).toTransactionTracker parsed).inputs =
      parsed.inputs.map fun input => { input with fundingOutput := outputOf (parentOf rows input) input } := by
  refine List.map_congr_left fun input hinput => ?_
  have hlookup : ttTransactionForTxid (columns rows self).toTransactionTracker input.previousTransactionHash =
      (parentOf rows input).map (·.transaction) := forTxid_columns _
  rw [hlookup, outputOf]
  split
  · rename_i output houtput
    rw [houtput]
    rfl
  · rename_i hnone
    have hempty : input.fundingOutput = noOutput := hparsed input hinput
    rw [hnone, Option.getD_none, ← hempty]

theorem parentOf_eq_none {txid : Data} {input : TransactionInput}
    (h : dataEqual txid input.previousTransactionHash = true) :
    parentOf rows input = none ↔ ttTransactionForTxid (columns rows self).toTransactionTracker txid = none := by
  have hsame : ∀ row : Row, dataEqual row.txid input.previousTransactionHash = dataEqual row.txid txid := by
    intro row
    rw [dataEqual_iff] at h
    rw [dataEqual, dataEqual, h]
  rw [forTxid_columns, Option.map_eq_none_iff, parentOf]
  simp only [hsame]

theorem outputOf_none (input : TransactionInput) : outputOf none input = noOutput := by
  show (transactionOutputOrNilAt none input.outputIndex).getD noOutput = noOutput
  unfold transactionOutputOrNilAt
  split <;> rfl

/-- A new row is found by the inputs that refer to it and to no row before it. -/
theorem outputOf_concat {row : Row} {input : TransactionInput} :
    outputOf (parentOf rows input) input = outputOf (parentOf (rows ++ [row]) input) input ↔
      (dataEqual row.txid input.previousTransactionHash = true → parentOf rows input = none →
        outputOf (some row) input = noOutput) := by
  rw [parentOf_concat]
  cases hparent : parentOf rows input with
  | some parent => simp
  | none =>
    dsimp only
    split
    · rename_i hrow
      rw [outputOf_none]
      exact ⟨fun h _ _ => h.symm, fun h => (h hrow rfl).symm⟩
    · rename_i hrow
      exact iff_of_true rfl fun h => absurd h hrow

theorem rowsFunded_concat {data : Data} {transaction : Transaction} (hfunded : RowsFunded rows)
    (hparsed : ∀ input ∈ transaction.inputs, Unfunded input) :
    RowsFunded (rows ++ [addedRow c (columns rows self) data transaction]) ↔
      (ttTransactionForTxid (columns rows self).toTransactionTracker (transactionTxid c transaction) = none →
        ∀ spender ∈ (columns rows self).allTransactions ++ [transaction], ∀ input ∈ spender.inputs,
          dataEqual (transactionTxid c transaction) input.previousTransactionHash = true →
          (transactionOutputOrNilAt (some transaction) input.outputIndex).getD noOutput = noOutput) := by
  -- the inputs of the new row are those parsed, linked to the rows before it
  have hinputs : (addedRow c (columns rows self) data transaction).transaction.inputs =
      transaction.inputs.map fun input => { input with fundingOutput := outputOf (parentOf rows input) input } :=
    fundInputs_linked hparsed
  have hkeeps : ∀ input : TransactionInput,
      outputOf (parentOf rows input) input =
          outputOf (parentOf (rows ++ [addedRow c (columns rows self) data transaction]) input) input ↔
        (ttTransactionForTxid (columns rows self).toTransactionTracker (transactionTxid c transaction) = none →
          dataEqual (transactionTxid c transaction) input.previousTransactionHash = true →
          (transactionOutputOrNilAt (some transaction) input.outputIndex).getD noOutput = noOutput) := by
    intro input
    rw [outputOf_concat]
    constructor
    · exact fun h hnone hrefers => h hrefers ((parentOf_eq_none hrefers).2 hnone)
    · exact fun h hrefers hnone => h ((parentOf_eq_none hrefers).1 hnone) hrefers
  constructor
  · intro h hnone spender hspender input hinput
    rcases List.mem_append.1 hspender with hspender | hspender
    · obtain ⟨old, hold, rfl⟩ := List.mem_map.1 hspender
      refine (hkeeps input).1 ?_ hnone
      rw [← hfunded old hold input hinput, h old (List.mem_append_left _ hold) input hinput]
    · obtain rfl := List.mem_singleton.1 hspender
      exact (hkeeps input).1 (h _ (List.mem_append_right _ (List.mem_singleton.2 rfl)) _
        (by rw [hinputs]; exact List.mem_map_of_mem hinput)) hnone
  · intro h other hother input hinput
    rcases List.mem_append.1 hother with hother | hother
    · rw [hfunded other hother input hinput]
      exact (hkeeps input).2 fun hnone => h hnone _ (List.mem_append_left _ (List.mem_map_of_mem hother)) input hinput
    · obtain rfl := List.mem_singleton.1 hother
      rw [hinputs] at hinput
      obtain ⟨base, hbase, rfl⟩ := List.mem_map.1 hinput
      exact (hkeeps base).2 fun hnone => h hnone transaction (by simp) base hbase

/-! ## The memory of the links -/

/-- Every funding script is that of the output its row is found to have. -/
def RowsShared (rows : List Row) : Prop :=
  ∀ row ∈ rows, row.blocks.fundingOutputs =
    row.transaction.inputs.map fun input => (parentOf rows input).bind fun parent => parent.outputBlock input

theorem outputBlock_eq (row : Row) (input : TransactionInput) :
    row.outputBlock input = (outputOf (some row) input).script.map fun _ => (row.blocks.number, input.outputIndex.toNat) := by
  rw [Row.outputBlock, outputOf, Option.map_some]
  cases transactionOutputOrNilAt (some row.transaction) input.outputIndex <;> rfl

/-- No output, no script. -/
theorem outputBlock_none {parent : Option Row} {input : TransactionInput} (h : (outputOf parent input).script = none) :
    (parent.bind fun parent => parent.outputBlock input) = none := by
  cases parent with
  | none => rfl
  | some row => rw [Option.bind_some, outputBlock_eq, h, Option.map_none]

/-- Where the parents stay the same, or have no script, so do the links. -/
theorem RowsShared.congr (h : RowsShared rows) (hsub : ∀ row ∈ rows', row ∈ rows)
    (hparents : ∀ row ∈ rows', ∀ input ∈ row.transaction.inputs, parentOf rows' input = parentOf rows input ∨
      (outputOf (parentOf rows input) input).script = none ∧ (outputOf (parentOf rows' input) input).script = none) :
    RowsShared rows' := by
  intro row hrow
  rw [h row (hsub row hrow)]
  refine List.map_congr_left fun input hinput => ?_
  rcases hparents row hrow input hinput with hsame | hnone
  · rw [hsame]
  · rw [outputBlock_none hnone.1, outputBlock_none hnone.2]

theorem RowsShared.funding (h : RowsShared rows) {row : Row} (hrow : row ∈ rows) {block : ScriptBlock} :
    block ∈ row.funding ↔ ∃ input ∈ row.transaction.inputs, ∃ parent, parentOf rows input = some parent ∧
      parent.outputBlock input = some block := by
  rw [Row.funding, h row hrow, List.filterMap_map, List.mem_filterMap]
  simp only [Function.comp_apply, Function.id_def, Option.bind_eq_some_iff]

theorem RowsShared.add {data : Data} {transaction : Transaction} (h : RowsShared rows) (hfunded : RowsFunded rows)
    (hparsed : ∀ input ∈ transaction.inputs, Unfunded input)
    (hnext : RowsFunded (rows ++ [addedRow c (columns rows self) data transaction])) :
    RowsShared (rows ++ [addedRow c (columns rows self) data transaction]) := by
  have hinputs : (addedRow c (columns rows self) data transaction).transaction.inputs =
      transaction.inputs.map fun input => { input with fundingOutput := outputOf (parentOf rows input) input } :=
    fundInputs_linked hparsed
  -- a parent that is new has no script, and an input without a parent has none
  have hsame : ∀ input, outputOf (parentOf rows input) input =
      outputOf (parentOf (rows ++ [addedRow c (columns rows self) data transaction]) input) input →
      ((parentOf (rows ++ [addedRow c (columns rows self) data transaction]) input).bind fun parent => parent.outputBlock input) =
        (parentOf rows input).bind fun parent => parent.outputBlock input := by
    intro input heq
    cases hparent : parentOf rows input with
    | some parent =>
      rw [parentOf_concat, hparent]
    | none =>
      rw [hparent, outputOf_none] at heq
      rw [outputBlock_none (by rw [← heq]; rfl)]
      rfl
  intro row hrow
  rcases List.mem_append.1 hrow with hmem | hmem
  · rw [h row hmem]
    refine List.map_congr_left fun input hinput => (hsame input ?_).symm
    rw [← hfunded row hmem input hinput, hnext row hrow input hinput]
  · obtain rfl := List.mem_singleton.1 hmem
    rw [hinputs, List.map_map]
    refine List.map_congr_left fun input hinput => ?_
    have hlink := hnext _ hrow _ (by rw [hinputs]; exact List.mem_map_of_mem hinput)
    rw [fundingBlock_columns]
    exact (hsame input hlink).symm

/-! ## One step -/

/-- Every link is right, and what is linked is there, also when the open scopes have ended. -/
structure RowsKept (rows : List Row) (frames : Frames ScriptBlock) : Prop where
  funded : RowsFunded rows
  untracked : Untracked rows frames
  live : ∀ block ∈ rows.flatMap Row.funding, frames.Live block

theorem NoneSpent.of_not_removes {call : TrackerCall} (h : call.removes = none) : NoneSpent self call := by
  refine ⟨.of_not_removes h, fun key id hremoves => ?_⟩
  rw [h] at hremoves
  cases hremoves

theorem parentsFirst_of_removes {call : TrackerCall} (h : call.removes ≠ none) : ParentsFirst c interesting self call := by
  cases call with
  | addTransaction data => exact absurd rfl h
  | removeTransactionByHash hash => trivial
  | removeTransactionByTxid txid => trivial
  | dataTrackPush => trivial
  | dataTrackPop => trivial

/-- Adding keeps the links exactly if the parents come first. -/
theorem added_kept_iff {data : Data} {transaction : Transaction} (hnumbered : Numbered rows self.frames self.parsed)
    (hkept : RowsKept rows self.frames) (hparsed : transactionNew data = some transaction)
    (hstores : Stores c interesting (columns rows self) data transaction) :
    RowsKept (rows ++ [addedRow c (columns rows self) data transaction]) self.frames ↔
      ParentsFirst c interesting (columns rows self) (.addTransaction data) := by
  have hfunded : RowsFunded (rows ++ [addedRow c (columns rows self) data transaction]) ↔ _ :=
    rowsFunded_concat hkept.funded (transactionNew_unfunded hparsed)
  simp only [ParentsFirst, hparsed, Option.some.injEq, forall_eq']
  constructor
  · exact fun h _ => hfunded.1 h.funded
  · intro h
    refine ⟨hfunded.2 (h hstores), hkept.untracked.add hnumbered, fun block hblock => ?_⟩
    rw [List.flatMap_append, List.flatMap_singleton, List.mem_append] at hblock
    rcases hblock with hblock | hblock
    · exact hkept.live block hblock
    · exact (added_untracked hnumbered hkept.untracked).2 block (List.mem_append_left _ hblock)

/-- With the rows that stay untracked, their links are kept exactly if they spend nothing that
    goes. -/
theorem staying_kept_iff (hshared : RowsShared rows) (hfunded : RowsFunded rows) (hscopes : frames.scopes ≠ [])
    (htrack : ((going key id rows).flatMap Row.tracked).foldlM Frames.track frames = some frames')
    (huntracked : Untracked (staying key id rows) frames') :
    (RowsFunded (staying key id rows) ∧ ∀ block ∈ (staying key id rows).flatMap Row.funding, frames'.Live block) ↔
      NoneLeftSpending key id rows := by
  have hsub : ∀ row ∈ staying key id rows, row ∈ rows := fun row hmem => (List.mem_filter.1 hmem).1
  rw [rowsFunded_staying hfunded]
  constructor
  · intro h spender hspender input hinput parent hparent hgoes
    refine ⟨?_, h.1 spender hspender input hinput parent hparent hgoes⟩
    by_contra hscript
    obtain ⟨script, hscript⟩ := Option.ne_none_iff_exists'.1 hscript
    -- the scope frees the script that the spender has
    have hblock : parent.outputBlock input = some (parent.blocks.number, input.outputIndex.toNat) := by
      rw [outputBlock_eq, hscript]
      rfl
    have hfunding := (hshared.funding (hsub spender hspender)).2 ⟨input, hinput, parent, hparent, hblock⟩
    have hgoing : parent ∈ going key id rows := List.mem_filter.2 ⟨List.mem_of_find?_eq_some hparent, hgoes⟩
    have hlive' := h.2 _ (List.mem_flatMap.2 ⟨spender, hspender, hfunding⟩)
    exact ((Frames.live_track_all hscopes htrack).1 hlive').2
      (List.mem_flatMap.2 ⟨parent, hgoing, List.mem_append_right _ (Row.mem_outputBlocks_of hblock)⟩)
  · intro h
    refine ⟨fun spender hspender input hinput parent hparent hgoes => (h spender hspender input hinput parent hparent hgoes).2,
      fun block hblock => ?_⟩
    obtain ⟨spender, hspender, hfunding⟩ := List.mem_flatMap.1 hblock
    obtain ⟨input, hinput, parent, hparent, hblock⟩ := (hshared.funding (hsub spender hspender)).1 hfunding
    rcases (going_or_staying key id).1 (List.mem_of_find?_eq_some hparent) with hgoing | hstaying
    · have hnone := (h spender hspender input hinput parent hparent (List.mem_filter.1 hgoing).2).1
      rw [outputBlock_eq, hnone] at hblock
      cases hblock
    · exact huntracked.live block (List.mem_flatMap.2 ⟨parent, hstaying, Row.mem_outputBlocks_of hblock⟩)

theorem RowsShared.remove (h : RowsShared rows) (hnone : NoneLeftSpending key id rows) : RowsShared (staying key id rows) := by
  refine h.congr (fun row hmem => (List.mem_filter.1 hmem).1) fun spender hspender input hinput => ?_
  refine (parentOf_staying_cases rows key id input).imp_right fun hgone => ?_
  obtain ⟨parent, hparent, hgoes⟩ := hgone
  obtain ⟨hscript, hsame⟩ := hnone spender hspender input hinput parent hparent hgoes
  rw [hparent, ← hsame]
  exact ⟨hscript, hscript⟩

/-- Removing keeps them exactly if nothing that goes is linked. -/
theorem removed_kept_iff {call : TrackerCall} (hnumbered : Numbered rows self.frames self.parsed) (hshared : RowsShared rows)
    (hkept : RowsKept rows self.frames) (hremoves : call.removes = some (key, id)) (hlength : id.length ≠ 0)
    (htrack : ((going key id rows).flatMap Row.tracked).foldlM Frames.track self.frames = some frames') :
    (RowsKept (staying key id rows) frames' → RowsShared (staying key id rows)) ∧
      (RowsKept (staying key id rows) frames' ↔ NoneSpent (columns rows self) call) := by
  have hunlinked : Untracked (staying key id rows) frames' ↔ Unlinked (columns rows self) call := by
    rw [unlinked_columns hremoves hlength hnumbered.linked, removed_untracked_iff hnumbered hkept.untracked htrack]
  have hnone : NoneSpent (columns rows self) call ↔ Unlinked (columns rows self) call ∧ NoneLeftSpending key id rows := by
    refine and_congr_right fun _ => ⟨fun h => ?_, fun h key' id' hremoves' _ => ?_⟩
    · have hrows := h key id hremoves hlength
      rwa [rowsOf_columns] at hrows
    · cases hremoves.symm.trans hremoves'
      rwa [rowsOf_columns]
  have hlinks := @staying_kept_iff rows key id self.frames frames' hshared hkept.funded hnumbered.scopes htrack
  constructor
  · exact fun h => hshared.remove ((hlinks h.untracked).1 ⟨h.funded, h.live⟩)
  · rw [hnone, ← hunlinked]
    constructor
    · exact fun h => ⟨h.untracked, (hlinks h.untracked).1 ⟨h.funded, h.live⟩⟩
    · intro h
      obtain ⟨hfunded, hlive⟩ := (hlinks h.1).2 h.2
      exact ⟨hfunded, h.1, hlive⟩

/-- A call keeps the links exactly if it meets the condition. -/
theorem rowsStep_kept_iff {call : TrackerCall} {parsed' : Nat} (hnumbered : Numbered rows self.frames self.parsed)
    (hshared : RowsShared rows) (hkept : RowsKept rows self.frames)
    (hstep : RowsStep c interesting (columns rows self) rows call rows' frames' parsed') :
    (RowsKept rows' frames' → RowsShared rows') ∧
      (RowsKept rows' frames' ↔ ParentsFirst c interesting (columns rows self) call ∧ NoneSpent (columns rows self) call) := by
  cases hstep with
  | dull data transaction hparsed hdull =>
    refine ⟨fun _ => hshared, iff_of_true hkept ⟨fun other hother hstores => ?_, .of_not_removes rfl⟩⟩
    obtain rfl := Option.some.inj (hparsed.symm.trans hother)
    exact absurd hstores hdull
  | stored data transaction hparsed hstores =>
    have huntrack := Frames.untrack_all_live
      (@added_untracked c self rows data transaction hnumbered hkept.untracked).2
    rw [columns_frames, huntrack, added_kept_iff hnumbered hkept hparsed hstores]
    constructor
    · intro h
      exact hshared.add hkept.funded (transactionNew_unfunded hparsed)
        ((added_kept_iff hnumbered hkept hparsed hstores).2 h).funded
    · exact ⟨fun h => ⟨h, .of_not_removes rfl⟩, And.left⟩
  | nothing _ key id hremoves hlength =>
    refine ⟨fun _ => hshared, iff_of_true hkept ⟨parentsFirst_of_removes (by rw [hremoves]; exact Option.some_ne_none _), ?_, ?_⟩⟩
    · intro key' id' hremoves' hlength'
      cases hremoves.symm.trans hremoves'
      exact absurd hlength hlength'
    · intro key' id' hremoves' hlength'
      cases hremoves.symm.trans hremoves'
      exact absurd hlength hlength'
  | removed _ key id hremoves hlength _ htrack =>
    obtain ⟨hnext, hiff⟩ := removed_kept_iff hnumbered hshared hkept hremoves hlength htrack
    refine ⟨hnext, hiff.trans ⟨fun h => ⟨parentsFirst_of_removes (by rw [hremoves]; exact Option.some_ne_none _), h⟩, And.right⟩⟩
  | push =>
    refine ⟨fun _ => hshared, iff_of_true ⟨hkept.funded, ⟨Frames.sound_push.2 hkept.untracked.sound, hkept.untracked.live⟩, hkept.live⟩
      ⟨trivial, .of_not_removes rfl⟩⟩
  | pop _ hdepth hpop =>
    have hstep := @RowsStep.pop c interesting (columns rows self) rows frames' hdepth hpop
    have huntracked := (rowsStep_untracked_iff hnumbered hkept.untracked hstep).2.2 (.of_not_removes rfl)
    refine ⟨fun _ => hshared, iff_of_true ⟨hkept.funded, huntracked, fun block hblock => ?_⟩ ⟨trivial, .of_not_removes rfl⟩⟩
    exact (hkept.untracked.sound.live_pop hpop).2 (hkept.live block hblock)

/-! ## A new tracker -/

/-- Tables with the same txids and outputs give the same links. -/
theorem outputOf_congr
    (h : List.Forall₂ (fun row row' => row.txid = row'.txid ∧ row.transaction.outputs = row'.transaction.outputs) rows rows')
    (input : TransactionInput) : outputOf (parentOf rows input) input = outputOf (parentOf rows' input) input := by
  induction h with
  | nil => rfl
  | cons hrow _ ih =>
    obtain ⟨htxid, houtputs⟩ := hrow
    rw [parentOf_cons, parentOf_cons, htxid]
    split
    · unfold outputOf transactionOutputOrNilAt
      simp only [Option.map_some, Option.bind_some, houtputs]
    · exact ih

theorem parsedRows_same (array : Datas) : List.Forall₂
    (fun row row' => row.txid = row'.txid ∧ row.transaction.outputs = row'.transaction.outputs) (parsedRows c array)
    (newRows c array) := by
  rw [newRows, linkedRows, List.map_map, List.forall₂_map_right_iff]
  exact List.forall₂_same.2 fun row _ => ⟨rfl, rfl⟩

theorem rowsFunded_new {array : Datas} (hparsed : AllParsed array) : RowsFunded (newRows c array) := by
  intro row hrow input hinput
  obtain ⟨linked, hlinked, rfl⟩ := List.mem_map.1 hrow
  obtain ⟨first, hfirst, rfl⟩ := List.mem_map.1 hlinked
  obtain ⟨data, hdata, rfl⟩ := List.mem_map.1 hfirst
  have hunfunded := transactionNew_unfunded (hparsed data.1 (List.fst_mem_of_mem_zipIdx hdata))
  have hinput := (@fundInputs_linked (TrackerMemory.opened 0 0) (parsedRows c array) _ hunfunded) ▸ hinput
  obtain ⟨base, -, rfl⟩ := List.mem_map.1 hinput
  -- the links were made from the rows before any was funded
  exact outputOf_congr (parsedRows_same array) base

theorem rowsShared_new (array : Datas) : RowsShared (newRows c array) := by
  intro row hrow
  obtain ⟨linked, -, rfl⟩ := List.mem_map.1 hrow
  refine List.map_congr_left fun input _ => ?_
  rw [fundingBlock_columns, parentOf, newRows, List.find?_map, Option.bind_map]
  rfl

theorem rowsKept_new {outer parsed : Nat} {array : Datas} (hparsed : AllParsed array) :
    RowsKept (newRows c array) (TrackerMemory.opened outer parsed).frames where
  funded := rowsFunded_new hparsed
  untracked := newRows_untracked array
  live := by simp [Frames.Live, TrackerMemory.opened]

theorem fundInputs_withoutFunding {transaction : Transaction}
    (h : ∀ input ∈ transaction.inputs, input.fundingOutput = outputOf (parentOf rows input) input) :
    fundInputs (columns rows self).toTransactionTracker (withoutFunding transaction) = transaction := by
  have hunfunded : ∀ input ∈ (withoutFunding transaction).inputs, Unfunded input := by
    intro input hinput
    obtain ⟨base, -, rfl⟩ := List.mem_map.1 hinput
    rfl
  ext1
  · rfl
  · rw [fundInputs_linked hunfunded, withoutFunding, List.map_map]
    conv_rhs => rw [← List.map_id transaction.inputs]
    refine List.map_congr_left fun input hinput => ?_
    have hlink : outputOf (parentOf rows input) input = input.fundingOutput := (h input hinput).symm
    show { input with fundingOutput := outputOf (parentOf rows input) input } = input
    rw [hlink]
  · rfl
  · rfl

/-- The bytes each row was made of. -/
def RowsFrom (c : Crypto) (array : Datas) (rows : List Row) : Prop :=
  List.Forall₂ (fun data (row : Row) => ParsedFrom data row.transaction ∧ row.hash = hash256 c data ∧
    row.txid = transactionTxid c row.transaction) array rows

theorem parsedData_of {data : Data} {transaction : Transaction} (h : ParsedFrom data transaction) :
    parsedData data = withoutFunding transaction := by
  rw [parsedData, h]
  rfl

theorem rowsFrom_parsed {array : Datas} (h : RowsFrom c array rows) : AllParsed array := by
  induction h with
  | nil => exact fun _ hmem => absurd hmem List.not_mem_nil
  | cons hrow _ ih =>
    intro data hmem
    rcases List.mem_cons.1 hmem with rfl | hmem
    · rw [parsedData_of hrow.1, hrow.1]
    · exact ih data hmem

theorem parsedRows_of {array : Datas} (hrows : RowsFrom c array rows) : List.Forall₂
    (fun row row' => row.txid = row'.txid ∧ row.transaction.outputs = row'.transaction.outputs) (parsedRows c array) rows := by
  have hzip : List.Forall₂ (fun (data : Data × Nat) (row : Row) => ParsedFrom data.1 row.transaction ∧
      row.hash = hash256 c data.1 ∧ row.txid = transactionTxid c row.transaction) array.zipIdx rows := by
    rw [RowsFrom, ← List.zipIdx_map_fst 0 array, List.forall₂_map_left_iff] at hrows
    exact hrows
  rw [parsedRows, List.forall₂_map_left_iff]
  refine hzip.imp fun data row hrow => ?_
  obtain ⟨hdata, -, htxid⟩ := hrow
  dsimp only
  rw [parsedData_of hdata, transactionTxid_withoutFunding, htxid]
  exact ⟨rfl, rfl⟩

theorem map_of_rowsFrom {α : Type} {array : Datas} {f : Data → α} {g : Row → α} (hrows : RowsFrom c array rows)
    (h : ∀ data, ∀ row ∈ rows, ParsedFrom data row.transaction → row.hash = hash256 c data →
      row.txid = transactionTxid c row.transaction → f data = g row) : array.map f = rows.map g := by
  have hsame : List.Forall₂ (· = ·) (array.map f) (rows.map g) := by
    rw [List.forall₂_map_left_iff, List.forall₂_map_right_iff]
    refine List.Forall₂.flip (List.Forall₂.imp ?_ ((List.forall₂_and_left rows array).2 ⟨fun _ hmem => hmem, hrows.flip⟩))
    intro row data hrow
    obtain ⟨hmem, hdata, hhash, htxid⟩ := hrow
    exact h data row hmem hdata hhash htxid
  rwa [List.forall₂_eq_eq_eq] at hsame

/-- A new tracker over the bytes of a table that is funded has its lists. -/
theorem linkedRows_of_funded {array : Datas} (hrows : RowsFrom c array rows) (hfunded : RowsFunded rows) :
    (columns (linkedRows c array) (TrackerMemory.opened 0 0)).toTransactionTracker =
      (columns rows (TrackerMemory.opened 0 0)).toTransactionTracker := by
  have htransactions : (array.map fun data =>
      fundInputs (columns (parsedRows c array) (TrackerMemory.opened 0 0)).toTransactionTracker (parsedData data)) =
      rows.map (·.transaction) := by
    refine map_of_rowsFrom hrows fun data row hmem hdata _ _ => ?_
    rw [parsedData_of hdata]
    refine fundInputs_withoutFunding fun input hinput => ?_
    rw [hfunded row hmem input hinput, outputOf_congr (parsedRows_of hrows)]
  have hhashes : array.map (hash256 c) = rows.map (·.hash) :=
    map_of_rowsFrom hrows fun _ _ _ _ hhash _ => hhash.symm
  have htxids : (array.map fun data => transactionTxid c (parsedData data)) = rows.map (·.txid) := by
    refine map_of_rowsFrom hrows fun data row _ hdata _ htxid => ?_
    rw [parsedData_of hdata, transactionTxid_withoutFunding, htxid]
  rw [linkedRows_tracker, htransactions, hhashes, htxids]
  rfl

theorem rowsFrom_of_rowOf {added : Datas} (h : ∀ row ∈ rows, RowOf c added row) :
    ∃ array, RowsFrom c array rows := by
  induction rows with
  | nil => exact ⟨[], .nil⟩
  | cons row rows ih =>
    obtain ⟨data, -, hrow⟩ := h row List.mem_cons_self
    obtain ⟨array, hrows⟩ := ih fun row hmem => h row (List.mem_cons_of_mem _ hmem)
    exact ⟨data :: array, .cons hrow hrows⟩

/-- Where every link is right, a new tracker over the same bytes has the same lists. -/
theorem asNew_of_funded {added : Datas} (hrows : ∀ row ∈ rows, RowOf c added row) (hfunded : RowsFunded rows) :
    AsNew c (columns rows self).toTransactionTracker := by
  obtain ⟨array, hfrom⟩ := rowsFrom_of_rowOf hrows
  have hnew := ttNew_of_parsed (c := c) (rowsFrom_parsed hfrom)
  rw [linkedRows_of_funded hfrom hfunded] at hnew
  refine ⟨array, _, ?_, ?_, hnew, rfl, rfl, rfl⟩
  · rw [columns_transactions, List.forall₂_map_right_iff]
    exact hfrom.imp fun _ _ hrow => hrow.1
  · exact map_of_rowsFrom hfrom fun _ _ _ _ hhash _ => hhash.symm

/-! ## Runs -/

theorem fundingScripts_columns : (columns rows self).fundingScripts = rows.flatMap Row.funding := by
  rw [TrackerMemory.fundingScripts, columns_blocks, List.flatMap_map]
  rfl

theorem fundedAsNew_columns {added : Datas} (hrows : ∀ row ∈ rows, RowOf c added row) :
    FundedAsNew c (columns rows self) ↔ RowsKept rows self.frames := by
  have hscripts : (∃ ended, (columns rows self).frames.close = some ended ∧ ∀ block ∈ (columns rows self).outputScripts ++
      (columns rows self).fundingScripts, block ∉ ended.freed) ↔
      Untracked rows self.frames ∧ ∀ block ∈ rows.flatMap Row.funding, self.frames.Live block := by
    rw [Frames.close_live, outputScripts_columns, fundingScripts_columns, List.forall_mem_append, ← and_assoc]
    exact and_congr_left fun _ => ⟨fun h => ⟨h.1, h.2⟩, fun h => ⟨h.sound, h.live⟩⟩
  constructor
  · intro h
    obtain ⟨huntracked, hlive⟩ := hscripts.1 (FundedAsNew.scripts h)
    exact ⟨funded_columns.1 (FundedAsNew.funded h), huntracked, hlive⟩
  · exact fun h => ⟨funded_columns.2 h.funded, asNew_of_funded hrows h.funded, hscripts.2 ⟨h.untracked, h.live⟩⟩

/-- A table of rows that come from bytes, with the memory of their links. -/
def SharedTable (c : Crypto) (self : TrackerMemory) : Prop :=
  ∃ rows base added, self = columns rows base ∧ (∀ row ∈ rows, RowOf c added row) ∧ Numbered rows base.frames base.parsed ∧
    RowsShared rows

/-- Bytes that are no transaction are not stored. -/
theorem parentsFirst_of_abort {call : TrackerCall} (h : trackerStep c interesting (columns rows self) call = none) :
    ParentsFirst c interesting (columns rows self) call := by
  cases call with
  | addTransaction data =>
    intro transaction hparsed
    obtain ⟨rows', next, hadd, -⟩ := @trackerStep_add c interesting self rows data transaction hparsed
    rw [hadd] at h
    cases h
  | removeTransactionByHash hash => trivial
  | removeTransactionByTxid txid => trivial
  | dataTrackPush => trivial
  | dataTrackPop => trivial

/-- What stops meets the condition exactly if it is no removal. -/
theorem kept_stops_iff {call : TrackerCall} (hnumbered : Numbered rows self.frames self.parsed)
    (huntracked : Untracked rows self.frames) (h : trackerStep c interesting (columns rows self) call = none) :
    RemovalReturns c interesting (columns rows self) call ↔
      ParentsFirst c interesting (columns rows self) call ∧ NoneSpent (columns rows self) call := by
  constructor
  · intro hreturns
    refine ⟨parentsFirst_of_abort h, .of_not_removes ?_⟩
    by_contra hremoves
    have hsome := hreturns (Option.isSome_iff_ne_none.2 hremoves)
    rw [h] at hsome
    cases hsome
  · exact fun hkeeps => (removal_stops_iff hnumbered huntracked h).2 hkeeps.2.1

/-- In a run from a new tracker every link is right at every moment, the lists are those a new
    tracker would have and every removal returns, exactly when no transaction is stored after
    one that spends it, none is removed before one that spends it and none that spends a
    script. -/
theorem funded_as_new_iff {outer : Nat} {array : Datas} {calls : List TrackerCall}
    (hnew : TrackerMemory.ttNew c outer array = some self) :
    Throughout (trackerStep c interesting) (FundedAsNew c) self calls ∧
        Along (trackerStep c interesting) (RemovalReturns c interesting) self calls ↔
      Along (trackerStep c interesting)
        (fun self call => ParentsFirst c interesting self call ∧ NoneSpent self call) self calls := by
  obtain ⟨hparsed, rfl⟩ := ttNew_columns hnew
  have hrows := newRows_rowOf (c := c) hparsed
  refine @throughout_returns_iff_along _ _ _ (FundedAsNew c) (SharedTable c)
    (fun self call => ParentsFirst c interesting self call ∧ NoneSpent self call) _ ?_ ?_ _ _
    ⟨_, _, array, rfl, hrows, newRows_numbered hparsed, rowsShared_new array⟩ ((fundedAsNew_columns hrows).2 (rowsKept_new hparsed))
  · intro s call next htable hgood hnext
    obtain ⟨rows, base, added, rfl, hrows, hnumbered, hshared⟩ := htable
    have hkept := (fundedAsNew_columns hrows).1 hgood
    obtain ⟨rows', next', rfl, hstep⟩ := trackerStep_columns hnext
    have hrows' := rowsStep_rowOf hstep hrows
    obtain ⟨hshared', hiff⟩ := rowsStep_kept_iff hnumbered hshared hkept hstep
    refine ⟨fun _ => ?_, fun hgood' => ?_, (fundedAsNew_columns hrows').trans hiff⟩
    · rw [hnext]
      rfl
    · exact ⟨rows', next', _, rfl, hrows', (rowsStep_untracked_iff hnumbered hkept.untracked hstep).1,
        hshared' ((fundedAsNew_columns hrows').1 hgood')⟩
  · intro s call htable hgood hstop
    obtain ⟨rows, base, added, rfl, hrows, hnumbered, -⟩ := htable
    exact kept_stops_iff hnumbered ((fundedAsNew_columns hrows).1 hgood).untracked hstop

theorem parentsFirst_of_unspent {data : Data}
    (h : ((transactionNew data).all fun parsed => (self.allTransactions ++ [parsed]).all fun spender =>
      spender.inputs.all fun input => !dataEqual (transactionTxid c parsed) input.previousTransactionHash) = true) :
    ParentsFirst c interesting self (.addTransaction data) := by
  intro parsed hparsed _ _ spender hspender input hinput hrefers
  rw [hparsed, Option.all_some, List.all_eq_true] at h
  have hunspent := List.all_eq_true.1 (h spender hspender) input hinput
  rw [hrefers] at hunspent
  cases hunspent

theorem funded_as_new_in_order :
    Throughout (trackerStep plainCrypto paidInteresting) (FundedAsNew plainCrypto) (columns [] (TrackerMemory.opened 0 0))
      [.addTransaction (some strippedTransaction), .addTransaction (some spendingTransaction)] := by
  have hnew : TrackerMemory.ttNew plainCrypto 0 [] = some (columns [] (TrackerMemory.opened 0 0)) := rfl
  have halong : Along (trackerStep plainCrypto paidInteresting)
      (fun self call => ParentsFirst plainCrypto paidInteresting self call ∧ NoneSpent self call)
      (columns [] (TrackerMemory.opened 0 0))
      [.addTransaction (some strippedTransaction), .addTransaction (some spendingTransaction)] := by
    refine ⟨⟨parentsFirst_of_unspent (by decide +kernel), .of_not_removes rfl⟩,
      fun next hnext => ⟨⟨parentsFirst_of_unspent ?_, .of_not_removes rfl⟩, fun _ _ => trivial⟩⟩
    have hall : ((trackerStep plainCrypto paidInteresting (columns [] (TrackerMemory.opened 0 0))
        (.addTransaction (some strippedTransaction))).all fun next =>
          (transactionNew (some spendingTransaction)).all fun parsed => (next.allTransactions ++ [parsed]).all fun spender =>
            spender.inputs.all fun input =>
              !dataEqual (transactionTxid plainCrypto parsed) input.previousTransactionHash) = true := by
      decide +kernel
    rwa [hnext, Option.all_some] at hall
  exact ((funded_as_new_iff hnew).2 halong).1

/-- Bytes of a transaction that spends the output of `strippedTransaction` and pays the wallet. -/
def spendingAndPaying : Bytes :=
  [1, 0, 0, 0, 1] ++ (transactionTxid plainCrypto (parsedData (some strippedTransaction))).toBytes ++ List.replicate 9 0 ++
    [1, 5, 0, 0, 0, 0, 0, 0, 0, 2, 1, 7] ++ [0, 0, 0, 0]

/-- The spending transaction first, then the one it spends. -/
theorem not_funded_as_new :
    ¬ ∀ (c : Crypto) (interesting : TrackerMemory → Transaction → Bool) (outer : Nat) (array : Datas)
      (calls : List TrackerCall) (self : TrackerMemory), TrackerMemory.ttNew c outer array = some self →
      Throughout (trackerStep c interesting) (FundedAsNew c) self calls := by
  intro h
  have hnew : TrackerMemory.ttNew plainCrypto 0 [] = some (columns [] (TrackerMemory.opened 0 0)) := rfl
  have hall := h plainCrypto paidInteresting 0 []
    [.addTransaction (some spendingAndPaying), .addTransaction (some strippedTransaction)] _ hnew
  have hunlinked : ((after (trackerStep plainCrypto paidInteresting) (columns [] (TrackerMemory.opened 0 0))
      [.addTransaction (some spendingAndPaying), .addTransaction (some strippedTransaction)]).any fun reached =>
        reached.allTransactions.any fun transaction => transaction.inputs.any fun input =>
          decide (input.fundingOutput ≠ referencedOutput reached.toTransactionTracker input)) = true := by
    decide +kernel
  obtain ⟨reached, hreached, hunlinked⟩ := (Option.any_eq_true _ _).1 hunlinked
  obtain ⟨transaction, htransaction, hinputs⟩ := List.any_eq_true.1 hunlinked
  obtain ⟨input, hinput, hdiffers⟩ := List.any_eq_true.1 hinputs
  exact of_decide_eq_true hdiffers
    (FundedAsNew.funded (hall _ (List.prefix_refl _) reached hreached) transaction htransaction input hinput)

end BitcoinSpoon
