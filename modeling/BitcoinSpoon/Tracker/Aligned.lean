/-
  BitcoinSpoon.Tracker.Aligned — the lists of the tracker stay aligned
  (`code/TransactionTracker.c`).

  Entry by entry the lists hold a transaction, the hash of bytes that were added and that say
  what the transaction is, and its txid. What is stored must also be there to be read: the
  scripts of its outputs are the memory that `TransactionTxid` hashes. A removal frees the
  scripts of the row with the innermost scope, and those of the outputs its inputs spend.
  These belong to a transaction that stays; two rows that share one abort the second
  `DataTrack` (`not_lists_aligned`). So the lists stay aligned through a run, and removals
  return, exactly if no row is removed that has a funding script (`lists_aligned_iff`).
-/

import BitcoinSpoon.Tracker.Stored
import Mathlib.Data.List.Perm.Basic

namespace BitcoinSpoon

open Wire Loop

variable {c : Crypto} {interesting : TrackerMemory → Transaction → Bool} {self next : TrackerMemory} {rows rows' : List Row}

/-! ## Lookups -/

/-- A search in one column finds a row. -/
theorem matching_row (rows : List Row) (key : Row → Data) (id : Data) :
    ((datasMatchingDataIndex (rows.map key) id).bind fun index => rows[index]?) =
      rows.find? fun row => dataEqual (key row) id := by
  rw [datasMatchingDataIndex, List.findIdx?_map]
  induction rows with
  | nil => rfl
  | cons row rows ih =>
    rw [List.findIdx?_cons, Function.comp_apply]
    by_cases hrow : dataEqual (key row) id = true
    · simp [hrow]
    · rw [List.find?_cons_of_neg (by simpa using hrow), ← ih, if_neg hrow, Option.bind_map]
      rfl

theorem matching_bind {α : Type} (rows : List Row) (key : Row → Data) (value : Row → α) (id : Data) :
    ((datasMatchingDataIndex (rows.map key) id).bind fun index => (rows.map value)[index]?) =
      (rows.find? fun row => dataEqual (key row) id).map value := by
  simp only [List.getElem?_map, ← matching_row, Option.map_bind, Function.comp_def]

theorem find_row {key : Row → Data} {id : Data} {row : Row}
    (h : rows.find? (fun row => dataEqual (key row) id) = some row) : dataEqual (key row) id = true ∧ row ∈ rows :=
  ⟨@List.find?_some _ (fun row => dataEqual (key row) id) _ _ h, List.mem_of_find?_eq_some h⟩

theorem forTxid_columns (txid : Data) :
    ttTransactionForTxid (columns rows self).toTransactionTracker txid =
      (rows.find? fun row => dataEqual row.txid txid).map (·.transaction) := matching_bind rows Row.txid _ txid

theorem forHash_columns (hash : Data) :
    ttTransactionForHash (columns rows self).toTransactionTracker hash =
      (rows.find? fun row => dataEqual row.hash hash).map (·.transaction) := matching_bind rows Row.hash _ hash

/-! ## Where a row comes from -/

/-- What was parsed, whatever is known of the outputs it spends. -/
def withoutFunding (transaction : Transaction) : Transaction :=
  { transaction with inputs := transaction.inputs.map fun input => { input with fundingOutput := ⟨none, 0⟩ } }

theorem withoutFunding_fundInputs (self : TransactionTracker) (transaction : Transaction) :
    withoutFunding (fundInputs self transaction) = withoutFunding transaction := by
  simp only [withoutFunding, fundInputs, List.map_map]
  congr 1
  refine List.map_congr_left fun input _ => ?_
  rw [Function.comp_apply]
  split <;> rfl

theorem transactionTxid_withoutFunding (transaction : Transaction) :
    transactionTxid c (withoutFunding transaction) = transactionTxid c transaction :=
  @transactionTxid_mapInputs c (fun input => { input with fundingOutput := ⟨none, 0⟩ }) (fun _ => rfl) transaction

theorem many_all {α : Type} {r : Reader α} {P : α → Prop} (h : ∀ b, P (r b).1) (n : Nat) (b : Bytes) :
    ∀ a ∈ (many r n b).1, P a := by
  induction n generalizing b with
  | zero => exact fun a ha => absurd ha List.not_mem_nil
  | succ n ih =>
    intro a ha
    rcases List.mem_cons.1 ha with rfl | ha
    · exact h b
    · exact ih _ a ha

/-- Nothing is funded before the tracker has seen it. -/
def Unfunded (input : TransactionInput) : Prop := input.fundingOutput = ⟨none, 0⟩

theorem readWitnesses_unfunded {inputs : List TransactionInput} (h : ∀ input ∈ inputs, Unfunded input) (b : Bytes) :
    ∀ input ∈ (readWitnesses inputs b).1, Unfunded input := by
  induction inputs generalizing b with
  | nil => exact fun input hmem => absurd hmem List.not_mem_nil
  | cons first inputs ih =>
    intro input hmem
    rcases List.mem_cons.1 hmem with rfl | hmem
    · exact h first List.mem_cons_self
    · exact ih (fun input hmem => h input (List.mem_cons_of_mem _ hmem)) _ input hmem

theorem readInputs_unfunded (b : Bytes) : ∀ input ∈ (readCounted readInput b).1, Unfunded input := by
  have hread : ∀ b, Unfunded (readInput b).1 := by
    intro b
    simp only [readInput, bind_run, pure_run]
    rfl
  rw [readCounted, bind_run]
  exact many_all hread _ _

theorem readBody_unfunded (version : UInt32) (hasWitness : Bool) (b : Bytes) :
    ∀ input ∈ (readBody version hasWitness b).1.inputs, Unfunded input := by
  simp only [readBody, bind_run, pure_run]
  cases hasWitness with
  | false =>
    rw [readWitnessSection, if_neg Bool.false_ne_true, pure_run]
    exact readInputs_unfunded b
  | true => exact readWitnesses_unfunded (readInputs_unfunded b) _

theorem readTransaction_unfunded (b : Bytes) : ∀ input ∈ (readTransaction b).1.inputs, Unfunded input := by
  simp only [readTransaction, bind_run, readMarkedBody]
  split
  · exact readBody_unfunded _ _ _
  · exact readBody_unfunded _ _ _

theorem transactionNew_unfunded {data : Data} {parsed : Transaction} (h : transactionNew data = some parsed) :
    ∀ input ∈ parsed.inputs, Unfunded input := by
  have hif : (if (readTransaction data.toBytes).2 ≠ [] then none else some (readTransaction data.toBytes).1) = some parsed := h
  split at hif
  · cases hif
  · rw [← Option.some.inj hif]
    exact readTransaction_unfunded data.toBytes

theorem withoutFunding_parsed {data : Data} {parsed : Transaction} (h : transactionNew data = some parsed) :
    withoutFunding parsed = parsed := by
  have hinputs : (parsed.inputs.map fun input => { input with fundingOutput := ⟨none, 0⟩ }) = parsed.inputs := by
    conv_rhs => rw [← List.map_id parsed.inputs]
    refine List.map_congr_left fun input hmem => ?_
    have hnone : input.fundingOutput = ⟨none, 0⟩ := transactionNew_unfunded h input hmem
    rw [← hnone]
    rfl
  rw [withoutFunding, hinputs]

/-- `transaction` is what the bytes say, with the outputs it spends filled in as far as they
    were known. -/
def ParsedFrom (data : Data) (transaction : Transaction) : Prop := transactionNew data = some (withoutFunding transaction)

theorem parsedFrom_fundInputs {data : Data} {parsed : Transaction} (h : transactionNew data = some parsed)
    (self : TransactionTracker) : ParsedFrom data (fundInputs self parsed) := by
  rw [ParsedFrom, withoutFunding_fundInputs, withoutFunding_parsed h, h]

/-- A row made of bytes that were added. -/
def RowOf (c : Crypto) (added : Datas) (row : Row) : Prop :=
  ∃ data ∈ added, ParsedFrom data row.transaction ∧ row.hash = hash256 c data ∧ row.txid = transactionTxid c row.transaction

theorem RowOf.mono {added more : Datas} {row : Row} (h : RowOf c added row) (hsub : ∀ data ∈ added, data ∈ more) :
    RowOf c more row := by
  obtain ⟨data, hmem, hrow⟩ := h
  exact ⟨data, hsub data hmem, hrow⟩

/-- The bytes a call adds. -/
def addedBytes : TrackerCall → Option Data
  | .addTransaction data => some data
  | _ => none

theorem rowsStep_rowOf {added : Datas} {call : TrackerCall} {frames : Frames ScriptBlock} {parsed : Nat}
    (hstep : RowsStep c interesting self rows call rows' frames parsed) (hrows : ∀ row ∈ rows, RowOf c added row) :
    ∀ row ∈ rows', RowOf c (added ++ (addedBytes call).toList) row := by
  have hold : ∀ row ∈ rows, RowOf c (added ++ (addedBytes call).toList) row := fun row hmem =>
    (hrows row hmem).mono fun _ hdata => List.mem_append_left _ hdata
  cases hstep with
  | dull data _ hparsed hdull => exact hold
  | stored data _ hparsed hstores =>
    intro row hmem
    rcases List.mem_append.1 hmem with hmem | hmem
    · exact hold row hmem
    · obtain rfl := List.mem_singleton.1 hmem
      exact ⟨data, by simp [addedBytes], parsedFrom_fundInputs hparsed _, rfl, (transactionTxid_fundInputs _ _).symm⟩
  | nothing _ key id hremoves hlength => exact hold
  | removed _ key id hremoves hlength _ htrack => exact fun row hmem => hold row (List.mem_filter.1 hmem).1
  | push => exact hold
  | pop _ hdepth hpop => exact hold

theorem newRows_rowOf {array : Datas} (hparsed : AllParsed array) : ∀ row ∈ newRows c array, RowOf c array row := by
  intro row hrow
  obtain ⟨linked, hlinked, rfl⟩ := List.mem_map.1 hrow
  obtain ⟨first, hfirst, rfl⟩ := List.mem_map.1 hlinked
  obtain ⟨data, hdata, rfl⟩ := List.mem_map.1 hfirst
  have hdata : data.1 ∈ array := List.fst_mem_of_mem_zipIdx hdata
  exact ⟨data.1, hdata, parsedFrom_fundInputs (hparsed data.1 hdata) _, rfl, (transactionTxid_fundInputs _ _).symm⟩

/-- Every reached state is a table of rows made of bytes added so far. -/
theorem after_columns {added : Datas} (hrows : ∀ row ∈ rows, RowOf c added row) {calls : List TrackerCall}
    {reached : TrackerMemory} (h : after (trackerStep c interesting) (columns rows self) calls = some reached) :
    ∃ rows' base, reached = columns rows' base ∧ ∀ row ∈ rows', RowOf c (added ++ calls.filterMap addedBytes) row := by
  induction calls generalizing rows self added with
  | nil =>
    cases h
    exact ⟨rows, self, rfl, by simpa using hrows⟩
  | cons call calls ih =>
    obtain ⟨next, hnext, h⟩ := Option.bind_eq_some_iff.1 h
    obtain ⟨rows', next', rfl, hstep⟩ := trackerStep_columns hnext
    obtain ⟨rows'', base, hreached, hall⟩ := ih (rowsStep_rowOf hstep hrows) h
    refine ⟨rows'', base, hreached, fun row hmem => (hall row hmem).mono fun data hdata => ?_⟩
    rw [List.filterMap_cons]
    cases hcall : addedBytes call <;> simpa [hcall] using hdata

/-! ## The scripts -/

/-- The rows of the lists. -/
def rowsOf (self : TrackerMemory) : List Row :=
  List.zipWith (fun entry column => ⟨entry.1, column.1, column.2, entry.2⟩) (self.allTransactions.zip self.blocks)
    (self.allTransactionHashes.zip self.allTransactionTxids)

@[simp] theorem rowsOf_columns : rowsOf (columns rows self) = rows := by
  rw [rowsOf, columns_transactions, columns_blocks, columns_hashes, columns_txids, List.zip_map', List.zip_map',
    List.zipWith_map, List.zipWith_self]
  exact List.map_id rows

theorem mem_outputBlocks {number : Nat} {outputs : List TransactionOutput} {block : ScriptBlock} :
    block ∈ outputBlocks number outputs ↔
      block.1 = number ∧ ∃ output, outputs[block.2]? = some output ∧ output.script ≠ none := by
  obtain ⟨n, i⟩ := block
  rw [outputBlocks, List.mem_filterMap]
  constructor
  · intro h
    obtain ⟨⟨output, j⟩, hmem, hblock⟩ := h
    obtain ⟨script, hscript, hblock⟩ := Option.map_eq_some_iff.1 hblock
    cases hblock
    exact ⟨rfl, output, List.mem_zipIdx_iff_getElem?.1 hmem, by rw [hscript]; exact Option.some_ne_none _⟩
  · intro h
    obtain ⟨rfl, output, houtput, hscript⟩ := h
    obtain ⟨script, hscript⟩ := Option.ne_none_iff_exists'.1 hscript
    exact ⟨(output, i), List.mem_zipIdx_iff_getElem?.2 houtput, by rw [hscript]; rfl⟩

theorem outputBlocks_nodup (number : Nat) (outputs : List TransactionOutput) : (outputBlocks number outputs).Nodup := by
  have hpositions : outputs.zipIdx.Pairwise fun a b => a.2 < b.2 := by
    rw [← List.pairwise_map, List.zipIdx_map_snd]
    exact List.pairwise_lt_range'
  refine hpositions.filterMap _ fun a b hlt block hblock block' hblock' heq => ?_
  obtain ⟨_, -, rfl⟩ := Option.map_eq_some_iff.1 hblock
  obtain ⟨_, -, rfl⟩ := Option.map_eq_some_iff.1 hblock'
  exact absurd (congrArg Prod.snd heq) hlt.ne

/-- The funding scripts of a row that are not NULL. -/
def Row.funding (row : Row) : List ScriptBlock := row.blocks.fundingOutputs.filterMap id

/-- An input has the memory of its funding script. -/
def Row.Linked (row : Row) : Prop :=
  row.blocks.fundingOutputs.map Option.isSome = row.transaction.inputs.map fun input => input.fundingOutput.script.isSome

theorem Row.Linked.funding_eq_nil {row : Row} (h : row.Linked) :
    row.funding = [] ↔ ∀ input ∈ row.transaction.inputs, input.fundingOutput.script = none := by
  have hblocks : row.funding = [] ↔ ∀ some' ∈ row.blocks.fundingOutputs.map Option.isSome, some' = false := by
    simp [Row.funding]
  rw [hblocks, h]
  simp

/-- The script of the output of the row that the input refers to. -/
def Row.outputBlock (row : Row) (input : TransactionInput) : Option ScriptBlock :=
  (transactionOutputOrNilAt (some row.transaction) input.outputIndex).bind fun output =>
    output.script.map fun _ => (row.blocks.number, input.outputIndex.toNat)

theorem fundingBlock_columns (input : TransactionInput) :
    fundingBlock (columns rows self) input =
      (rows.find? fun row => dataEqual row.txid input.previousTransactionHash).bind fun row => row.outputBlock input := by
  rw [← matching_row rows Row.txid, Option.bind_assoc, fundingBlock, columns_txids, columns_blocks, columns_transactions]
  congr 1
  funext index
  rw [List.getElem?_map, List.getElem?_map]
  cases rows[index]? <;> rfl

theorem Row.mem_outputBlocks_of {row : Row} {input : TransactionInput} {block : ScriptBlock}
    (h : row.outputBlock input = some block) : block ∈ row.outputBlocks := by
  obtain ⟨output, houtput, h⟩ := Option.bind_eq_some_iff.1 h
  obtain ⟨script, hscript, rfl⟩ := Option.map_eq_some_iff.1 h
  refine mem_outputBlocks.2 ⟨rfl, output, ?_, by rw [hscript]; exact Option.some_ne_none _⟩
  rw [transactionOutputOrNilAt] at houtput
  split at houtput
  · cases houtput
  · exact houtput

/-- The inputs that get a script get its memory. -/
theorem funded_linked {transaction : Transaction} (hunfunded : ∀ input ∈ transaction.inputs, Unfunded input) :
    (transaction.inputs.map (fundingBlock (columns rows self))).map Option.isSome =
      (fundInputs (columns rows self).toTransactionTracker transaction).inputs.map
        fun input => input.fundingOutput.script.isSome := by
  rw [fundInputs, List.map_map, List.map_map]
  refine List.map_congr_left fun input hinput => ?_
  have hnone : input.fundingOutput.script = none := by
    rw [hunfunded input hinput]
  rw [Function.comp_apply, Function.comp_apply, fundingBlock_columns, forTxid_columns]
  cases hrow : rows.find? fun row => dataEqual row.txid input.previousTransactionHash with
  | none => simp [transactionOutputOrNilAt, hnone]
  | some row =>
    rw [Option.bind_some, Option.map_some, Row.outputBlock]
    cases transactionOutputOrNilAt (some row.transaction) input.outputIndex with
    | none =>
      show false = input.fundingOutput.script.isSome
      rw [hnone]
      rfl
    | some output => exact Option.isSome_map

theorem addedRow_linked {data : Data} {parsed : Transaction} (hparsed : transactionNew data = some parsed) :
    (addedRow c (columns rows self) data parsed).Linked := funded_linked (transactionNew_unfunded hparsed)

/-! ## The invariant -/

/-- The transactions are numbered in the order they were parsed, and a funding script is that
    of an output that is stored or was. -/
structure Numbered (rows : List Row) (frames : Frames ScriptBlock) (parsed : Nat) : Prop where
  once : (rows.map fun row => row.blocks.number).Nodup
  below : ∀ row ∈ rows, row.blocks.number < parsed
  held : ∀ block, block ∈ frames.scopes.flatten ∨ block ∈ frames.freed → block.1 < parsed
  linked : ∀ row ∈ rows, row.Linked
  funding : ∀ row ∈ rows, ∀ block ∈ row.funding,
    block ∈ rows.flatMap Row.outputBlocks ∨ block ∈ frames.scopes.flatten ∨ block ∈ frames.freed
  scopes : frames.scopes ≠ []

/-- The open scopes can end, and what is stored is there afterwards. -/
structure Untracked (rows : List Row) (frames : Frames ScriptBlock) : Prop where
  sound : frames.Sound
  live : ∀ block ∈ rows.flatMap Row.outputBlocks, frames.Live block

variable {frames frames' : Frames ScriptBlock} {parsed : Nat} {key : Row → Data} {id : Data}

theorem outputBlocks_number {row : Row} {block : ScriptBlock} (h : block ∈ row.outputBlocks) : block.1 = row.blocks.number :=
  (mem_outputBlocks.1 h).1

/-- Transactions have their outputs apart. -/
theorem outputs_nodup (h : (rows.map fun row => row.blocks.number).Nodup) : (rows.flatMap Row.outputBlocks).Nodup := by
  rw [List.nodup_flatMap]
  refine ⟨fun row _ => outputBlocks_nodup _ _, (List.pairwise_map.1 h).imp ?_⟩
  intro row other hne block hblock hother
  exact hne ((outputBlocks_number hblock).symm.trans (outputBlocks_number hother))

theorem Numbered.outputs_below (h : Numbered rows frames parsed) {block : ScriptBlock}
    (hmem : block ∈ rows.flatMap Row.outputBlocks) : block.1 < parsed := by
  obtain ⟨row, hrow, hblock⟩ := List.mem_flatMap.1 hmem
  rw [outputBlocks_number hblock]
  exact h.below row hrow

/-- What a table holds is what goes and what stays. -/
theorem going_or_staying {row : Row} (key : Row → Data) (id : Data) :
    row ∈ rows ↔ row ∈ going key id rows ∨ row ∈ staying key id rows := by
  simp only [going, staying, List.mem_filter]
  cases dataEqual (key row) id <;> simp

theorem outputs_apart (h : (rows.map fun row => row.blocks.number).Nodup) {block : ScriptBlock}
    (hgoing : block ∈ (going key id rows).flatMap Row.outputBlocks) :
    block ∉ (staying key id rows).flatMap Row.outputBlocks := by
  intro hstaying
  obtain ⟨row, hrow, hblock⟩ := List.mem_flatMap.1 hgoing
  obtain ⟨other, hother, hblock'⟩ := List.mem_flatMap.1 hstaying
  obtain ⟨hmem, hgoes⟩ := List.mem_filter.1 hrow
  obtain ⟨hmem', hstays⟩ := List.mem_filter.1 hother
  have heq := List.inj_on_of_nodup_map h hmem hmem' ((outputBlocks_number hblock).symm.trans (outputBlocks_number hblock'))
  rw [heq] at hgoes
  rw [hgoes] at hstays
  cases hstays

/-- A removal tracks the funding scripts and the scripts of the outputs. -/
theorem tracked_perm (rows : List Row) :
    (rows.flatMap Row.funding ++ rows.flatMap Row.outputBlocks).Perm (rows.flatMap Row.tracked) :=
  List.flatMap_append_perm rows Row.funding Row.outputBlocks

/-- A removal keeps what is stored exactly if no row goes that has a funding script. -/
theorem removal_iff (hnumbered : Numbered rows frames parsed) (huntracked : Untracked rows frames) :
    (∃ frames', ((going key id rows).flatMap Row.tracked).foldlM Frames.track frames = some frames' ∧
        Untracked (staying key id rows) frames') ↔ ∀ row ∈ going key id rows, row.funding = [] := by
  constructor
  · intro h
    obtain ⟨frames', htrack, huntracked'⟩ := h
    obtain ⟨hnodup, hlive⟩ := (Frames.track_all_sound huntracked.sound hnumbered.scopes).1 ⟨frames', htrack, huntracked'.sound⟩
    rw [← (tracked_perm _).nodup_iff, List.nodup_append'] at hnodup
    intro row hrow
    rw [List.eq_nil_iff_forall_not_mem]
    intro block hblock
    have hgoes : block ∈ (going key id rows).flatMap Row.funding := List.mem_flatMap.2 ⟨row, hrow, hblock⟩
    have htracked : block ∈ (going key id rows).flatMap Row.tracked :=
      (tracked_perm _).mem_iff.1 (List.mem_append_left _ hgoes)
    rcases hnumbered.funding row ((going_or_staying key id).2 (Or.inl hrow)) block hblock with hstored | hheld
    · obtain ⟨parent, hparent, hblock⟩ := List.mem_flatMap.1 hstored
      rcases (going_or_staying key id).1 hparent with hparent | hparent
      · -- the transaction that has the output goes too: the second track aborts
        exact hnodup.2.2 hgoes (List.mem_flatMap.2 ⟨parent, hparent, hblock⟩)
      · -- it stays: the scope frees its script
        have hlive' := huntracked'.live block (List.mem_flatMap.2 ⟨parent, hparent, hblock⟩)
        exact ((Frames.live_track_all hnumbered.scopes htrack).1 hlive').2 htracked
    · -- it went before: the script is freed twice
      have hlive := hlive block htracked
      exact hheld.elim hlive.1 hlive.2
  · intro h
    have hfunding : (going key id rows).flatMap Row.funding = [] := List.flatMap_eq_nil_iff.2 h
    have hperm := tracked_perm (going key id rows)
    rw [hfunding, List.nil_append] at hperm
    have hsub : ∀ block ∈ (going key id rows).flatMap Row.outputBlocks, block ∈ rows.flatMap Row.outputBlocks := by
      intro block hblock
      obtain ⟨row, hrow, hblock⟩ := List.mem_flatMap.1 hblock
      exact List.mem_flatMap.2 ⟨row, (going_or_staying key id).2 (Or.inl hrow), hblock⟩
    have hnodup : ((going key id rows).map fun row => row.blocks.number).Nodup :=
      hnumbered.once.sublist (List.filter_sublist.map _)
    obtain ⟨frames', htrack, hsound⟩ := (Frames.track_all_sound huntracked.sound hnumbered.scopes).2
      ⟨hperm.nodup_iff.1 (outputs_nodup hnodup), fun block hblock => huntracked.live block (hsub block (hperm.mem_iff.2 hblock))⟩
    refine ⟨frames', htrack, hsound, fun block hblock => ?_⟩
    refine (Frames.live_track_all hnumbered.scopes htrack).2 ⟨?_, fun htracked => ?_⟩
    · obtain ⟨row, hrow, hmem⟩ := List.mem_flatMap.1 hblock
      exact huntracked.live block (List.mem_flatMap.2 ⟨row, (going_or_staying key id).2 (Or.inr hrow), hmem⟩)
    · exact outputs_apart hnumbered.once (hperm.mem_iff.2 htracked) hblock

theorem removed_untracked_iff (hnumbered : Numbered rows frames parsed) (huntracked : Untracked rows frames)
    (htrack : ((going key id rows).flatMap Row.tracked).foldlM Frames.track frames = some frames') :
    Untracked (staying key id rows) frames' ↔ ∀ row ∈ going key id rows, row.funding = [] := by
  rw [← removal_iff hnumbered huntracked]
  constructor
  · exact fun h => ⟨_, htrack, h⟩
  · intro h
    obtain ⟨other, hother, h⟩ := h
    cases htrack.symm.trans hother
    exact h

/-! ## One step -/

/-- No row is removed that has a funding script. -/
def Unlinked (self : TrackerMemory) (call : TrackerCall) : Prop :=
  ∀ key id, call.removes = some (key, id) → id.length ≠ 0 → ∀ row ∈ rowsOf self, dataEqual (key row) id = true →
    ∀ input ∈ row.transaction.inputs, input.fundingOutput.script = none

theorem Unlinked.of_not_removes {call : TrackerCall} (h : call.removes = none) : Unlinked self call := by
  intro key id hremoves
  rw [h] at hremoves
  cases hremoves

theorem unlinked_columns {call : TrackerCall} (hremoves : call.removes = some (key, id)) (hlength : id.length ≠ 0)
    (hlinked : ∀ row ∈ rows, row.Linked) :
    Unlinked (columns rows self) call ↔ ∀ row ∈ going key id rows, row.funding = [] := by
  constructor
  · intro h row hrow
    obtain ⟨hmem, hgoes⟩ := List.mem_filter.1 hrow
    exact (hlinked row hmem).funding_eq_nil.2 (h key id hremoves hlength row (by rwa [rowsOf_columns]) hgoes)
  · intro h key' id' hremoves' _ row hmem hgoes
    cases hremoves.symm.trans hremoves'
    rw [rowsOf_columns] at hmem
    exact (hlinked row hmem).funding_eq_nil.1 (h row (List.mem_filter.2 ⟨hmem, hgoes⟩))

/-- Nothing that is stored is spent by what is untracked with the transaction that is added. -/
theorem added_untracked {data : Data} {transaction : Transaction} (hnumbered : Numbered rows self.frames self.parsed)
    (huntracked : Untracked rows self.frames) :
    (∀ block ∈ (addedRow c (columns rows self) data transaction).funding, block ∈ rows.flatMap Row.outputBlocks) ∧
      ∀ block ∈ (addedRow c (columns rows self) data transaction).tracked, self.frames.Live block := by
  have hfunding : ∀ block ∈ (addedRow c (columns rows self) data transaction).funding, block ∈ rows.flatMap Row.outputBlocks := by
    intro block hblock
    obtain ⟨some', hsome, rfl⟩ := List.mem_filterMap.1 hblock
    obtain ⟨input, -, hinput⟩ := List.mem_map.1 hsome
    rw [fundingBlock_columns] at hinput
    obtain ⟨row, hfind, hrow⟩ := Option.bind_eq_some_iff.1 hinput
    exact List.mem_flatMap.2 ⟨row, List.mem_of_find?_eq_some hfind, Row.mem_outputBlocks_of hrow⟩
  refine ⟨hfunding, fun block hblock => ?_⟩
  rcases List.mem_append.1 hblock with hblock | hblock
  · exact huntracked.live block (hfunding block hblock)
  · -- its own scripts are new
    have hnumber : block.1 = self.parsed := (mem_outputBlocks.1 hblock).1
    refine ⟨fun hmem => ?_, fun hmem => ?_⟩
    · exact absurd (hnumbered.held block (Or.inl hmem)) (by rw [hnumber]; exact Nat.lt_irrefl _)
    · exact absurd (hnumbered.held block (Or.inr hmem)) (by rw [hnumber]; exact Nat.lt_irrefl _)

theorem Numbered.add {data : Data} {transaction : Transaction} (hparsed : transactionNew data = some transaction)
    (h : Numbered rows self.frames self.parsed) (huntracked : Untracked rows self.frames) :
    Numbered (rows ++ [addedRow c (columns rows self) data transaction]) self.frames (self.parsed + 1) where
  once := by
    rw [List.map_append, List.map_singleton, List.nodup_append_comm, List.singleton_append, List.nodup_cons]
    refine ⟨fun hmem => ?_, h.once⟩
    obtain ⟨row, hrow, hnumber⟩ := List.mem_map.1 hmem
    exact absurd (h.below row hrow) (by rw [hnumber]; exact Nat.lt_irrefl _)
  below := by
    intro row hrow
    rcases List.mem_append.1 hrow with hrow | hrow
    · exact Nat.lt_succ_of_lt (h.below row hrow)
    · obtain rfl := List.mem_singleton.1 hrow
      exact Nat.lt_succ_self _
  held := fun block hblock => Nat.lt_succ_of_lt (h.held block hblock)
  linked := by
    intro row hrow
    rcases List.mem_append.1 hrow with hrow | hrow
    · exact h.linked row hrow
    · obtain rfl := List.mem_singleton.1 hrow
      exact addedRow_linked hparsed
  funding := by
    intro row hrow block hblock
    rw [List.flatMap_append, List.mem_append]
    rcases List.mem_append.1 hrow with hrow | hrow
    · exact (h.funding row hrow block hblock).imp_left Or.inl
    · obtain rfl := List.mem_singleton.1 hrow
      exact Or.inl (Or.inl ((added_untracked h huntracked).1 block hblock))
  scopes := h.scopes

theorem Untracked.add {data : Data} {transaction : Transaction} (hnumbered : Numbered rows self.frames self.parsed)
    (h : Untracked rows self.frames) : Untracked (rows ++ [addedRow c (columns rows self) data transaction]) self.frames where
  sound := h.sound
  live := by
    intro block hblock
    rw [List.flatMap_append, List.flatMap_singleton, List.mem_append] at hblock
    rcases hblock with hblock | hblock
    · exact h.live block hblock
    · exact (added_untracked hnumbered h).2 block (List.mem_append_right _ hblock)

theorem Numbered.remove (h : Numbered rows frames parsed)
    (htrack : ((going key id rows).flatMap Row.tracked).foldlM Frames.track frames = some frames') :
    Numbered (staying key id rows) frames' parsed := by
  obtain ⟨hscopes, hheld⟩ := Frames.held_track_all h.scopes htrack
  have hmem : ∀ row ∈ staying key id rows, row ∈ rows := fun row hrow => (List.mem_filter.1 hrow).1
  refine ⟨h.once.sublist (List.filter_sublist.map _), fun row hrow => h.below row (hmem row hrow), ?_,
    fun row hrow => h.linked row (hmem row hrow), ?_, hscopes⟩
  · intro block hblock
    rcases (hheld block).1 hblock with hblock | hblock
    · obtain ⟨row, hrow, hblock⟩ := List.mem_flatMap.1 hblock
      have hrow : row ∈ rows := (List.mem_filter.1 hrow).1
      rcases List.mem_append.1 hblock with hblock | hblock
      · exact (h.funding row hrow block hblock).elim h.outputs_below (h.held block)
      · exact h.outputs_below (List.mem_flatMap.2 ⟨row, hrow, hblock⟩)
    · exact h.held block hblock
  · intro row hrow block hblock
    rcases h.funding row (hmem row hrow) block hblock with hstored | hblock
    · obtain ⟨parent, hparent, hblock⟩ := List.mem_flatMap.1 hstored
      rcases (going_or_staying key id).1 hparent with hparent | hparent
      · -- it is tracked with its transaction
        exact Or.inr ((hheld block).2 (Or.inl (List.mem_flatMap.2 ⟨parent, hparent, List.mem_append_right _ hblock⟩)))
      · exact Or.inl (List.mem_flatMap.2 ⟨parent, hparent, hblock⟩)
    · exact Or.inr ((hheld block).2 (Or.inr hblock))

theorem Numbered.pop {scope : List ScriptBlock} {freed : List ScriptBlock} {outer : List (List ScriptBlock)}
    (h : Numbered rows ⟨freed, scope :: outer⟩ parsed) (houter : outer ≠ []) :
    Numbered rows ⟨scope.reverse ++ freed, outer⟩ parsed := by
  have hheld : ∀ block, block ∈ outer.flatten ∨ block ∈ scope.reverse ++ freed →
      block ∈ (scope :: outer).flatten ∨ block ∈ freed := by
    intro block hblock
    simp only [List.mem_append, List.mem_reverse, List.flatten_cons] at hblock ⊢
    tauto
  refine ⟨h.once, h.below, fun block hblock => h.held block (hheld block hblock), h.linked, ?_, houter⟩
  intro row hrow block hblock
  refine (h.funding row hrow block hblock).imp_right fun hblock => ?_
  simp only [List.mem_append, List.mem_reverse, List.flatten_cons] at hblock ⊢
  tauto

theorem rowsStep_untracked_iff {call : TrackerCall} {parsed' : Nat} (hnumbered : Numbered rows self.frames self.parsed)
    (huntracked : Untracked rows self.frames)
    (hstep : RowsStep c interesting (columns rows self) rows call rows' frames' parsed') :
    Numbered rows' frames' parsed' ∧ (Untracked rows' frames' ↔ Unlinked (columns rows self) call) := by
  cases hstep with
  | dull data _ hparsed hdull => exact ⟨hnumbered, iff_of_true huntracked (.of_not_removes rfl)⟩
  | stored data transaction hparsed hstores =>
    have huntrack := Frames.untrack_all_live (@added_untracked c self rows data transaction hnumbered huntracked).2
    rw [columns_frames, columns_parsed, huntrack]
    exact ⟨hnumbered.add hparsed huntracked, iff_of_true (huntracked.add hnumbered) (.of_not_removes rfl)⟩
  | nothing _ key id hremoves hlength =>
    refine ⟨hnumbered, iff_of_true huntracked fun key' id' hremoves' hlength' => ?_⟩
    cases hremoves.symm.trans hremoves'
    exact absurd hlength hlength'
  | removed _ key id hremoves hlength _ htrack =>
    refine ⟨hnumbered.remove htrack, ?_⟩
    rw [unlinked_columns hremoves hlength hnumbered.linked, removed_untracked_iff hnumbered huntracked htrack]
  | push => exact ⟨⟨hnumbered.once, hnumbered.below, hnumbered.held, hnumbered.linked, hnumbered.funding, List.cons_ne_nil _ _⟩,
      iff_of_true ⟨Frames.sound_push.2 huntracked.sound, huntracked.live⟩ (.of_not_removes rfl)⟩
  | pop _ hdepth hpop =>
    rw [columns_frames] at hdepth hpop
    obtain ⟨tracker, blocks, parsed, freed, scopes⟩ := self
    cases scopes with
    | nil => exact absurd rfl hnumbered.scopes
    | cons scope outer =>
      obtain ⟨hends, hsound⟩ := huntracked.sound.pop
      cases hpop.symm.trans hends
      refine ⟨hnumbered.pop fun hnil => ?_, iff_of_true ⟨hsound, fun block hblock => ?_⟩ (.of_not_removes rfl)⟩
      · rw [hnil] at hdepth
        exact absurd hdepth (Nat.lt_irrefl _)
      · exact Frames.live_pop.2 (huntracked.live block hblock)

/-! ## A new tracker -/

theorem newRows_numbers (array : Datas) :
    (newRows c array).map (fun row => row.blocks.number) = List.range array.length := by
  have h := congrArg (List.map ScriptBlocks.number) (linkedRows_numbers (c := c) array)
  rw [List.map_map, List.map_map] at h
  rw [← List.map_id (List.range array.length), newRows, List.map_map]
  exact h

theorem newRows_outputs (array : Datas) :
    (newRows c array).flatMap Row.outputBlocks = (linkedRows c array).flatMap Row.outputBlocks := by
  rw [newRows, List.flatMap_map]
  rfl

/-- Linking changes neither the txids nor the outputs. -/
theorem fundingBlock_linked (array : Datas) :
    fundingBlock (columns (linkedRows c array) self) = fundingBlock (columns (parsedRows c array) self) := by
  funext input
  rw [fundingBlock_columns, fundingBlock_columns, linkedRows, List.find?_map, Option.bind_map]
  rfl

theorem fundInputs_blocks (tracker : TransactionTracker) (transaction : Transaction) :
    (fundInputs tracker transaction).inputs.map (fundingBlock self) = transaction.inputs.map (fundingBlock self) := by
  rw [fundInputs, List.map_map]
  refine List.map_congr_left fun input _ => ?_
  rw [Function.comp_apply]
  split <;> rfl

theorem newRows_linked {array : Datas} (hparsed : AllParsed array) : ∀ row ∈ newRows c array, row.Linked := by
  intro row hrow
  obtain ⟨linked, hlinked, rfl⟩ := List.mem_map.1 hrow
  obtain ⟨first, hfirst, rfl⟩ := List.mem_map.1 hlinked
  obtain ⟨data, hdata, rfl⟩ := List.mem_map.1 hfirst
  have hdata : data.1 ∈ array := List.fst_mem_of_mem_zipIdx hdata
  have hunfunded := transactionNew_unfunded (hparsed data.1 hdata)
  rw [Row.Linked, Row.share, fundingBlock_linked]
  refine Eq.trans (congrArg (List.map Option.isSome) ?_) (@funded_linked (TrackerMemory.opened 0 0) (parsedRows c array) _ hunfunded)
  exact fundInputs_blocks _ _

theorem newRows_numbered {outer : Nat} {array : Datas} (hparsed : AllParsed array) :
    Numbered (newRows c array) (TrackerMemory.opened outer array.length).frames array.length where
  once := by
    rw [newRows_numbers]
    exact List.nodup_range
  below := by
    intro row hrow
    have hmem : row.blocks.number ∈ (newRows c array).map fun row => row.blocks.number := List.mem_map_of_mem hrow
    rw [newRows_numbers] at hmem
    exact List.mem_range.1 hmem
  held := by
    intro block hblock
    simp [TrackerMemory.opened] at hblock
  linked := newRows_linked hparsed
  funding := by
    intro row hrow block hblock
    obtain ⟨linked, -, rfl⟩ := List.mem_map.1 hrow
    obtain ⟨some', hsome, rfl⟩ := List.mem_filterMap.1 hblock
    obtain ⟨input, -, hinput⟩ := List.mem_map.1 hsome
    rw [fundingBlock_columns] at hinput
    obtain ⟨parent, hfind, hparent⟩ := Option.bind_eq_some_iff.1 hinput
    rw [newRows_outputs]
    exact Or.inl (List.mem_flatMap.2 ⟨parent, List.mem_of_find?_eq_some hfind, Row.mem_outputBlocks_of hparent⟩)
  scopes := List.cons_ne_nil _ _

theorem newRows_untracked {outer parsed : Nat} (array : Datas) :
    Untracked (newRows c array) (TrackerMemory.opened outer parsed).frames where
  sound := ⟨by simp [TrackerMemory.opened], by simp [TrackerMemory.opened]⟩
  live := by simp [Frames.Live, TrackerMemory.opened]

/-! ## Runs -/

/-- The scripts of the stored outputs. -/
def TrackerMemory.outputScripts (self : TrackerMemory) : List ScriptBlock :=
  (List.zipWith (fun transaction blocks => outputBlocks blocks.number transaction.outputs) self.allTransactions
    self.blocks).flatten

/-- `TransactionTxid` can read what is stored, now and when the open scopes have ended. -/
def ScriptsStored (self : TrackerMemory) : Prop :=
  ∃ ended, self.frames.close = some ended ∧ ∀ block ∈ self.outputScripts, block ∉ ended.freed

/-- The lists are aligned: entry by entry the hash is that of bytes that were added, the
    transaction is what these bytes say, and the txid is its txid. -/
structure ListsAligned (c : Crypto) (added : Datas) (self : TrackerMemory) : Prop where
  hashes : self.allTransactionHashes.length = self.allTransactions.length
  txids : self.allTransactionTxids.length = self.allTransactions.length
  entry : ∀ (i : Nat) transaction, self.allTransactions[i]? = some transaction → ∃ data ∈ added, ParsedFrom data transaction ∧
    self.allTransactionHashes[i]? = some (hash256 c data) ∧
    self.allTransactionTxids[i]? = some (transactionTxid c transaction)
  scripts : ScriptsStored self
  /-- What a lookup returns is stored and has the identity asked for. -/
  forHash : ∀ hash transaction, ttTransactionForHash self.toTransactionTracker hash = some transaction →
    transaction ∈ self.allTransactions ∧ ∃ data ∈ added, ParsedFrom data transaction ∧ dataEqual (hash256 c data) hash
  forTxid : ∀ txid transaction, ttTransactionForTxid self.toTransactionTracker txid = some transaction →
    transaction ∈ self.allTransactions ∧ dataEqual (transactionTxid c transaction) txid
  /-- It returns nothing only where nothing has that identity. -/
  noHash : ∀ hash, ttTransactionForHash self.toTransactionTracker hash = none →
    ∀ stored ∈ self.allTransactionHashes, dataEqual stored hash = false
  noTxid : ∀ txid, ttTransactionForTxid self.toTransactionTracker txid = none →
    ∀ transaction ∈ self.allTransactions, dataEqual (transactionTxid c transaction) txid = false

theorem outputScripts_columns : (columns rows self).outputScripts = rows.flatMap Row.outputBlocks := by
  rw [TrackerMemory.outputScripts, columns_transactions, columns_blocks, List.zipWith_map, List.zipWith_self]
  exact List.flatMap_def.symm

theorem scripts_columns : ScriptsStored (columns rows self) ↔ Untracked rows self.frames := by
  rw [ScriptsStored, outputScripts_columns, columns_frames, Frames.close_live]
  exact ⟨fun h => ⟨h.1, h.2⟩, fun h => ⟨h.sound, h.live⟩⟩

theorem aligned_columns {added : Datas} (hrows : ∀ row ∈ rows, RowOf c added row) :
    ListsAligned c added (columns rows self) ↔ Untracked rows self.frames := by
  rw [← scripts_columns]
  refine ⟨ListsAligned.scripts, fun hscripts => ⟨?_, ?_, ?_, hscripts, ?_, ?_, ?_, ?_⟩⟩
  · simp
  · simp
  · intro i transaction h
    obtain ⟨row, hrow, rfl⟩ := Option.map_eq_some_iff.1 ((List.getElem?_map ..).symm.trans h)
    obtain ⟨data, hdata, hparsed, hhash, htxid⟩ := hrows row (List.mem_of_getElem? hrow)
    refine ⟨data, hdata, hparsed, ?_, ?_⟩
    · simp [hrow, hhash]
    · simp [hrow, htxid]
  · intro hash transaction h
    rw [forHash_columns] at h
    obtain ⟨row, hfind, rfl⟩ := Option.map_eq_some_iff.1 h
    obtain ⟨hmatch, hmem⟩ := find_row hfind
    obtain ⟨data, hdata, hparsed, hhash, -⟩ := hrows row hmem
    exact ⟨List.mem_map_of_mem hmem, data, hdata, hparsed, hhash ▸ hmatch⟩
  · intro txid transaction h
    rw [forTxid_columns] at h
    obtain ⟨row, hfind, rfl⟩ := Option.map_eq_some_iff.1 h
    obtain ⟨hmatch, hmem⟩ := find_row hfind
    obtain ⟨-, -, -, -, htxid⟩ := hrows row hmem
    exact ⟨List.mem_map_of_mem hmem, htxid ▸ hmatch⟩
  · intro hash h stored hstored
    rw [forHash_columns, Option.map_eq_none_iff, List.find?_eq_none] at h
    obtain ⟨row, hmem, rfl⟩ := List.mem_map.1 hstored
    exact Bool.eq_false_iff.2 (h row hmem)
  · intro txid h transaction htransaction
    rw [forTxid_columns, Option.map_eq_none_iff, List.find?_eq_none] at h
    obtain ⟨row, hmem, rfl⟩ := List.mem_map.1 htransaction
    obtain ⟨-, -, -, -, htxid⟩ := hrows row hmem
    exact htxid ▸ Bool.eq_false_iff.2 (h row hmem)

/-- A removal returns. -/
def RemovalReturns (c : Crypto) (interesting : TrackerMemory → Transaction → Bool) (self : TrackerMemory) (call : TrackerCall) :
    Prop :=
  call.removes.isSome → (trackerStep c interesting self call).isSome

/-- A table with its memory. -/
def NumberedTable (self : TrackerMemory) : Prop := ∃ rows base, self = columns rows base ∧ Numbered rows base.frames base.parsed

/-- What stops meets the condition exactly if it is no removal. -/
theorem removal_stops_iff {call : TrackerCall} (hnumbered : Numbered rows self.frames self.parsed)
    (huntracked : Untracked rows self.frames) (h : trackerStep c interesting (columns rows self) call = none) :
    RemovalReturns c interesting (columns rows self) call ↔ Unlinked (columns rows self) call := by
  cases hremoves : call.removes with
  | none =>
    refine iff_of_true (fun hsome => ?_) (.of_not_removes hremoves)
    rw [hremoves] at hsome
    cases hsome
  | some removal =>
    obtain ⟨key, id⟩ := removal
    have hstops : ¬ RemovalReturns c interesting (columns rows self) call := by
      intro hreturns
      have hsome := hreturns (by rw [hremoves]; rfl)
      rw [h] at hsome
      cases hsome
    refine iff_of_false hstops fun hunlinked => ?_
    rw [trackerStep_removes hremoves] at h
    split at h
    · cases h
    · rename_i hlength
      obtain ⟨frames', htrack, -⟩ := (removal_iff hnumbered huntracked).2
        ((unlinked_columns hremoves hlength hnumbered.linked).1 hunlinked)
      rw [htrack] at h
      cases h

/-- In a run from a new tracker the three lists are aligned at every moment, and every removal
    returns, exactly when no transaction is removed that has a funding script. -/
theorem lists_aligned_iff {outer : Nat} {array : Datas} {calls : List TrackerCall}
    (hnew : TrackerMemory.ttNew c outer array = some self) :
    (∀ before, before <+: calls → ∀ reached, after (trackerStep c interesting) self before = some reached →
        ListsAligned c (array ++ before.filterMap addedBytes) reached) ∧
      Along (trackerStep c interesting) (RemovalReturns c interesting) self calls ↔
    Along (trackerStep c interesting) Unlinked self calls := by
  obtain ⟨hparsed, rfl⟩ := ttNew_columns hnew
  have hnumbered := @newRows_numbered c outer array hparsed
  have hstored : Throughout (trackerStep c interesting) ScriptsStored
      (columns (newRows c array) (TrackerMemory.opened outer array.length)) calls ↔
      ∀ before, before <+: calls → ∀ reached, after (trackerStep c interesting)
        (columns (newRows c array) (TrackerMemory.opened outer array.length)) before = some reached →
        ListsAligned c (array ++ before.filterMap addedBytes) reached := by
    refine forall₂_congr fun before _ => forall₂_congr fun reached hreached => ?_
    obtain ⟨rows, base, rfl, hall⟩ := after_columns (newRows_rowOf hparsed) hreached
    rw [aligned_columns hall, scripts_columns]
  rw [← hstored]
  refine @throughout_returns_iff_along _ _ _ ScriptsStored NumberedTable Unlinked _ ?_ ?_ _ _ ⟨_, _, rfl, hnumbered⟩
    (scripts_columns.2 (newRows_untracked array))
  · intro s call next htable hgood hnext
    obtain ⟨rows, base, rfl, hnumbered⟩ := htable
    obtain ⟨rows', next', rfl, hstep⟩ := trackerStep_columns hnext
    obtain ⟨hnumbered', hiff⟩ := rowsStep_untracked_iff hnumbered (scripts_columns.1 hgood) hstep
    refine ⟨fun _ => ?_, fun _ => ⟨rows', next', rfl, hnumbered'⟩, scripts_columns.trans hiff⟩
    rw [hnext]
    rfl
  · intro s call htable hgood hstop
    obtain ⟨rows, base, rfl, hnumbered⟩ := htable
    exact removal_stops_iff hnumbered (scripts_columns.1 hgood) hstop

/-- One input, which spends the output of `strippedTransaction`, and an empty output. -/
def spendingTransaction : Bytes :=
  [1, 0, 0, 0, 1] ++ (transactionTxid plainCrypto (parsedData (some strippedTransaction))).toBytes ++ List.replicate 9 0 ++
    [1] ++ List.replicate 9 0 ++ [0, 0, 0, 0]

theorem unlinked_of_all {txid : Data}
    (h : ((rowsOf self).all fun row => !dataEqual row.txid txid ||
      row.transaction.inputs.all fun input => input.fundingOutput.script.isNone) = true) :
    Unlinked self (.removeTransactionByTxid txid) := by
  intro key id hremoves _ row hrow hgoes input hinput
  cases hremoves
  have hrow := List.all_eq_true.1 h row hrow
  rw [hgoes] at hrow
  exact Option.isNone_iff_eq_none.1 (List.all_eq_true.1 hrow input hinput)

/-- The transaction that pays goes, the one that spends it stays. -/
def removesPaid : List TrackerCall :=
  [.addTransaction (some strippedTransaction), .addTransaction (some spendingTransaction), .dataTrackPush,
    .removeTransactionByTxid (transactionTxid plainCrypto (parsedData (some strippedTransaction))), .dataTrackPop]

theorem lists_aligned_paid :
    ∃ reached, after (trackerStep plainCrypto paidInteresting) (columns [] (TrackerMemory.opened 0 0)) removesPaid = some reached ∧
      ListsAligned plainCrypto ([] ++ removesPaid.filterMap addedBytes) reached := by
  have hnew : TrackerMemory.ttNew plainCrypto 0 [] = some (columns [] (TrackerMemory.opened 0 0)) := rfl
  have halong : Along (trackerStep plainCrypto paidInteresting) Unlinked (columns [] (TrackerMemory.opened 0 0)) removesPaid := by
    refine ⟨.of_not_removes rfl, fun first hfirst => ⟨.of_not_removes rfl, fun second hsecond =>
      ⟨.of_not_removes rfl, fun third hthird => ⟨unlinked_of_all ?_, fun _ _ => ⟨.of_not_removes rfl, fun _ _ => trivial⟩⟩⟩⟩⟩
    have hreached : after (trackerStep plainCrypto paidInteresting) (columns [] (TrackerMemory.opened 0 0)) (removesPaid.take 3) =
        some third := by
      show after _ _ [_, _, _] = _
      rw [after_cons hfirst, after_cons hsecond, after_cons hthird]
      rfl
    have hall : ((after (trackerStep plainCrypto paidInteresting) (columns [] (TrackerMemory.opened 0 0))
        (removesPaid.take 3)).all fun third => (rowsOf third).all fun row =>
          !dataEqual row.txid (transactionTxid plainCrypto (parsedData (some strippedTransaction))) ||
            row.transaction.inputs.all fun input => input.fundingOutput.script.isNone) = true := by
      decide +kernel
    rwa [hreached, Option.all_some] at hall
  obtain ⟨reached, hreached⟩ := Option.isSome_iff_exists.1 (show (after (trackerStep plainCrypto paidInteresting)
    (columns [] (TrackerMemory.opened 0 0)) removesPaid).isSome = true by decide +kernel)
  exact ⟨reached, hreached, ((lists_aligned_iff hnew).2 halong).1 removesPaid List.prefix_rfl reached hreached⟩

/-- The one that spends goes, and its scope ends. -/
def removesSpender : List TrackerCall :=
  [.addTransaction (some strippedTransaction), .addTransaction (some spendingTransaction), .dataTrackPush,
    .removeTransactionByTxid (transactionTxid plainCrypto (parsedData (some spendingTransaction))), .dataTrackPop]

/-- The script of the transaction that stays is freed. -/
theorem not_lists_aligned :
    ¬ ∀ (c : Crypto) (interesting : TrackerMemory → Transaction → Bool) (outer : Nat) (array : Datas)
      (calls : List TrackerCall) (self reached : TrackerMemory), TrackerMemory.ttNew c outer array = some self →
      after (trackerStep c interesting) self calls = some reached →
      ListsAligned c (array ++ calls.filterMap addedBytes) reached := by
  intro h
  have hfreed : ((after (trackerStep plainCrypto paidInteresting) (columns [] (TrackerMemory.opened 0 0)) removesSpender).any
      fun reached => reached.frames.freed.any reached.outputScripts.contains) = true := by
    decide +kernel
  obtain ⟨reached, hreached, hfreed⟩ := (Option.any_eq_true _ _).1 hfreed
  have hnew : TrackerMemory.ttNew plainCrypto 0 [] = some (columns [] (TrackerMemory.opened 0 0)) := rfl
  obtain ⟨ended, hended, hscripts⟩ := ListsAligned.scripts (h plainCrypto paidInteresting 0 [] removesSpender _ reached hnew hreached)
  obtain ⟨-, rfl⟩ := Frames.close_iff.1 hended
  obtain ⟨block, hblock, hstored⟩ := List.any_eq_true.1 hfreed
  exact hscripts block (List.contains_iff_mem.1 hstored) (List.mem_append_right _ hblock)

end BitcoinSpoon
