/-
  BitcoinSpoon.Analyzer.Events — what the listed transactions did to the wallet
  (`code/TransactionAnalyzer.c`).

  Each transaction gives a group of events: one for every output that pays the keys or that
  the keys paid, a fee, or one transfer instead of them all. A pointer to a listed
  transaction is its position in the list; `none` is a NULL pointer read through.

  The previous transaction of every input is looked up and read without a check, and so is
  the first event of a transfer. `allEvents_finishes_iff` says exactly when both exist: every
  input spends a listed transaction, and what the keys paid has an output.

  An analyzer lists copies that went through the wire format, and the copy of a transaction
  without inputs is another transaction. What is said of a new analyzer is said for every
  list; what goes wrong is shown for copies.
-/

import BitcoinSpoon.Transaction.Copy
import BitcoinSpoon.Util.Dict
import BitcoinSpoon.Loop.Rules

namespace BitcoinSpoon

open Wire Loop

def TAEventTypeDeposit : Nat := 1
def TAEventTypeWithdrawl : Nat := 2
def TAEventTypeChange : Nat := 4
def TAEventTypeUnspent : Nat := 8
def TAEventTypeTransfer : Nat := 16
def TAEventTypeFee : Nat := 32

structure TAEvent where
  type : Nat
  amount : UInt64
  /-- The position of the transaction. -/
  transaction : Nat
  /-- An `uint32_t`, like the count of the outputs. -/
  outputIndex : Nat
  deriving DecidableEq, Repr

structure TransactionAnalyzer where
  transactions : List Transaction
  keysAndHashes : Dict
  /-- A group for each transaction, or nothing yet. -/
  eventsCache : List (List TAEvent)

/-- What `TANew` makes of its copies. -/
def newAnalyzer (transactions : List Transaction) (keysAndHashes : Dict) : TransactionAnalyzer := ⟨transactions, keysAndHashes, []⟩

/-- `none` where a transaction cannot be copied. -/
def taNew (transactions : List Transaction) (keysAndHashes : Dict) : Option TransactionAnalyzer := do
  let array ← transactions.mapM transactionCopy
  some (newAnalyzer array keysAndHashes)

variable (c : Crypto) (self : TransactionAnalyzer)

def scriptDataMatches (scriptData : Data) : Bool :=
  scriptData.length ≠ 0 &&
    (scriptToTokens scriptData).any fun token => token.data.length ≠ 0 && dictHasKey self.keysAndHashes token.data

def transactionForTxid (txid : Data) : Option Transaction :=
  self.transactions.find? fun transaction => dataEqual (transactionTxid c transaction) txid

/-- Some listed input spends the output; the source returns the first. -/
def inputReferencing (fromTransaction : Transaction) (index : Nat) : Bool :=
  self.transactions.any fun transaction => transaction.inputs.any fun input =>
    dataEqual input.previousTransactionHash (transactionTxid c fromTransaction) && input.outputIndex.toNat = index

/-- The three tests of the loop over the inputs. -/
def selfFundedInput (otherTrans : Transaction) (input : TransactionInput) : Bool :=
  (otherTrans.outputs[input.outputIndex.toNat]?.any fun output => scriptDataMatches self output.script) ||
    dictDoesIntersect self.keysAndHashes (transactionInputGetScriptTokensPushDataSet input) ||
    dictDoesIntersect self.keysAndHashes (transactionOutputGetScriptTokensPushDataSet input.fundingOutput)

/-- How many of the inputs are self funded. -/
def countSelfFunded : List TransactionInput → Option Nat
  | [] => some 0
  | input :: inputs => do
    let otherTrans ← transactionForTxid c self input.previousTransactionHash
    let rest ← countSelfFunded inputs
    some ((if selfFundedInput self otherTrans input then 1 else 0) + rest)

/-- `type & ~TAEventTypeUnspent`. -/
def clearUnspent (type : Nat) : Nat := type &&& (0xffffffff - TAEventTypeUnspent)

/-- The type before the spends are looked at. -/
def outputType (selfFundedInputs : Nat) (output : TransactionOutput) : Nat :=
  if scriptDataMatches self output.script then
    -- any self funded input means this wallet sent the transaction
    if selfFundedInputs ≠ 0 then TAEventTypeChange ||| TAEventTypeUnspent else TAEventTypeDeposit ||| TAEventTypeUnspent
  else if selfFundedInputs ≠ 0 then TAEventTypeWithdrawl
  else 0

def outputEvent (position : Nat) (transaction : Transaction) (selfFundedInputs : Nat) (index : Nat) (output : TransactionOutput) :
    TAEvent where
  type :=
    if inputReferencing c self transaction index then clearUnspent (outputType self selfFundedInputs output)
    else outputType self selfFundedInputs output
  amount := output.value
  transaction := position
  outputIndex := index

/-- The events of the outputs; one without a type is dropped. -/
def outputEvents (position : Nat) (transaction : Transaction) (selfFundedInputs : Nat) : List TAEvent :=
  (transaction.outputs.mapIdx (outputEvent c self position transaction selfFundedInputs)).filter fun event => event.type ≠ 0

def feeEvent (position : Nat) : TAEvent := ⟨TAEventTypeFee, 0, position, 0⟩

/-- The group of the transaction at `position`. -/
def transactionEvents (position : Nat) (transaction : Transaction) : Option (List TAEvent) := do
  let selfFundedInputs ← countSelfFunded c self transaction.inputs
  let newEvents := outputEvents c self position transaction selfFundedInputs
  let changeAndDepositCount := transaction.outputs.countP fun output => scriptDataMatches self output.script
  if changeAndDepositCount = newEvents.length ∧ selfFundedInputs ≠ 0 then
    -- solely an internal transfer: one event instead of all
    match newEvents with
    | [] => none
    | event :: _ => some [{ event with type := event.type ||| TAEventTypeTransfer }]
  else if selfFundedInputs ≠ 0 then some (newEvents ++ [feeEvent position])
  else some newEvents

/-- The groups of the transactions from `position` on. -/
def eventsFrom : Nat → List Transaction → Option (List (List TAEvent))
  | _, [] => some []
  | position, transaction :: rest => do
    let newEvents ← transactionEvents c self position transaction
    let array ← eventsFrom (position + 1) rest
    some (newEvents :: array)

/-- The groups, and the analyzer that keeps them. -/
def allEvents : Option (List (List TAEvent) × TransactionAnalyzer) :=
  if self.eventsCache.length ≠ 0 then some (self.eventsCache, self)
  else (eventsFrom c self 0 self.transactions).map fun array => (array, { self with eventsCache := array })

/-! ## Inputs -/

/-- The transaction the input spends is listed. -/
def SpendsListed (input : TransactionInput) : Prop :=
  ∃ otherTrans ∈ self.transactions, dataEqual (transactionTxid c otherTrans) input.previousTransactionHash = true

/-- The wallet paid for the transaction. -/
def SelfFunded (transaction : Transaction) : Prop :=
  ∃ input ∈ transaction.inputs, ∃ otherTrans, transactionForTxid c self input.previousTransactionHash = some otherTrans ∧
    selfFundedInput self otherTrans input = true

variable {c : Crypto} {self : TransactionAnalyzer} {transaction : Transaction} {position : Nat}

theorem transactionForTxid_isSome {input : TransactionInput} :
    (∃ otherTrans, transactionForTxid c self input.previousTransactionHash = some otherTrans) ↔ SpendsListed c self input := by
  rw [← Option.isSome_iff_exists, transactionForTxid, List.find?_isSome]
  rfl

theorem countSelfFunded_isSome {inputs : List TransactionInput} :
    (∃ count, countSelfFunded c self inputs = some count) ↔ ∀ input ∈ inputs, SpendsListed c self input := by
  induction inputs with
  | nil => simp [countSelfFunded]
  | cons input inputs ih =>
    rw [List.forall_mem_cons, ← ih, ← transactionForTxid_isSome]
    constructor
    · rintro ⟨count, h⟩
      obtain ⟨otherTrans, hother, h⟩ := Option.bind_eq_some_iff.1 h
      obtain ⟨rest, hrest, -⟩ := Option.bind_eq_some_iff.1 h
      exact ⟨⟨otherTrans, hother⟩, ⟨rest, hrest⟩⟩
    · rintro ⟨⟨otherTrans, hother⟩, ⟨rest, hrest⟩⟩
      rw [countSelfFunded, hother, hrest]
      exact ⟨_, rfl⟩

theorem countSelfFunded_ne_zero {inputs : List TransactionInput} {count : Nat} (h : countSelfFunded c self inputs = some count) :
    count ≠ 0 ↔ ∃ input ∈ inputs, ∃ otherTrans, transactionForTxid c self input.previousTransactionHash = some otherTrans ∧
      selfFundedInput self otherTrans input = true := by
  induction inputs generalizing count with
  | nil =>
    cases h
    simp
  | cons input inputs ih =>
    obtain ⟨otherTrans, hother, h⟩ := Option.bind_eq_some_iff.1 h
    obtain ⟨rest, hrest, h⟩ := Option.bind_eq_some_iff.1 h
    cases h
    simp only [List.mem_cons, exists_eq_or_imp, hother, Option.some.injEq, exists_eq_left', ← ih hrest]
    split <;> rename_i hself <;> simp [hself]

/-! ## Outputs -/

/-- What the wallet paid has an event for every output. -/
theorem outputEvents_funded {selfFundedInputs : Nat} (h : selfFundedInputs ≠ 0) :
    outputEvents c self position transaction selfFundedInputs =
      transaction.outputs.mapIdx (outputEvent c self position transaction selfFundedInputs) := by
  rw [outputEvents, List.filter_eq_self]
  intro event hevent
  obtain ⟨index, hindex, rfl⟩ := List.mem_mapIdx.1 hevent
  unfold outputEvent outputType
  simp only [h, ne_eq, not_false_eq_true, if_true]
  split <;> split <;> rfl

theorem outputEvents_length {selfFundedInputs : Nat} (h : selfFundedInputs ≠ 0) :
    (outputEvents c self position transaction selfFundedInputs).length = transaction.outputs.length := by
  rw [outputEvents_funded h, List.length_mapIdx]

/-- All outputs pay the wallet. -/
def AllMatch (self : TransactionAnalyzer) (transaction : Transaction) : Prop :=
  ∀ output ∈ transaction.outputs, scriptDataMatches self output.script = true

theorem countP_eq_length_iff :
    (transaction.outputs.countP fun output => scriptDataMatches self output.script) = transaction.outputs.length ↔
      AllMatch self transaction := List.countP_eq_length

/-- The three shapes of a group. -/
theorem transactionEvents_eq {selfFundedInputs : Nat} (position : Nat)
    (hcount : countSelfFunded c self transaction.inputs = some selfFundedInputs) :
    (selfFundedInputs = 0 → transactionEvents c self position transaction = some (outputEvents c self position transaction 0)) ∧
      (selfFundedInputs ≠ 0 → ¬ AllMatch self transaction →
        transactionEvents c self position transaction =
          some (outputEvents c self position transaction selfFundedInputs ++ [feeEvent position])) ∧
      (selfFundedInputs ≠ 0 → AllMatch self transaction →
        transactionEvents c self position transaction = (outputEvents c self position transaction selfFundedInputs).head?.map
          fun event => [{ event with type := event.type ||| TAEventTypeTransfer }]) := by
  rw [transactionEvents, hcount, Option.bind_eq_bind, Option.bind_some]
  refine ⟨fun hzero => ?_, fun hfunded hnot => ?_, fun hfunded hall => ?_⟩
  · subst hzero
    simp
  · have hne : (transaction.outputs.countP fun output => scriptDataMatches self output.script) ≠
        (outputEvents c self position transaction selfFundedInputs).length := by
      rw [outputEvents_length hfunded]
      exact fun h => hnot (countP_eq_length_iff.1 h)
    simp [hne, hfunded]
  · have heq : (transaction.outputs.countP fun output => scriptDataMatches self output.script) =
        (outputEvents c self position transaction selfFundedInputs).length := by
      rw [outputEvents_length hfunded]
      exact countP_eq_length_iff.2 hall
    dsimp only
    rw [if_pos ⟨heq, hfunded⟩]
    cases outputEvents c self position transaction selfFundedInputs <;> rfl

theorem transactionEvents_isSome :
    (∃ newEvents, transactionEvents c self position transaction = some newEvents) ↔
      (∀ input ∈ transaction.inputs, SpendsListed c self input) ∧ (SelfFunded c self transaction → transaction.outputs ≠ []) := by
  rw [← countSelfFunded_isSome]
  constructor
  · rintro ⟨newEvents, h⟩
    obtain ⟨selfFundedInputs, hcount, -⟩ := Option.bind_eq_some_iff.1 h
    refine ⟨⟨selfFundedInputs, hcount⟩, fun hself hnil => ?_⟩
    have hfunded : selfFundedInputs ≠ 0 := (countSelfFunded_ne_zero hcount).2 hself
    have hall : AllMatch self transaction := by
      intro output hmem
      rw [hnil] at hmem
      cases hmem
    have hempty : outputEvents c self position transaction selfFundedInputs = [] := by
      rw [← List.length_eq_zero_iff, outputEvents_length hfunded, hnil, List.length_nil]
    rw [(transactionEvents_eq position hcount).2.2 hfunded hall, hempty] at h
    cases h
  · rintro ⟨⟨selfFundedInputs, hcount⟩, houtputs⟩
    obtain ⟨hnone, hpart, hwhole⟩ := transactionEvents_eq position hcount
    by_cases hfunded : selfFundedInputs = 0
    · exact ⟨_, hnone hfunded⟩
    by_cases hall : AllMatch self transaction
    · have hne : outputEvents c self position transaction selfFundedInputs ≠ [] := by
        intro hempty
        have hlength := @outputEvents_length c self transaction position selfFundedInputs hfunded
        rw [hempty, List.length_nil] at hlength
        exact houtputs ((countSelfFunded_ne_zero hcount).1 hfunded) (List.eq_nil_of_length_eq_zero hlength.symm)
      rw [hwhole hfunded hall, List.head?_eq_some_head hne]
      exact ⟨_, rfl⟩
    · exact ⟨_, hpart hfunded hall⟩

/-! ## All groups -/

theorem eventsFrom_isSome {transactions : List Transaction} :
    (∃ array, eventsFrom c self position transactions = some array) ↔
      ∀ transaction ∈ transactions, (∀ input ∈ transaction.inputs, SpendsListed c self input) ∧
        (SelfFunded c self transaction → transaction.outputs ≠ []) := by
  induction transactions generalizing position with
  | nil => simp [eventsFrom]
  | cons transaction rest ih =>
    rw [List.forall_mem_cons, ← @transactionEvents_isSome c self transaction position, ← @ih (position + 1)]
    constructor
    · rintro ⟨array, h⟩
      obtain ⟨newEvents, hnew, h⟩ := Option.bind_eq_some_iff.1 h
      obtain ⟨array, hrest, -⟩ := Option.bind_eq_some_iff.1 h
      exact ⟨⟨newEvents, hnew⟩, ⟨array, hrest⟩⟩
    · rintro ⟨⟨newEvents, hnew⟩, ⟨array, hrest⟩⟩
      rw [eventsFrom, hnew, hrest]
      exact ⟨_, rfl⟩

theorem eventsFrom_length {transactions : List Transaction} {array : List (List TAEvent)}
    (h : eventsFrom c self position transactions = some array) : array.length = transactions.length := by
  induction transactions generalizing position array with
  | nil =>
    cases h
    rfl
  | cons transaction rest ih =>
    obtain ⟨newEvents, -, h⟩ := Option.bind_eq_some_iff.1 h
    obtain ⟨array, hrest, h⟩ := Option.bind_eq_some_iff.1 h
    cases h
    rw [List.length_cons, List.length_cons, ih hrest]

/-- Every input spends a listed transaction, and what the wallet paid has an output. -/
def Analyzable (c : Crypto) (self : TransactionAnalyzer) : Prop :=
  ∀ transaction ∈ self.transactions, (∀ input ∈ transaction.inputs, SpendsListed c self input) ∧
    (SelfFunded c self transaction → transaction.outputs ≠ [])

/-- Nothing but listed transactions is read, and each has its group. -/
def AnalysisFinishes (c : Crypto) (self : TransactionAnalyzer) : Prop :=
  ∃ groups next, allEvents c self = some (groups, next) ∧ groups.length = self.transactions.length

theorem allEvents_new (transactions : List Transaction) (keysAndHashes : Dict) :
    allEvents c (newAnalyzer transactions keysAndHashes) =
      (eventsFrom c (newAnalyzer transactions keysAndHashes) 0 transactions).map fun array =>
        (array, { newAnalyzer transactions keysAndHashes with eventsCache := array }) := rfl

/-- Building the events of a new analyzer finishes with one group for each transaction
    exactly when every input spends a listed transaction and what the wallet paid has an
    output. -/
theorem allEvents_finishes_iff (transactions : List Transaction) (keysAndHashes : Dict) :
    AnalysisFinishes c (newAnalyzer transactions keysAndHashes) ↔ Analyzable c (newAnalyzer transactions keysAndHashes) := by
  have hiff := @eventsFrom_isSome c (newAnalyzer transactions keysAndHashes) 0 transactions
  rw [Analyzable]
  refine Iff.trans ?_ hiff
  rw [AnalysisFinishes, allEvents_new]
  constructor
  · rintro ⟨groups, next, h, -⟩
    obtain ⟨array, harray, -⟩ := Option.map_eq_some_iff.1 h
    exact ⟨array, harray⟩
  · rintro ⟨array, harray⟩
    rw [harray]
    exact ⟨array, _, rfl, eventsFrom_length harray⟩

/-- One input, from a transaction of somebody else. -/
def depositTransaction : Transaction where
  version := 1
  inputs := [⟨⟨none, 0⟩, some (List.replicate 32 0), 0, some [], 0, [], 0⟩]
  outputs := [⟨some [1, 7], 5⟩]
  locktime := 0

theorem not_allEvents_finishes :
    ¬ ∀ (c : Crypto) (transactions : List Transaction) (keysAndHashes : Dict) (self : TransactionAnalyzer),
      taNew transactions keysAndHashes = some self → AnalysisFinishes c self := by
  intro h
  have hnew : taNew [depositTransaction] dictNew = some (newAnalyzer [depositTransaction] dictNew) := by rfl
  obtain ⟨groups, next, hevents, -⟩ := h plainCrypto [depositTransaction] dictNew _ hnew
  have hnull : (allEvents plainCrypto (newAnalyzer [depositTransaction] dictNew)).isSome = false := by decide +kernel
  rw [hevents] at hnull
  cases hnull

end BitcoinSpoon
