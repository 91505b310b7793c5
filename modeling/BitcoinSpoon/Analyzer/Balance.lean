/-
  BitcoinSpoon.Analyzer.Balance — deposits, withdrawals and the coins that are left
  (`code/TransactionAnalyzer.c`).

  What a transaction that the wallet did not fund pays to the wallet is a deposit; what one
  that it funded pays to others is a withdrawal. A fee is an event without an amount, so
  deposits less withdrawals are the unspent coins only if what the wallet spent was paid out
  again, all of it and nothing else (`balance_coins_iff`). `TATotalBalance` takes the
  groups of `allEvents` for events; `padding` is what memory has behind the count of a group.
-/

import BitcoinSpoon.Analyzer.Masks

namespace BitcoinSpoon

open Wire Loop

def taTotalAmount (events : List TAEvent) : UInt64 := events.foldl (fun amount event => amount + event.amount) 0

/-- `event->amount`; in a group there is its count. -/
def amountOf (padding : Nat) : Record → UInt64
  | .event event => event.amount
  | .datas events => UInt64.ofNat (events.length % 2 ^ 32 + 2 ^ 32 * padding)

/-- `TATotalAmount` of what `TAEvents` returns. -/
def totalAmountOf (padding : Nat) (events : List Record) : UInt64 :=
  events.foldl (fun amount event => amount + amountOf padding event) 0

variable (c : Crypto) (self : TransactionAnalyzer)

def taTotalBalance (address : Nat → Nat) (padding : Nat) : Option (UInt64 × TransactionAnalyzer) := do
  let (deposits, self) ← taEvents c address self TAEventTypeDeposit
  let (withdrawals, self) ← taEvents c address self TAEventTypeWithdrawl
  some (totalAmountOf padding deposits - totalAmountOf padding withdrawals, self)

/-! ## Coins -/

/-- What the events are worth. -/
def worth (events : List TAEvent) : Nat := (events.map (·.amount.toNat)).sum

def withType (typeMask : Nat) (events : List TAEvent) : List TAEvent := events.filter fun event => event.type &&& typeMask ≠ 0

def valueOf (outputs : List TransactionOutput) : Nat := (outputs.map (·.value.toNat)).sum

/-- Over the listed transactions. -/
def total (f : Transaction → Nat) : Nat := (self.transactions.map f).sum

/-- An input of the transaction is the wallet's. -/
def selfFunded (transaction : Transaction) : Bool :=
  transaction.inputs.any fun input =>
    (transactionForTxid c self input.previousTransactionHash).any fun otherTrans => selfFundedInput self otherTrans input

def outputMatches (output : TransactionOutput) : Bool := scriptDataMatches self output.script

/-- The value of the outputs to the wallet that a listed transaction spends, or that none does. -/
def coinsOf (areSpent : Bool) (transaction : Transaction) : Nat :=
  valueOf ((transaction.outputs.zipIdx.filter fun (output, index) =>
    outputMatches self output && (inputReferencing c self transaction index == areSpent)).map Prod.fst)

def unspentCoins : Nat := total self (coinsOf c self false)

def spentCoins : Nat := total self (coinsOf c self true)

/-- What others paid to the wallet. -/
def deposited : Nat :=
  total self fun transaction => if selfFunded c self transaction then 0 else valueOf (transaction.outputs.filter (outputMatches self))

/-- What the transactions with an input of the wallet pay, to whomever. -/
def paidOut : Nat := total self fun transaction => if selfFunded c self transaction then valueOf transaction.outputs else 0

/-- Deposits less withdrawals are the unspent coins, and no sum or difference wraps. -/
def CoinsBalance : Prop :=
  ∃ groups next, allEvents c self = some (groups, next) ∧
    (taTotalAmount (withType TAEventTypeDeposit groups.flatten)).toNat = worth (withType TAEventTypeDeposit groups.flatten) ∧
    (taTotalAmount (withType TAEventTypeWithdrawl groups.flatten)).toNat = worth (withType TAEventTypeWithdrawl groups.flatten) ∧
    worth (withType TAEventTypeDeposit groups.flatten) =
      worth (withType TAEventTypeWithdrawl groups.flatten) + unspentCoins c self

/-- `TATotalBalance` is deposits less withdrawals. -/
def BalanceComputed (address : Nat → Nat) (padding : Nat) : Prop :=
  ∃ groups next last, allEvents c self = some (groups, next) ∧
    taTotalBalance c self address padding =
      some (taTotalAmount (withType TAEventTypeDeposit groups.flatten) -
        taTotalAmount (withType TAEventTypeWithdrawl groups.flatten), last)

/-- No listed transaction has to do with the wallet. -/
def Untouched : Prop :=
  ∀ transaction ∈ self.transactions, selfFunded c self transaction = false ∧
    ∀ output ∈ transaction.outputs, outputMatches self output = false

variable {c self} {transaction : Transaction} {position : Nat}

/-! ## Sums -/

theorem foldl_add_amount (events : List TAEvent) (n : Nat) :
    events.foldl (fun amount event => amount + event.amount) (UInt64.ofNat n) = UInt64.ofNat (n + worth events) := by
  induction events generalizing n with
  | nil => rfl
  | cons event events ih =>
    have hstep : UInt64.ofNat n + event.amount = UInt64.ofNat (n + event.amount.toNat) := by
      rw [UInt64.ofNat_add, UInt64.ofNat_toNat]
    rw [List.foldl_cons, hstep, ih, worth, worth, List.map_cons, List.sum_cons, Nat.add_assoc]

/-- The sum as the machine has it. -/
theorem taTotalAmount_eq (events : List TAEvent) : taTotalAmount events = UInt64.ofNat (worth events) := by
  have hzero := foldl_add_amount events 0
  rwa [Nat.zero_add] at hzero

theorem taTotalAmount_toNat {events : List TAEvent} :
    (taTotalAmount events).toNat = worth events ↔ worth events < 2 ^ 64 := by
  rw [taTotalAmount_eq, UInt64.toNat_ofNat']
  omega

theorem worth_append (first second : List TAEvent) : worth (first ++ second) = worth first + worth second := by
  rw [worth, List.map_append, List.sum_append]
  rfl

theorem withType_append (typeMask : Nat) (first second : List TAEvent) :
    withType typeMask (first ++ second) = withType typeMask first ++ withType typeMask second := List.filter_append _ _

theorem sum_filter_split {α : Type} (value : α → Nat) (p q : α → Bool) (l : List α) :
    ((l.filter fun x => p x && q x).map value).sum + ((l.filter fun x => p x && !q x).map value).sum =
      ((l.filter p).map value).sum := by
  induction l with
  | nil => rfl
  | cons x l ih =>
    cases hp : p x <;> cases hq : q x <;> simp [hp, hq] <;> omega

theorem total_add (f g : Transaction → Nat) : total self (fun t => f t + g t) = total self f + total self g := by
  unfold total
  induction self.transactions with
  | nil => rfl
  | cons x l ih =>
    simp only [List.map_cons, List.sum_cons, ih]
    omega

/-- A sum over outputs is one over outputs with their indices. -/
theorem valueOf_zipIdx (p : TransactionOutput → Bool) (outputs : List TransactionOutput) :
    valueOf ((outputs.zipIdx.filter fun x => p x.1).map Prod.fst) = valueOf (outputs.filter p) := by
  conv_rhs => rw [← List.zipIdx_map_fst 0 outputs, List.filter_map]
  rfl

theorem coinsOf_add (transaction : Transaction) :
    coinsOf c self true transaction + coinsOf c self false transaction =
      valueOf (transaction.outputs.filter (outputMatches self)) := by
  have hsplit := sum_filter_split (fun x : TransactionOutput × Nat => x.1.value.toNat) (fun x => outputMatches self x.1)
    (fun x => inputReferencing c self transaction x.2) transaction.outputs.zipIdx
  rw [← valueOf_zipIdx]
  simp only [coinsOf, valueOf, List.map_map, Function.comp_def, beq_true, beq_false]
  exact hsplit

/-! ## One group -/

theorem selfFunded_iff : selfFunded c self transaction = true ↔ SelfFunded c self transaction := by
  simp [selfFunded, SelfFunded, Option.any_eq_true]

theorem worth_mapIdx {f : Nat → TransactionOutput → TAEvent} {p : TAEvent → Bool} {q : TransactionOutput → Bool}
    (hamount : ∀ i output, (f i output).amount = output.value) (hp : ∀ i output, p (f i output) = q output)
    (outputs : List TransactionOutput) : worth ((outputs.mapIdx f).filter p) = valueOf (outputs.filter q) := by
  induction outputs generalizing f with
  | nil => rfl
  | cons output outputs ih =>
    have hrest := ih (f := fun i => f (i + 1)) (fun i output => hamount (i + 1) output) fun i output => hp (i + 1) output
    rw [List.mapIdx_cons, List.filter_cons, List.filter_cons, hp]
    cases q output
    · exact hrest
    · show (f 0 output).amount.toNat + worth _ = output.value.toNat + valueOf _
      rw [hrest, hamount]

/-- A type mask that the events of matching or other outputs have. -/
theorem worth_outputEvents {selfFundedInputs typeMask : Nat} {q : TransactionOutput → Bool}
    (htype : ∀ index output,
      decide ((outputEvent c self position transaction selfFundedInputs index output).type &&& typeMask ≠ 0) = q output) :
    worth (withType typeMask (outputEvents c self position transaction selfFundedInputs)) =
      valueOf (transaction.outputs.filter q) := by
  have hboth : ∀ event : TAEvent, (decide (event.type &&& typeMask ≠ 0) && decide (event.type ≠ 0)) =
      decide (event.type &&& typeMask ≠ 0) := by
    intro event
    by_cases hzero : event.type = 0 <;> simp [hzero]
  rw [withType, outputEvents, List.filter_filter]
  simp only [hboth]
  exact worth_mapIdx (fun _ _ => rfl) htype _

/-- A deposit is an output to the wallet of what it did not fund. -/
theorem outputEvent_deposit {selfFundedInputs index : Nat} {output : TransactionOutput} :
    decide ((outputEvent c self position transaction selfFundedInputs index output).type &&& TAEventTypeDeposit ≠ 0) =
      (outputMatches self output && decide (selfFundedInputs = 0)) := by
  unfold outputEvent outputType outputMatches
  cases scriptDataMatches self output.script <;> cases inputReferencing c self transaction index <;>
    by_cases hfunded : selfFundedInputs = 0 <;> simp [hfunded] <;> decide

/-- A withdrawal is an output to others of what it funded. -/
theorem outputEvent_withdrawl {selfFundedInputs index : Nat} {output : TransactionOutput} :
    decide ((outputEvent c self position transaction selfFundedInputs index output).type &&& TAEventTypeWithdrawl ≠ 0) =
      (!outputMatches self output && decide (selfFundedInputs ≠ 0)) := by
  unfold outputEvent outputType outputMatches
  cases scriptDataMatches self output.script <;> cases inputReferencing c self transaction index <;>
    by_cases hfunded : selfFundedInputs = 0 <;> simp [hfunded] <;> decide

theorem selfFunded_count {selfFundedInputs : Nat} (hcount : countSelfFunded c self transaction.inputs = some selfFundedInputs) :
    selfFunded c self transaction = true ↔ selfFundedInputs ≠ 0 := selfFunded_iff.trans (countSelfFunded_ne_zero hcount).symm

/-- What the outputs of a transaction deposit and withdraw. -/
theorem worth_outputs {selfFundedInputs : Nat} (hcount : countSelfFunded c self transaction.inputs = some selfFundedInputs) :
    worth (withType TAEventTypeDeposit (outputEvents c self position transaction selfFundedInputs)) =
        (if selfFunded c self transaction then 0 else valueOf (transaction.outputs.filter (outputMatches self))) ∧
      worth (withType TAEventTypeWithdrawl (outputEvents c self position transaction selfFundedInputs)) =
        (if selfFunded c self transaction then valueOf (transaction.outputs.filter fun output => !outputMatches self output) else 0) := by
  have hself := selfFunded_count hcount
  rw [worth_outputEvents (fun _ _ => outputEvent_deposit), worth_outputEvents (fun _ _ => outputEvent_withdrawl)]
  by_cases hfunded : selfFundedInputs = 0
  · have hnot : ¬ selfFunded c self transaction = true := fun h => hself.1 h hfunded
    rw [if_neg hnot, if_neg hnot]
    subst hfunded
    simp [valueOf]
  · rw [if_pos (hself.2 hfunded), if_pos (hself.2 hfunded)]
    simp [hfunded, valueOf]

/-- A fee or a transfer is neither a deposit nor a withdrawal. -/
theorem group_worth {newEvents : List TAEvent} (h : transactionEvents c self position transaction = some newEvents) :
    worth (withType TAEventTypeDeposit newEvents) =
        (if selfFunded c self transaction then 0 else valueOf (transaction.outputs.filter (outputMatches self))) ∧
      worth (withType TAEventTypeWithdrawl newEvents) =
        (if selfFunded c self transaction then valueOf (transaction.outputs.filter fun output => !outputMatches self output) else 0) := by
  obtain ⟨selfFundedInputs, hcount, -⟩ := Option.bind_eq_some_iff.1 h
  obtain ⟨hnone, hpart, hwhole⟩ := transactionEvents_eq position hcount
  have houtputs := @worth_outputs c self transaction position selfFundedInputs hcount
  have hself := selfFunded_count hcount
  by_cases hfunded : selfFundedInputs = 0
  · rw [hnone hfunded] at h
    cases h
    rwa [hfunded] at houtputs
  by_cases hall : AllMatch self transaction
  · rw [hwhole hfunded hall] at h
    obtain ⟨event, hfirst, rfl⟩ := Option.map_eq_some_iff.1 h
    rw [outputEvents_funded hfunded] at hfirst
    obtain ⟨index, hindex, hevent⟩ := List.mem_mapIdx.1 (List.mem_of_mem_head? hfirst)
    have hmatch : outputMatches self transaction.outputs[index] = true := hall _ (List.getElem_mem hindex)
    have hdeposit : event.type &&& TAEventTypeDeposit = 0 := by
      have htype := @outputEvent_deposit c self transaction position selfFundedInputs index transaction.outputs[index]
      rw [hevent] at htype
      simpa [hfunded] using htype
    have hwithdrawl : event.type &&& TAEventTypeWithdrawl = 0 := by
      have htype := @outputEvent_withdrawl c self transaction position selfFundedInputs index transaction.outputs[index]
      rw [hevent, hmatch] at htype
      simpa using htype
    have htransfer : TAEventTypeTransfer &&& TAEventTypeDeposit = 0 ∧ TAEventTypeTransfer &&& TAEventTypeWithdrawl = 0 := by
      decide
    have hothers : (transaction.outputs.filter fun output => !outputMatches self output) = [] := by
      rw [List.filter_eq_nil_iff]
      intro output hmem hnot
      rw [outputMatches, hall output hmem] at hnot
      cases hnot
    rw [if_pos (hself.2 hfunded), if_pos (hself.2 hfunded), hothers]
    simp [withType, Nat.and_or_distrib_right, hdeposit, hwithdrawl, htransfer, worth, valueOf]
  · rw [hpart hfunded hall] at h
    cases h
    have hfee : ∀ typeMask, TAEventTypeFee &&& typeMask = 0 → withType typeMask [feeEvent position] = [] := by
      intro typeMask hnone
      simp [withType, feeEvent, hnone]
    rwa [withType_append, withType_append, hfee _ (by decide), hfee _ (by decide), List.append_nil, List.append_nil]

/-! ## All groups -/

theorem worth_flatten {typeMask start : Nat} {f : Transaction → Nat}
    (hgroup : ∀ position transaction newEvents, transactionEvents c self position transaction = some newEvents →
      worth (withType typeMask newEvents) = f transaction) {transactions : List Transaction} {array : List (List TAEvent)}
    (h : eventsFrom c self start transactions = some array) :
    worth (withType typeMask array.flatten) = (transactions.map f).sum := by
  induction transactions generalizing start array with
  | nil =>
    cases h
    rfl
  | cons transaction rest ih =>
    obtain ⟨newEvents, hnew, h⟩ := Option.bind_eq_some_iff.1 h
    obtain ⟨array, hrest, h⟩ := Option.bind_eq_some_iff.1 h
    cases h
    rw [List.flatten_cons, withType_append, worth_append, hgroup _ _ _ hnew, ih hrest, List.map_cons, List.sum_cons]

/-- Withdrawals and coins that were spent: what is left of what was paid out is what the
    wallet paid itself. -/
theorem sums_balance {array : List (List TAEvent)} (h : eventsFrom c self 0 self.transactions = some array) :
    worth (withType TAEventTypeDeposit array.flatten) = deposited c self ∧
      deposited c self + paidOut c self =
        worth (withType TAEventTypeWithdrawl array.flatten) + (unspentCoins c self + spentCoins c self) := by
  have hdeposits := worth_flatten (fun _ _ _ hnew => (group_worth hnew).1) h
  have hwithdrawals := worth_flatten (fun _ _ _ hnew => (group_worth hnew).2) h
  refine ⟨hdeposits, ?_⟩
  rw [hwithdrawals]
  have hmatched : unspentCoins c self + spentCoins c self =
      total self fun transaction => valueOf (transaction.outputs.filter (outputMatches self)) := by
    rw [unspentCoins, spentCoins, ← total_add]
    refine congrArg (total self) (funext fun transaction => ?_)
    rw [Nat.add_comm]
    exact coinsOf_add transaction
  rw [hmatched, deposited, paidOut]
  show _ = total self _ + total self _
  rw [← total_add, ← total_add]
  refine congrArg (total self) (funext fun transaction => ?_)
  have hsplit := sum_filter_split (fun output : TransactionOutput => output.value.toNat) (fun _ => true) (outputMatches self)
    transaction.outputs
  simp only [Bool.true_and, List.filter_true] at hsplit
  split
  · rw [Nat.zero_add, Nat.add_comm]
    exact hsplit.symm
  · rw [Nat.add_zero, Nat.zero_add]

theorem coinsBalance_iff (transactions : List Transaction) (keysAndHashes : Dict) :
    CoinsBalance c (newAnalyzer transactions keysAndHashes) ↔
      Analyzable c (newAnalyzer transactions keysAndHashes) ∧ deposited c (newAnalyzer transactions keysAndHashes) < 2 ^ 64 ∧
        paidOut c (newAnalyzer transactions keysAndHashes) = spentCoins c (newAnalyzer transactions keysAndHashes) := by
  have hfinish : (∃ array, eventsFrom c (newAnalyzer transactions keysAndHashes) 0 transactions = some array) ↔
      Analyzable c (newAnalyzer transactions keysAndHashes) := eventsFrom_isSome
  rw [CoinsBalance, allEvents_new, ← hfinish]
  constructor
  · rintro ⟨groups, next, hgroups, hdeposit, -, hbalance⟩
    obtain ⟨array, harray, heq⟩ := Option.map_eq_some_iff.1 hgroups
    cases heq
    obtain ⟨hdeposits, hsums⟩ := sums_balance harray
    rw [taTotalAmount_toNat] at hdeposit
    exact ⟨⟨_, harray⟩, by omega, by omega⟩
  · rintro ⟨⟨array, harray⟩, hlt, hspent⟩
    obtain ⟨hdeposits, hsums⟩ := sums_balance harray
    refine ⟨array, _, by rw [harray]; rfl, ?_, ?_, by omega⟩
    · rw [taTotalAmount_toNat]
      omega
    · rw [taTotalAmount_toNat]
      omega

/-! ## What `TATotalBalance` adds up -/

theorem taTotalBalance_eq {address : Nat → Nat} {padding : Nat} (hcache : CacheOk c self) {groups : List (List TAEvent)}
    (hgroups : eventsFrom c self 0 self.transactions = some groups) :
    ∃ last, taTotalBalance c self address padding =
      some (totalAmountOf padding (picked address groups TAEventTypeDeposit) -
        totalAmountOf padding (picked address groups TAEventTypeWithdrawl), last) := by
  have hagain : eventsFrom c { self with eventsCache := groups } 0 self.transactions = some groups := by
    rw [eventsFrom_cache, hgroups]
  rw [taTotalBalance, taEvents_cacheOk hcache, hgroups, Option.map_some, Option.bind_eq_bind, Option.bind_some]
  dsimp only
  rw [taEvents_cacheOk (cacheOk_fill hgroups)]
  show ∃ last, (((eventsFrom c { self with eventsCache := groups } 0 self.transactions).map _).bind _) = some (_, last)
  rw [hagain]
  exact ⟨_, rfl⟩

/-- One group lies where the low bits look like a deposit, the others where they look like
    nothing. -/
theorem picked_one {groups : List (List TAEvent)} {i : Nat} {newEvents : List TAEvent} (hget : groups[i]? = some newEvents)
    (hne : newEvents ≠ []) :
    picked (fun k => if k = i then 1 else 0) groups TAEventTypeDeposit = [.datas newEvents] ∧
      picked (fun k => if k = i then 1 else 0) groups TAEventTypeWithdrawl = [] := by
  refine ⟨?_, picked_eq_nil.2 fun k _ _ _ => ?_⟩
  · have hindexed : (records groups).zipIdx = groups.mapIdx fun k events => (Record.datas events, k) := by
      rw [List.mapIdx_eq_zipIdx_map, records, List.zipIdx_map]
      rfl
    have hsame : ∀ x ∈ groups.mapIdx (fun k events => (Record.datas events, k)),
        decide (typeOf (if x.2 = i then 1 else 0) x.1 &&& TAEventTypeDeposit ≠ 0) =
          (decide (typeOf 1 x.1 &&& TAEventTypeDeposit ≠ 0) && decide (x.2 = i)) := by
      intro x hx
      obtain ⟨k, hk, rfl⟩ := List.mem_mapIdx.1 hx
      by_cases hki : k = i
      · simp [hki]
      · cases groups[k] <;> simp [hki, typeOf]
    have hone := @filter_mapIdx _ _ (fun k (events : List TAEvent) => (Record.datas events, k)) (·.2) (fun _ _ => rfl)
      (fun x => decide (typeOf 1 x.1 &&& TAEventTypeDeposit ≠ 0)) groups i
    obtain ⟨first, rest, rfl⟩ := List.exists_cons_of_ne_nil hne
    have htype : typeOf 1 (.datas (first :: rest)) &&& TAEventTypeDeposit ≠ 0 := by
      show 1 % 2 ^ 32 &&& TAEventTypeDeposit ≠ 0
      decide
    rw [picked, hindexed, List.filter_congr hsame, hone, hget]
    simp [htype]
  · split <;> rfl

/-- A group is empty where the transaction has nothing to do with the wallet. -/
theorem group_eq_nil {newEvents : List TAEvent} (h : transactionEvents c self position transaction = some newEvents) :
    newEvents = [] ↔ selfFunded c self transaction = false ∧ ∀ output ∈ transaction.outputs, outputMatches self output = false := by
  obtain ⟨selfFundedInputs, hcount, -⟩ := Option.bind_eq_some_iff.1 h
  obtain ⟨hnone, hpart, hwhole⟩ := transactionEvents_eq position hcount
  have hself := selfFunded_count hcount
  by_cases hfunded : selfFundedInputs = 0
  · have hfalse : selfFunded c self transaction = false := Bool.eq_false_iff.2 fun htrue => hself.1 htrue hfunded
    rw [hnone hfunded] at h
    cases h
    rw [outputEvents, List.filter_eq_nil_iff]
    constructor
    · intro hnil
      refine ⟨hfalse, fun output hmem => ?_⟩
      obtain ⟨index, hindex, rfl⟩ := List.getElem_of_mem hmem
      have hzero := hnil _ (List.mem_mapIdx.2 ⟨index, hindex, rfl⟩)
      have htype := @outputEvent_deposit c self transaction position 0 index transaction.outputs[index]
      simp only [ne_eq, decide_not, Bool.not_eq_true, Bool.not_eq_false', decide_eq_true_eq] at hzero
      rw [hzero] at htype
      simpa using htype.symm
    · rintro ⟨-, houtputs⟩ event hevent
      obtain ⟨index, hindex, rfl⟩ := List.mem_mapIdx.1 hevent
      have hnot : scriptDataMatches self transaction.outputs[index].script = false := houtputs _ (List.getElem_mem hindex)
      unfold outputEvent outputType
      simp [hnot, clearUnspent]
  · refine iff_of_false ?_ fun hnot => ?_
    · by_cases hall : AllMatch self transaction
      · rw [hwhole hfunded hall] at h
        obtain ⟨event, -, rfl⟩ := Option.map_eq_some_iff.1 h
        exact List.cons_ne_nil _ _
      · rw [hpart hfunded hall] at h
        cases h
        exact List.append_ne_nil_of_right_ne_nil _ (List.cons_ne_nil _ _)
    · rw [hself.2 hfunded] at hnot
      cases hnot.1

theorem untouched_iff {array : List (List TAEvent)} (h : eventsFrom c self 0 self.transactions = some array) :
    Untouched c self ↔ ∀ (i : Nat) (newEvents : List TAEvent), array[i]? = some newEvents → newEvents = [] := by
  constructor
  · intro huntouched i newEvents hget
    have hlt : i < self.transactions.length := by
      rw [← eventsFrom_length h]
      exact (List.getElem?_eq_some_iff.1 hget).1
    obtain ⟨events, hevents, hnew⟩ := eventsFrom_get h (List.getElem?_eq_getElem hlt)
    rw [hget] at hevents
    cases hevents
    exact (group_eq_nil hnew).2 (huntouched _ (List.getElem_mem hlt))
  · intro hempty transaction hmem
    obtain ⟨i, hi⟩ := List.getElem?_of_mem hmem
    obtain ⟨events, hevents, hnew⟩ := eventsFrom_get h hi
    exact (group_eq_nil hnew).1 (hempty i events hevents)

/-- `TATotalBalance` gives deposits less withdrawals, wherever memory lies, exactly when the
    analysis finishes and there are no events. -/
theorem balanceComputed_iff (transactions : List Transaction) (keysAndHashes : Dict) :
    (∀ address padding, BalanceComputed c (newAnalyzer transactions keysAndHashes) address padding) ↔
      Analyzable c (newAnalyzer transactions keysAndHashes) ∧ Untouched c (newAnalyzer transactions keysAndHashes) := by
  have hfinish : (∃ array, eventsFrom c (newAnalyzer transactions keysAndHashes) 0 transactions = some array) ↔
      Analyzable c (newAnalyzer transactions keysAndHashes) := eventsFrom_isSome
  have hnew : CacheOk c (newAnalyzer transactions keysAndHashes) := Or.inl rfl
  constructor
  · intro h
    have harray : ∃ array, eventsFrom c (newAnalyzer transactions keysAndHashes) 0 transactions = some array := by
      obtain ⟨groups, next, last, hgroups, -⟩ := h (fun _ => 0) 0
      rw [allEvents_new] at hgroups
      obtain ⟨array, harray, -⟩ := Option.map_eq_some_iff.1 hgroups
      exact ⟨array, harray⟩
    refine ⟨hfinish.1 harray, ?_⟩
    obtain ⟨array, harray⟩ := harray
    rw [untouched_iff harray]
    intro i newEvents hget
    by_contra hne
    -- the group's count is taken for an amount, whatever stands behind it
    have hvalue : ∀ padding, UInt64.ofNat (newEvents.length % 2 ^ 32 + 2 ^ 32 * padding) =
        taTotalAmount (withType TAEventTypeDeposit array.flatten) - taTotalAmount (withType TAEventTypeWithdrawl array.flatten) := by
      intro padding
      obtain ⟨groups, next, last, hgroups, htotal⟩ := h (fun k => if k = i then 1 else 0) padding
      obtain ⟨last', hsum⟩ := @taTotalBalance_eq c _ (fun k => if k = i then 1 else 0) padding hnew array harray
      rw [allEvents_new, harray, Option.map_some, Option.some.injEq, Prod.mk.injEq] at hgroups
      rw [hsum, (picked_one hget hne).1, (picked_one hget hne).2, ← hgroups.1, Option.some.injEq, Prod.mk.injEq] at htotal
      refine Eq.trans ?_ htotal.1
      show _ = 0 + UInt64.ofNat (newEvents.length % 2 ^ 32 + 2 ^ 32 * padding) - 0
      rw [UInt64.zero_add, UInt64.sub_zero]
    have hsame := congrArg UInt64.toNat ((hvalue 0).trans (hvalue 1).symm)
    rw [UInt64.toNat_ofNat', UInt64.toNat_ofNat'] at hsame
    omega
  · rintro ⟨hanalyzable, huntouched⟩ address padding
    obtain ⟨array, harray⟩ := hfinish.2 hanalyzable
    have hempty := (untouched_iff harray).1 huntouched
    have hnone : ∀ typeMask, picked address array typeMask = [] := fun typeMask =>
      picked_eq_nil.2 fun i newEvents hget hne => absurd (hempty i newEvents hget) hne
    have hflat : array.flatten = [] := by
      rw [List.flatten_eq_nil_iff]
      intro newEvents hmem
      obtain ⟨i, hi⟩ := List.getElem?_of_mem hmem
      exact hempty i newEvents hi
    obtain ⟨last, hsum⟩ := @taTotalBalance_eq c _ address padding hnew array harray
    refine ⟨array, _, last, by rw [allEvents_new, harray]; rfl, ?_⟩
    rw [hsum, hnone, hnone, hflat]
    rfl

/-- Deposits less withdrawals are the unspent coins exactly when the analysis finishes, what
    was deposited fits, and what the wallet spent was paid out again and nothing with it. And
    `TATotalBalance` computes the difference exactly when there are no events at all. -/
theorem balance_coins_iff (transactions : List Transaction) (keysAndHashes : Dict) :
    (CoinsBalance c (newAnalyzer transactions keysAndHashes) ↔
        Analyzable c (newAnalyzer transactions keysAndHashes) ∧ deposited c (newAnalyzer transactions keysAndHashes) < 2 ^ 64 ∧
          paidOut c (newAnalyzer transactions keysAndHashes) = spentCoins c (newAnalyzer transactions keysAndHashes)) ∧
      ((∀ address padding, BalanceComputed c (newAnalyzer transactions keysAndHashes) address padding) ↔
        Analyzable c (newAnalyzer transactions keysAndHashes) ∧ Untouched c (newAnalyzer transactions keysAndHashes)) :=
  ⟨coinsBalance_iff transactions keysAndHashes, balanceComputed_iff transactions keysAndHashes⟩

/-- Spends the coin of 5: 3 to somebody, 1 back, and a fee of 1. -/
def paymentTransaction : Transaction where
  version := 1
  inputs := [⟨⟨none, 0⟩, transactionTxid plainCrypto coinTransaction, 0, some [], 0, [], 0⟩]
  outputs := [⟨some [1, 8], 3⟩, ⟨some [1, 7], 1⟩]
  locktime := 0

/-- The fee is still in the balance. -/
theorem not_balance_coins :
    ¬ ∀ (c : Crypto) (transactions : List Transaction) (keysAndHashes : Dict) (self : TransactionAnalyzer),
      taNew transactions keysAndHashes = some self → (self.transactions.map (transactionTxid c)).Nodup → Analyzable c self →
      CoinsBalance c self := by
  intro h
  have hnew : taNew [coinOrigin, paymentTransaction] walletKeys =
      some (newAnalyzer [coinTransaction, paymentTransaction] walletKeys) := by rfl
  have hdistinct : ([coinTransaction, paymentTransaction].map (transactionTxid plainCrypto)).Nodup := by decide +kernel
  have hanalyzable : Analyzable plainCrypto (newAnalyzer [coinTransaction, paymentTransaction] walletKeys) :=
    eventsFrom_isSome.1 (Option.isSome_iff_exists.1
      (show (eventsFrom plainCrypto (newAnalyzer [coinTransaction, paymentTransaction] walletKeys) 0
        [coinTransaction, paymentTransaction]).isSome = true by decide +kernel))
  have hpaid : paidOut plainCrypto (newAnalyzer [coinTransaction, paymentTransaction] walletKeys) = 4 := by decide +kernel
  have hspent : spentCoins plainCrypto (newAnalyzer [coinTransaction, paymentTransaction] walletKeys) = 5 := by decide +kernel
  obtain ⟨-, -, hequal⟩ :=
    (coinsBalance_iff [coinTransaction, paymentTransaction] walletKeys).1 (h plainCrypto _ walletKeys _ hnew hdistinct hanalyzable)
  rw [hpaid, hspent] at hequal
  cases hequal

end BitcoinSpoon
