/-
  BitcoinSpoon.Analyzer.Unspent — the unspent outputs among the events
  (`code/TransactionAnalyzer.c`).

  An output that pays the wallet has an event with `TAEventTypeUnspent` unless a listed
  transaction spends it. A transaction that only moves the wallet's coins has one event
  instead of all, a copy of the first: its outputs after the first are lost
  (`not_unspent_exact`). `unspent_exact_iff` says exactly when none is.
-/

import BitcoinSpoon.Analyzer.Events

namespace BitcoinSpoon

open Wire Loop

variable {c : Crypto} {self : TransactionAnalyzer} {transaction : Transaction} {position index : Nat}

def isUnspent (event : TAEvent) : Bool := event.type &&& TAEventTypeUnspent ≠ 0

/-- The events that say the output is unspent. -/
def unspentEvents (events : List TAEvent) (position index : Nat) : List TAEvent :=
  events.filter fun event => event.transaction = position && (isUnspent event && event.outputIndex = index)

/-- The output, if it pays the keys and no listed transaction spends it. -/
def unspentOutput (c : Crypto) (self : TransactionAnalyzer) (position index : Nat) : Option TransactionOutput :=
  self.transactions[position]?.bind fun transaction => transaction.outputs[index]?.filter fun output =>
    scriptDataMatches self output.script && !inputReferencing c self transaction index

/-- One event for each unspent output, with its amount, and none for any other output. -/
def UnspentExact (c : Crypto) (self : TransactionAnalyzer) : Prop :=
  ∃ groups next, allEvents c self = some (groups, next) ∧ ∀ position index,
    (unspentEvents groups.flatten position index).map (·.amount) = (unspentOutput c self position index).toList.map (·.value)

/-- What the wallet paid to itself alone has its outputs after the first spent. -/
def TransfersSpent (c : Crypto) (self : TransactionAnalyzer) : Prop :=
  ∀ transaction ∈ self.transactions, SelfFunded c self transaction → AllMatch self transaction →
    ∀ index, 0 < index → index < transaction.outputs.length → inputReferencing c self transaction index = true

/-! ## One output -/

theorem outputEvent_isUnspent {selfFundedInputs : Nat} {output : TransactionOutput} :
    isUnspent (outputEvent c self position transaction selfFundedInputs index output) =
      (scriptDataMatches self output.script && !inputReferencing c self transaction index) := by
  unfold isUnspent outputEvent outputType
  cases scriptDataMatches self output.script <;> cases inputReferencing c self transaction index <;>
    by_cases hfunded : selfFundedInputs = 0 <;> simp [hfunded] <;> decide

/-- The elements of a list that carry their index. -/
theorem filter_mapIdx {α β : Type} {f : Nat → α → β} {key : β → Nat} (hkey : ∀ k a, key (f k a) = k) (p : β → Bool)
    (l : List α) (index : Nat) :
    (l.mapIdx f).filter (fun b => p b && key b = index) = ((l[index]?).map (f index)).toList.filter p := by
  induction l using List.reverseRecOn with
  | nil => rfl
  | append_singleton l a ih =>
    rw [List.mapIdx_append, List.filter_append, ih, List.getElem?_append]
    by_cases hlt : index < l.length
    · have hne : ¬ l.length = index := by omega
      simp [hlt, hkey, hne]
    · rw [List.getElem?_eq_none (by omega), if_neg hlt]
      by_cases heq : l.length = index
      · subst heq
        simp [hkey, List.filter_cons]
      · have hone : ([a] : List α)[index - l.length]? = none := List.getElem?_eq_none (by simp; omega)
        simp [hkey, heq, hone]

/-- Among the events of the outputs, those that say one is unspent. -/
theorem outputEvents_unspent (selfFundedInputs : Nat) :
    ((outputEvents c self position transaction selfFundedInputs).filter fun event =>
        isUnspent event && event.outputIndex = index).map (·.amount) =
      ((transaction.outputs[index]?).filter fun output =>
        scriptDataMatches self output.script && !inputReferencing c self transaction index).toList.map (·.value) := by
  have htype : ∀ event : TAEvent, isUnspent event = true → event.type ≠ 0 := by
    intro event h hzero
    rw [isUnspent, hzero] at h
    simp at h
  have hboth : ∀ event : TAEvent, ((isUnspent event && event.outputIndex = index) && decide (event.type ≠ 0)) =
      (isUnspent event && event.outputIndex = index) := by
    intro event
    cases h : isUnspent event with
    | false => simp
    | true => simp [htype event h]
  have hindex := @filter_mapIdx _ _ (outputEvent c self position transaction selfFundedInputs) (·.outputIndex) (fun _ _ => rfl)
    isUnspent transaction.outputs index
  rw [outputEvents, List.filter_filter]
  simp only [hboth]
  rw [hindex]
  cases transaction.outputs[index]? with
  | none => rfl
  | some output =>
    rw [Option.map_some, Option.toList_some, List.filter_singleton, outputEvent_isUnspent, Option.filter_some]
    cases scriptDataMatches self output.script && !inputReferencing c self transaction index <;> rfl

/-! ## One group -/

/-- The unspent outputs of one transaction. -/
def unspentAt (c : Crypto) (self : TransactionAnalyzer) (transaction : Transaction) (index : Nat) : List UInt64 :=
  (transaction.outputs[index]?.filter fun output =>
    scriptDataMatches self output.script && !inputReferencing c self transaction index).toList.map (·.value)

/-- The group says exactly which outputs are unspent. -/
def GroupExact (c : Crypto) (self : TransactionAnalyzer) (transaction : Transaction) (newEvents : List TAEvent) : Prop :=
  ∀ index, (newEvents.filter fun event => isUnspent event && event.outputIndex = index).map (·.amount) =
    unspentAt c self transaction index

theorem groupExact_outputs (selfFundedInputs : Nat) :
    GroupExact c self transaction (outputEvents c self position transaction selfFundedInputs) :=
  fun _ => outputEvents_unspent selfFundedInputs

theorem groupExact_fee {newEvents : List TAEvent} :
    GroupExact c self transaction (newEvents ++ [feeEvent position]) ↔ GroupExact c self transaction newEvents := by
  have hfee : isUnspent (feeEvent position) = false := by
    show decide (TAEventTypeFee &&& TAEventTypeUnspent ≠ 0) = false
    decide
  simp [GroupExact, hfee]

/-- The copy of the first event says what the first event said. -/
theorem isUnspent_transfer (event : TAEvent) :
    isUnspent { event with type := event.type ||| TAEventTypeTransfer } = isUnspent event := by
  have htransfer : TAEventTypeTransfer &&& TAEventTypeUnspent = 0 := by decide
  simp [isUnspent, Nat.and_or_distrib_right, htransfer]

/-- Of a transfer only the first output can be reported. -/
theorem groupExact_transfer {selfFundedInputs : Nat} (hall : AllMatch self transaction) (hfunded : selfFundedInputs ≠ 0)
    {event : TAEvent} (hfirst : (outputEvents c self position transaction selfFundedInputs).head? = some event) :
    GroupExact c self transaction [{ event with type := event.type ||| TAEventTypeTransfer }] ↔
      ∀ index, 0 < index → index < transaction.outputs.length → inputReferencing c self transaction index = true := by
  rw [outputEvents_funded hfunded] at hfirst
  cases houtputs : transaction.outputs with
  | nil =>
    rw [houtputs] at hfirst
    cases hfirst
  | cons output rest =>
    rw [houtputs, List.mapIdx_cons, List.head?_cons, Option.some.injEq] at hfirst
    subst hfirst
    have hmatch : ∀ {index : Nat} {output : TransactionOutput}, transaction.outputs[index]? = some output →
        scriptDataMatches self output.script = true := fun h => hall _ (List.mem_of_getElem? h)
    have hrest : ∀ index, 0 < index →
        (unspentAt c self transaction index = [] ↔
          (index < transaction.outputs.length → inputReferencing c self transaction index = true)) := by
      intro index hpos
      rw [unspentAt]
      cases hget : transaction.outputs[index]? with
      | none =>
        have hlength := List.getElem?_eq_none_iff.1 hget
        exact iff_of_true rfl fun hlt => absurd hlt (by omega)
      | some other =>
        have hlt := (List.getElem?_eq_some_iff.1 hget).1
        rw [Option.filter_some, hmatch hget, Bool.true_and]
        cases inputReferencing c self transaction index <;> simp [hlt]
    rw [GroupExact, ← houtputs]
    constructor
    · intro h index hpos
      refine (hrest index hpos).1 ((h index).symm.trans ?_)
      have hne : ¬ 0 = index := by omega
      simp [outputEvent, hne]
    · intro h index
      rcases Nat.eq_zero_or_pos index with rfl | hpos
      · rw [List.filter_singleton, isUnspent_transfer, outputEvent_isUnspent, unspentAt, houtputs, List.getElem?_cons_zero,
          Option.filter_some]
        cases scriptDataMatches self output.script && !inputReferencing c self transaction 0 <;> rfl
      · rw [(hrest index hpos).2 (h index hpos)]
        have hne : ¬ 0 = index := by omega
        simp [outputEvent, hne]

/-- What is exact for the group of one transaction. -/
theorem transactionEvents_exact {newEvents : List TAEvent} (h : transactionEvents c self position transaction = some newEvents) :
    GroupExact c self transaction newEvents ↔ (SelfFunded c self transaction → AllMatch self transaction →
      ∀ index, 0 < index → index < transaction.outputs.length → inputReferencing c self transaction index = true) := by
  obtain ⟨selfFundedInputs, hcount, -⟩ := Option.bind_eq_some_iff.1 h
  obtain ⟨hnone, hpart, hwhole⟩ := transactionEvents_eq position hcount
  have hself : SelfFunded c self transaction ↔ selfFundedInputs ≠ 0 := (countSelfFunded_ne_zero hcount).symm
  rw [hself]
  by_cases hfunded : selfFundedInputs = 0
  · rw [hnone hfunded] at h
    cases h
    exact iff_of_true (groupExact_outputs 0) fun hne => absurd hfunded hne
  by_cases hall : AllMatch self transaction
  · rw [hwhole hfunded hall] at h
    obtain ⟨event, hfirst, rfl⟩ := Option.map_eq_some_iff.1 h
    rw [groupExact_transfer hall hfunded hfirst]
    exact ⟨fun h _ _ => h, fun h => h hfunded hall⟩
  · rw [hpart hfunded hall] at h
    cases h
    exact iff_of_true (groupExact_fee.2 (groupExact_outputs _)) fun _ h => absurd h hall

/-! ## All groups -/

/-- A group is about its transaction. -/
theorem transactionEvents_transaction {newEvents : List TAEvent}
    (h : transactionEvents c self position transaction = some newEvents) : ∀ event ∈ newEvents, event.transaction = position := by
  have houtputs : ∀ selfFundedInputs, ∀ event ∈ outputEvents c self position transaction selfFundedInputs,
      event.transaction = position := by
    intro selfFundedInputs event hevent
    obtain ⟨index, hindex, rfl⟩ := List.mem_mapIdx.1 (List.mem_filter.1 hevent).1
    rfl
  obtain ⟨selfFundedInputs, hcount, -⟩ := Option.bind_eq_some_iff.1 h
  obtain ⟨hnone, hpart, hwhole⟩ := transactionEvents_eq position hcount
  by_cases hfunded : selfFundedInputs = 0
  · rw [hnone hfunded] at h
    cases h
    exact houtputs 0
  by_cases hall : AllMatch self transaction
  · rw [hwhole hfunded hall] at h
    obtain ⟨first, hfirst, rfl⟩ := Option.map_eq_some_iff.1 h
    intro event hevent
    rw [List.mem_singleton.1 hevent]
    exact houtputs _ first (List.mem_of_mem_head? hfirst)
  · rw [hpart hfunded hall] at h
    cases h
    intro event hevent
    rcases List.mem_append.1 hevent with hevent | hevent
    · exact houtputs _ event hevent
    · rw [List.mem_singleton.1 hevent]
      rfl

theorem eventsFrom_get {start k : Nat} {transactions : List Transaction} {array : List (List TAEvent)}
    (h : eventsFrom c self start transactions = some array) (hget : transactions[k]? = some transaction) :
    ∃ newEvents, array[k]? = some newEvents ∧ transactionEvents c self (start + k) transaction = some newEvents := by
  induction transactions generalizing start k array with
  | nil => cases hget
  | cons first rest ih =>
    obtain ⟨newEvents, hnew, h⟩ := Option.bind_eq_some_iff.1 h
    obtain ⟨array, hrest, h⟩ := Option.bind_eq_some_iff.1 h
    cases h
    cases k with
    | zero =>
      cases hget
      exact ⟨newEvents, rfl, hnew⟩
    | succ k =>
      obtain ⟨other, hother, hevents⟩ := ih hrest hget
      exact ⟨other, hother, by rw [← hevents]; congr 1; omega⟩

/-- The events of a position are in its group. -/
theorem unspentEvents_flatten {start : Nat} {transactions : List Transaction} {array : List (List TAEvent)}
    (h : eventsFrom c self start transactions = some array) (position index : Nat) :
    unspentEvents array.flatten position index =
      if position < start then []
      else (array[position - start]?.getD []).filter fun event => isUnspent event && event.outputIndex = index := by
  induction transactions generalizing start array with
  | nil =>
    cases h
    simp [unspentEvents]
  | cons first rest ih =>
    obtain ⟨newEvents, hnew, h⟩ := Option.bind_eq_some_iff.1 h
    obtain ⟨array, hrest, h⟩ := Option.bind_eq_some_iff.1 h
    cases h
    have hfirst : unspentEvents newEvents position index =
        if start = position then newEvents.filter fun event => isUnspent event && event.outputIndex = index else [] := by
      split
      · rename_i heq
        refine List.filter_congr fun event hevent => ?_
        rw [transactionEvents_transaction hnew event hevent, heq]
        simp
      · rename_i hne
        refine List.filter_eq_nil_iff.2 fun event hevent => ?_
        rw [transactionEvents_transaction hnew event hevent]
        simp [hne]
    have hsplit : unspentEvents (newEvents :: array).flatten position index =
        unspentEvents newEvents position index ++ unspentEvents array.flatten position index := by
      rw [List.flatten_cons, unspentEvents, List.filter_append]
      rfl
    rw [hsplit, hfirst, ih hrest]
    rcases Nat.lt_trichotomy position start with hlt | rfl | hgt
    · rw [if_neg (by omega), if_pos (by omega), if_pos hlt, List.nil_append]
    · rw [if_pos rfl, if_pos (by omega), if_neg (by omega), Nat.sub_self, List.getElem?_cons_zero, Option.getD_some,
        List.append_nil]
    · obtain ⟨k, rfl⟩ : ∃ k, position = start + 1 + k := ⟨position - (start + 1), by omega⟩
      rw [if_neg (by omega), if_neg (by omega), if_neg (by omega), List.nil_append, Nat.add_sub_cancel_left,
        show start + 1 + k - start = k + 1 by omega, List.getElem?_cons_succ]

theorem unspentOutput_toList (self : TransactionAnalyzer) (position index : Nat) :
    (unspentOutput c self position index).toList.map (·.value) =
      (self.transactions[position]?.map fun transaction => unspentAt c self transaction index).getD [] := by
  rw [unspentOutput]
  cases self.transactions[position]? <;> rfl

/-- Among the events of a new analyzer there is one with `TAEventTypeUnspent` for each
    unspent output, and none for any other, exactly when the analysis finishes and every
    transaction with which the wallet paid only itself has its outputs after the first
    spent. -/
theorem unspent_exact_iff (transactions : List Transaction) (keysAndHashes : Dict) :
    UnspentExact c (newAnalyzer transactions keysAndHashes) ↔
      Analyzable c (newAnalyzer transactions keysAndHashes) ∧ TransfersSpent c (newAnalyzer transactions keysAndHashes) := by
  have hfinish : (∃ array, eventsFrom c (newAnalyzer transactions keysAndHashes) 0 transactions = some array) ↔
      Analyzable c (newAnalyzer transactions keysAndHashes) := eventsFrom_isSome
  have hposition : ∀ {array : List (List TAEvent)},
      eventsFrom c (newAnalyzer transactions keysAndHashes) 0 transactions = some array → ∀ position index,
        unspentEvents array.flatten position index =
          (array[position]?.getD []).filter fun event => isUnspent event && event.outputIndex = index := by
    intro array harray position index
    rw [unspentEvents_flatten harray, if_neg (Nat.not_lt_zero _), Nat.sub_zero]
  rw [UnspentExact, allEvents_new, ← hfinish]
  constructor
  · rintro ⟨groups, next, h, hexact⟩
    obtain ⟨array, harray, h⟩ := Option.map_eq_some_iff.1 h
    cases h
    refine ⟨⟨_, harray⟩, fun transaction hmem => ?_⟩
    obtain ⟨k, hk⟩ := List.getElem?_of_mem hmem
    obtain ⟨newEvents, hget, hevents⟩ := eventsFrom_get harray hk
    refine (transactionEvents_exact hevents).1 fun index => ?_
    have hk' := hexact k index
    rw [hposition harray, hget, Option.getD_some, unspentOutput_toList, hk, Option.map_some, Option.getD_some] at hk'
    exact hk'
  · rintro ⟨⟨array, harray⟩, hspent⟩
    refine ⟨array, _, by rw [harray]; rfl, fun position index => ?_⟩
    rw [hposition harray, unspentOutput_toList]
    cases hget : transactions[position]? with
    | none =>
      have hlength := List.getElem?_eq_none_iff.1 hget
      rw [List.getElem?_eq_none (by rw [eventsFrom_length harray]; exact hlength)]
      show _ = (transactions[position]?.map _).getD []
      rw [hget]
      rfl
    | some transaction =>
      obtain ⟨newEvents, hnew, hevents⟩ := eventsFrom_get harray hget
      rw [hnew]
      show _ = (transactions[position]?.map _).getD []
      rw [hget]
      exact (transactionEvents_exact hevents).2 (hspent transaction (List.mem_of_getElem? hget)) index

def walletKeys : Dict := dictAdd dictNew (some [7]) none

/-- No input, 5 to the wallet. -/
def coinTransaction : Transaction := ⟨1, [], [⟨some [1, 7], 5⟩], 0⟩

/-- No input either, and an output without a script. Its copy is the coin: the two counts are
    read as the marker of a witness transaction. -/
def coinOrigin : Transaction := ⟨1, [], [⟨none, 0x50100⟩], 0x07010200⟩

/-- Spends the coin to the wallet, in two outputs. -/
def transferTransaction : Transaction where
  version := 1
  inputs := [⟨⟨none, 0⟩, transactionTxid plainCrypto coinTransaction, 0, some [], 0, [], 0⟩]
  outputs := [⟨some [1, 7], 3⟩, ⟨some [1, 7], 2⟩]
  locktime := 0

/-- The analysis finishes, and the second output of the transfer has no event. -/
theorem not_unspent_exact :
    ¬ ∀ (c : Crypto) (transactions : List Transaction) (keysAndHashes : Dict) (self : TransactionAnalyzer),
      taNew transactions keysAndHashes = some self → (self.transactions.map (transactionTxid c)).Nodup → Analyzable c self →
      UnspentExact c self := by
  intro h
  have hnew : taNew [coinOrigin, transferTransaction] walletKeys =
      some (newAnalyzer [coinTransaction, transferTransaction] walletKeys) := by rfl
  have hdistinct : ([coinTransaction, transferTransaction].map (transactionTxid plainCrypto)).Nodup := by decide +kernel
  have hanalyzable : Analyzable plainCrypto (newAnalyzer [coinTransaction, transferTransaction] walletKeys) :=
    eventsFrom_isSome.1 (Option.isSome_iff_exists.1
      (show (eventsFrom plainCrypto (newAnalyzer [coinTransaction, transferTransaction] walletKeys) 0
        [coinTransaction, transferTransaction]).isSome = true by decide +kernel))
  obtain ⟨groups, next, hevents, hexact⟩ := h plainCrypto _ walletKeys _ hnew hdistinct hanalyzable
  have hnone : (allEvents plainCrypto (newAnalyzer [coinTransaction, transferTransaction] walletKeys)).map
      (fun result => (unspentEvents result.1.flatten 1 1).map (·.amount)) = some [] := by
    decide +kernel
  rw [hevents, Option.map_some, Option.some.injEq] at hnone
  have hone := (hexact 1 1).symm.trans hnone
  have hunspent : (unspentOutput plainCrypto (newAnalyzer [coinTransaction, transferTransaction] walletKeys) 1 1).toList.map (·.value) =
      [2] := by
    decide +kernel
  rw [hunspent] at hone
  cases hone

end BitcoinSpoon
