/-
  BitcoinSpoon.Tracker.Fee — the fee of a transaction whose funding is known
  (`code/TransactionTracker.c`, `code/Transaction.c`, `code/NodeManager.c`).

  Both sums and the difference are taken modulo 2 ^ 64. The difference is the fee exactly if
  the outputs do not exceed the inputs and the fee is less than 2 ^ 64; where they exceed
  them, 0 is returned only for a multiple of 2 ^ 64 (`fee_real_iff`). `none` is the `abort()`
  on bytes that are no transaction.
-/

import BitcoinSpoon.Tracker.Stored
import BitcoinSpoon.Util.Keys

namespace BitcoinSpoon

open Wire

def transactionUsedValue (transaction : Transaction) : UInt64 :=
  transaction.outputs.foldl (fun value output => value + output.value) 0

def transactionUsableValue (transaction : Transaction) : UInt64 :=
  transaction.inputs.foldl (fun value input => value + input.fundingOutput.value) 0

/-- The output an input spends. -/
def fundingOf (self : TransactionTracker) (input : TransactionInput) : Option TransactionOutput := do
  let funding ← ttTransactionForTxid self input.previousTransactionHash
  funding.outputs[input.outputIndex.toNat]?

def ttCalculateTransactionFee (self : TransactionTracker) (data : Data) : Option UInt64 := do
  let transaction ← transactionNew data
  match transaction.inputs.mapM fun input => (fundingOf self input).map fun output => { input with fundingOutput := output } with
  | none => some 0
  | some inputs => some (transactionUsableValue { transaction with inputs := inputs } - transactionUsedValue transaction)

/-- What `DatabaseRecordTransactionFee` is called with, for the transactions that have no fee. -/
def updateTransactionFees (c : Crypto) (self : TransactionTracker) (datas : Datas) : Option (List (Data × UInt64)) :=
  datas.foldlM (fun recorded data => do
    let fee ← ttCalculateTransactionFee self data
    some (if fee ≠ 0 then recorded ++ [(hash256 c data, fee)] else recorded)) []

/-! ## The fee -/

def usedSum (transaction : Transaction) : Nat := (transaction.outputs.map (·.value.toNat)).sum

/-- The sum of what the inputs spend, if all of it is known. -/
def usableSum (self : TransactionTracker) (transaction : Transaction) : Option Nat :=
  (transaction.inputs.mapM fun input => (fundingOf self input).map (·.value.toNat)).map List.sum

/-- 0 where funding is unknown or exceeded, else the difference. -/
def RealFee (self : TransactionTracker) (transaction : Transaction) (fee : UInt64) : Prop :=
  match usableSum self transaction with
  | none => fee = 0
  | some usable => if usable < usedSum transaction then fee = 0 else fee.toNat + usedSum transaction = usable

/-- The difference is less than 2 ^ 64, or a negative multiple of it. -/
def FeeFits (self : TransactionTracker) (transaction : Transaction) : Prop :=
  ∀ usable, usableSum self transaction = some usable →
    if usable < usedSum transaction then 2 ^ 64 ∣ usedSum transaction - usable else usable < usedSum transaction + 2 ^ 64

variable {c : Crypto} {self : TransactionTracker} {data : Data} {transaction : Transaction}

/-- A sum of `uint64_t`s. -/
theorem foldl_value_toNat {α : Type} (value : α → UInt64) (xs : List α) (start : UInt64) :
    (xs.foldl (fun sum x => sum + value x) start).toNat = (start.toNat + (xs.map fun x => (value x).toNat).sum) % 2 ^ 64 := by
  induction xs generalizing start with
  | nil =>
    have hlt := start.toNat_lt
    rw [List.foldl_nil, List.map_nil, List.sum_nil, Nat.add_zero, Nat.mod_eq_of_lt hlt]
  | cons x xs ih =>
    rw [List.foldl_cons, ih, UInt64.toNat_add, List.map_cons, List.sum_cons]
    omega

/-- Both views of the inputs fail together, and sum up to the same. -/
theorem usableSum_eq : usableSum self transaction =
    (transaction.inputs.mapM fun input => (fundingOf self input).map fun output => { input with fundingOutput := output }).map
      fun inputs => (inputs.map (·.fundingOutput.value.toNat)).sum := by
  rw [usableSum]
  have hmap : ∀ inputs : List TransactionInput,
      inputs.mapM (fun input => (fundingOf self input).map (·.value.toNat)) =
        (inputs.mapM fun input => (fundingOf self input).map fun output => { input with fundingOutput := output }).map
          fun inputs => inputs.map (·.fundingOutput.value.toNat) := by
    intro inputs
    induction inputs with
    | nil => rfl
    | cons input inputs ih =>
      rw [List.mapM_cons, List.mapM_cons, ih]
      cases fundingOf self input with
      | none => rfl
      | some output =>
        cases inputs.mapM fun input => (fundingOf self input).map fun output => { input with fundingOutput := output } with
        | none => rfl
        | some rest => rfl
  rw [hmap, Option.map_map]
  rfl

/-- What is returned, over the integers. -/
theorem calculateFee_spec (hnew : transactionNew data = some transaction) :
    ∃ fee, ttCalculateTransactionFee self data = some fee ∧
      match usableSum self transaction with
      | none => fee = 0
      | some usable => fee.toNat = (2 ^ 64 - usedSum transaction % 2 ^ 64 + usable % 2 ^ 64) % 2 ^ 64 := by
  rw [ttCalculateTransactionFee, hnew, Option.bind_eq_bind, Option.bind_some, usableSum_eq]
  cases transaction.inputs.mapM fun input => (fundingOf self input).map fun output => { input with fundingOutput := output } with
  | none => exact ⟨0, rfl, rfl⟩
  | some inputs =>
    refine ⟨_, rfl, ?_⟩
    dsimp only [Option.map_some]
    rw [UInt64.toNat_sub, transactionUsedValue, transactionUsableValue, foldl_value_toNat, foldl_value_toNat, usedSum]
    dsimp only
    have hzero : (0 : UInt64).toNat = 0 := rfl
    rw [hzero, Nat.zero_add, Nat.zero_add]

theorem real_iff_fits {fee : UInt64} (hfee : ttCalculateTransactionFee self data = some fee)
    (hnew : transactionNew data = some transaction) : RealFee self transaction fee ↔ FeeFits self transaction := by
  obtain ⟨fee', hfee', hspec⟩ := @calculateFee_spec self data transaction hnew
  obtain rfl : fee = fee' := Option.some.inj (hfee.symm.trans hfee')
  rw [RealFee, FeeFits]
  cases husable : usableSum self transaction with
  | none =>
    rw [husable] at hspec
    exact iff_of_true hspec fun usable h => by cases h
  | some usable =>
    rw [husable] at hspec
    dsimp only at hspec ⊢
    have hforall : (∀ usable', some usable = some usable' →
          if usable' < usedSum transaction then 2 ^ 64 ∣ usedSum transaction - usable' else usable' < usedSum transaction + 2 ^ 64) ↔
        if usable < usedSum transaction then 2 ^ 64 ∣ usedSum transaction - usable else usable < usedSum transaction + 2 ^ 64 :=
      ⟨fun h => h usable rfl, fun h usable' heq => Option.some.inj heq ▸ h⟩
    rw [hforall]
    split
    · rw [← UInt64.toNat_inj]
      show fee.toNat = 0 ↔ _
      omega
    · omega

/-- Every fee that is recorded is one that was calculated. -/
theorem updateFees_mem {datas : Datas} {recorded : List (Data × UInt64)} (h : updateTransactionFees c self datas = some recorded)
    {entry : Data × UInt64} (hentry : entry ∈ recorded) :
    entry.2 ≠ 0 ∧ ∃ data ∈ datas, entry.1 = hash256 c data ∧ ttCalculateTransactionFee self data = some entry.2 := by
  have hloop : ∀ (datas : Datas) (before after : List (Data × UInt64)),
      datas.foldlM (fun recorded data => do
        let fee ← ttCalculateTransactionFee self data
        some (if fee ≠ 0 then recorded ++ [(hash256 c data, fee)] else recorded)) before = some after →
      entry ∈ after → entry ∈ before ∨ entry.2 ≠ 0 ∧
        ∃ data ∈ datas, entry.1 = hash256 c data ∧ ttCalculateTransactionFee self data = some entry.2 := by
    intro datas
    induction datas with
    | nil =>
      intro before after hrun hmem
      cases hrun
      exact Or.inl hmem
    | cons data datas ih =>
      intro before after hrun hmem
      rw [List.foldlM_cons] at hrun
      obtain ⟨next, hnext, hrun⟩ := Option.bind_eq_some_iff.1 hrun
      obtain ⟨fee, hfee, hnext⟩ := Option.bind_eq_some_iff.1 hnext
      rcases ih next after hrun hmem with hbefore | ⟨hne, data', hdata', hrest⟩
      · have heq := Option.some.inj hnext
        split at heq
        · rename_i hne
          rw [← heq, List.mem_append, List.mem_singleton] at hbefore
          rcases hbefore with hbefore | rfl
          · exact Or.inl hbefore
          · exact Or.inr ⟨hne, data, List.mem_cons_self, rfl, hfee⟩
        · rw [← heq] at hbefore
          exact Or.inl hbefore
      · exact Or.inr ⟨hne, data', List.mem_cons_of_mem _ hdata', hrest⟩
  rcases hloop datas [] recorded h hentry with hnil | hfound
  · cases hnil
  · exact hfound

/-- The fee of a transaction is a real one exactly if it fits; and if all of them fit, each
    fee recorded is what the inputs spend less what the outputs do. -/
theorem fee_real_iff (c : Crypto) (self : TransactionTracker) :
    (∀ data transaction, transactionNew data = some transaction →
        ∃ fee, ttCalculateTransactionFee self data = some fee ∧ (RealFee self transaction fee ↔ FeeFits self transaction)) ∧
      ∀ datas recorded, updateTransactionFees c self datas = some recorded →
        (∀ data ∈ datas, ∀ transaction, transactionNew data = some transaction → FeeFits self transaction) →
        ∀ entry ∈ recorded, ∃ data ∈ datas, ∃ transaction, entry.1 = hash256 c data ∧ transactionNew data = some transaction ∧
          usableSum self transaction = some (entry.2.toNat + usedSum transaction) := by
  constructor
  · intro data transaction hnew
    obtain ⟨fee, hfee, -⟩ := @calculateFee_spec self data transaction hnew
    exact ⟨fee, hfee, real_iff_fits hfee hnew⟩
  · intro datas recorded hrun hfits entry hentry
    obtain ⟨hne, data, hdata, hhash, hfee⟩ := updateFees_mem hrun hentry
    obtain ⟨transaction, hnew, -⟩ := Option.bind_eq_some_iff.1 hfee
    have hreal := (real_iff_fits hfee hnew).2 (hfits data hdata transaction hnew)
    refine ⟨data, hdata, transaction, hhash, hnew, ?_⟩
    rw [RealFee] at hreal
    cases husable : usableSum self transaction with
    | none =>
      rw [husable] at hreal
      exact absurd hreal hne
    | some usable =>
      rw [husable] at hreal
      dsimp only at hreal
      split at hreal
      · exact absurd hreal hne
      · rw [hreal]

/-- A transaction with one output of 5. -/
def fiveTransaction : Transaction := { version := 1, inputs := [], outputs := [⟨some [0x51], 5⟩], locktime := 0 }

/-- It is the only one stored. -/
def fiveStored : TransactionTracker := ⟨[fiveTransaction], [], [transactionTxid plainCrypto fiveTransaction], 0, 0⟩

/-- A transaction that spends the 5. -/
def spendingFive (value : UInt64) : Data := some <| transactionTx
  { version := 1
    inputs := [⟨⟨none, 0⟩, transactionTxid plainCrypto fiveTransaction, 0, none, 0, [], 0⟩]
    outputs := [⟨some [0x51], value⟩]
    locktime := 0 }

theorem fee_real_five : ∃ transaction fee, transactionNew (spendingFive 3) = some transaction ∧
    ttCalculateTransactionFee fiveStored (spendingFive 3) = some fee ∧ RealFee fiveStored transaction fee := by
  have hsum : (transactionNew (spendingFive 3)).map (fun transaction => (usableSum fiveStored transaction, usedSum transaction)) =
      some (some 5, 3) := by decide +kernel
  obtain ⟨transaction, hnew, hvalues⟩ := Option.map_eq_some_iff.1 hsum
  obtain ⟨husable, hused⟩ := Prod.mk.inj hvalues
  obtain ⟨fee, hfee, hiff⟩ := (fee_real_iff plainCrypto fiveStored).1 _ transaction hnew
  refine ⟨transaction, fee, hnew, hfee, hiff.2 fun usable h => ?_⟩
  rw [husable] at h
  cases h
  rw [hused]
  decide

/-- 6 out of 5: the fee is one less than 2 ^ 64, and it is recorded. -/
theorem not_fee_real : ∃ transaction, transactionNew (spendingFive 6) = some transaction ∧
    ttCalculateTransactionFee fiveStored (spendingFive 6) = some 18446744073709551615 ∧
    ¬ RealFee fiveStored transaction 18446744073709551615 ∧
    updateTransactionFees plainCrypto fiveStored [spendingFive 6] =
      some [(hash256 plainCrypto (spendingFive 6), 18446744073709551615)] := by
  have hsum : (transactionNew (spendingFive 6)).map (fun transaction => (usableSum fiveStored transaction, usedSum transaction)) =
      some (some 5, 6) := by decide +kernel
  obtain ⟨transaction, hnew, hvalues⟩ := Option.map_eq_some_iff.1 hsum
  obtain ⟨husable, hused⟩ := Prod.mk.inj hvalues
  refine ⟨transaction, hnew, by decide +kernel, fun hreal => ?_, by decide +kernel⟩
  rw [RealFee, husable, hused] at hreal
  exact absurd hreal (by decide)

end BitcoinSpoon
