/-
  BitcoinSpoon.Transaction.Core — what signing does not change, and what digests read.

  Signing writes the script data and the witness stacks of the inputs and nothing else:
  the `core` of the transaction stays. A witness digest reads the core and the script
  code. A legacy digest reads the core and the script data of every input, so it is the
  digest of the transaction that was passed in, `withScripts` as they are at that moment.

  The legacy script sigs are set aside in a dictionary and put back at the end;
  `find_stash` and `restoreScriptSigs_eq` say what that does input by input.
-/

import BitcoinSpoon.Transaction.Sign

namespace BitcoinSpoon

open Wire

/-! ## The core -/

def TransactionInput.core (input : TransactionInput) : TransactionInput :=
  { input with scriptData := none, witnessStack := [] }

def Transaction.core (tx : Transaction) : Transaction := { tx with inputs := tx.inputs.map TransactionInput.core }

theorem core_eq_iff {a b : Transaction} :
    a.core = b.core ↔ a.version = b.version ∧ a.outputs = b.outputs ∧ a.locktime = b.locktime ∧
      ∀ k : Nat, a.inputs[k]?.map TransactionInput.core = b.inputs[k]?.map TransactionInput.core := by
  constructor
  · intro h
    have hi : a.inputs.map TransactionInput.core = b.inputs.map TransactionInput.core := congrArg Transaction.inputs h
    refine ⟨congrArg (·.version) h, congrArg (·.outputs) h, congrArg (·.locktime) h, fun k => ?_⟩
    rw [← List.getElem?_map, ← List.getElem?_map, hi]
  · intro ⟨hv, ho, hl, hi⟩
    have : a.inputs.map TransactionInput.core = b.inputs.map TransactionInput.core := by
      apply List.ext_getElem?
      intro k
      rw [List.getElem?_map, List.getElem?_map, hi]
    simp only [Transaction.core, hv, ho, hl, this]

theorem core_length {a b : Transaction} (h : a.core = b.core) : a.inputs.length = b.inputs.length := by
  have := congrArg (fun tx : Transaction => tx.inputs.length) h
  simpa [Transaction.core] using this

/-- Two transactions with one core have the same inputs up to what signing writes. -/
theorem core_input {a b : Transaction} (h : a.core = b.core) {k : Nat} {x : TransactionInput}
    (hx : a.inputs[k]? = some x) : ∃ y, b.inputs[k]? = some y ∧ x.core = y.core := by
  have hk := (core_eq_iff.mp h).2.2.2 k
  rw [hx, Option.map_some] at hk
  cases hy : b.inputs[k]? with
  | none => rw [hy] at hk; cases hk
  | some y =>
    rw [hy, Option.map_some] at hk
    exact ⟨y, rfl, Option.some.inj hk⟩

theorem core_modifyInput {tx : Transaction} {i : Nat} {f : TransactionInput → TransactionInput}
    (h : ∀ input, (f input).core = input.core) : (tx.modifyInput i f).core = tx.core := by
  rw [core_eq_iff]
  refine ⟨rfl, rfl, rfl, fun k => ?_⟩
  rw [getElem?_modifyInput]
  split
  · rw [Option.map_map]
    cases tx.inputs[k]? with
    | none => rfl
    | some input => exact congrArg some (h input)
  · rfl

@[simp] theorem core_setScriptData (tx : Transaction) (i : Nat) (d : Data) : (tx.setScriptData i d).core = tx.core :=
  core_modifyInput fun _ => rfl

@[simp] theorem core_setWitnessStack (tx : Transaction) (i : Nat) (d : Datas) : (tx.setWitnessStack i d).core = tx.core :=
  core_modifyInput fun _ => rfl

@[simp] theorem core_core (input : TransactionInput) : input.core.core = input.core := rfl

theorem fields_of_core {x y : TransactionInput} (h : x.core = y.core) :
    x.fundingOutput = y.fundingOutput ∧ x.previousTransactionHash = y.previousTransactionHash ∧
      x.outputIndex = y.outputIndex ∧ x.sequence = y.sequence := by
  simp only [TransactionInput.core, TransactionInput.mk.injEq] at h
  exact ⟨h.1, h.2.1, h.2.2.1, h.2.2.2.2.1⟩

theorem fundingOutput_of_core {x y : TransactionInput} (h : x.core = y.core) : x.fundingOutput = y.fundingOutput :=
  (fields_of_core h).1

theorem inputType_of_core {x y : TransactionInput} (h : x.core = y.core) :
    transactionInputType x = transactionInputType y := by
  unfold transactionInputType
  rw [fundingOutput_of_core h]

theorem core_clearScriptSig (input : TransactionInput) : (clearScriptSig input).core = input.core := by
  unfold clearScriptSig
  split <;> rfl

@[simp] theorem core_clearScriptSigs (tx : Transaction) : (clearScriptSigs tx).core = tx.core := by
  simp only [clearScriptSigs, Transaction.core, List.map_map]
  congr 1
  exact List.map_congr_left fun input _ => core_clearScriptSig input

/-! ## Legacy digests -/

/-- The script data of input `k`, NULL past the end. -/
def scriptAt (tx : Transaction) (k : Nat) : Data := (tx.inputs[k]?.map (·.scriptData)).getD none

def Transaction.withScripts (tx : Transaction) (scripts : Nat → Data) : Transaction :=
  { tx with inputs := tx.inputs.mapIdx fun k input => { input with scriptData := scripts k } }

/-- The digest a legacy signature of input `i` is to be made over: `i` carries its script
    code and every other input an empty script. -/
def legacyDigest (tx : Transaction) (i : Nat) (scriptCode : Data) : Data :=
  transactionDigest (tx.withScripts fun k => if k = i then scriptCode else none)

theorem inputData_congr {x y : TransactionInput} (h : x.core = y.core) (hs : x.scriptData.toBytes = y.scriptData.toBytes) :
    transactionInputData x = transactionInputData y := by
  obtain ⟨-, hp, ho, hq⟩ := fields_of_core h
  have hl : x.scriptData.length = y.scriptData.length := congrArg List.length hs
  rw [transactionInputData, transactionInputData, hp, ho, hq, hs, hl]

/-- A legacy digest reads the core and the script data. -/
theorem transactionDigest_congr {a b : Transaction} (h : a.core = b.core)
    (hs : ∀ k < a.inputs.length, (scriptAt a k).toBytes = (scriptAt b k).toBytes) :
    transactionDigest a = transactionDigest b := by
  obtain ⟨hv, ho, hl, hi⟩ := core_eq_iff.mp h
  have hdata : a.inputs.map transactionInputData = b.inputs.map transactionInputData := by
    apply List.ext_getElem?
    intro k
    rw [List.getElem?_map, List.getElem?_map]
    cases hx : a.inputs[k]? with
    | none =>
      have hk := hi k
      rw [hx, Option.map_none] at hk
      rw [Option.map_eq_none_iff.mp hk.symm]
    | some x =>
      obtain ⟨y, hy, hxy⟩ := core_input h hx
      have hk := hs k (List.getElem?_eq_some_iff.mp hx).1
      simp only [scriptAt, hx, hy, Option.map_some, Option.getD_some] at hk
      rw [hy, Option.map_some, Option.map_some, inputData_congr hxy hk]
  have hflat : a.inputs.flatMap transactionInputData = b.inputs.flatMap transactionInputData := by
    rw [List.flatMap, List.flatMap, hdata]
  rw [transactionDigest, transactionDigest, transactionTx, transactionTx, hv, ho, hl, core_length h, hflat]

theorem getElem?_withScripts (tx : Transaction) (scripts : Nat → Data) (k : Nat) :
    (tx.withScripts scripts).inputs[k]? = tx.inputs[k]?.map fun input => { input with scriptData := scripts k } := by
  simp [Transaction.withScripts]

theorem core_withScripts (tx : Transaction) (scripts : Nat → Data) : (tx.withScripts scripts).core = tx.core := by
  rw [core_eq_iff]
  refine ⟨rfl, rfl, rfl, fun k => ?_⟩
  rw [getElem?_withScripts, Option.map_map]
  rfl

theorem scriptAt_withScripts {tx : Transaction} {scripts : Nat → Data} {k : Nat} (hk : k < tx.inputs.length) :
    scriptAt (tx.withScripts scripts) k = scripts k := by
  rw [scriptAt, getElem?_withScripts, List.getElem?_eq_getElem hk]
  rfl

/-- What a signature made during signing is over. -/
theorem transactionDigest_eq_withScripts {a tx : Transaction} (h : a.core = tx.core) {scripts : Nat → Data}
    (hs : ∀ k < tx.inputs.length, (scriptAt a k).toBytes = (scripts k).toBytes) :
    transactionDigest a = transactionDigest (tx.withScripts scripts) := by
  apply transactionDigest_congr (h.trans (core_withScripts tx scripts).symm)
  intro k hk
  rw [core_length h] at hk
  rw [scriptAt_withScripts hk, hs k hk]

theorem scriptAt_setScriptData {tx : Transaction} {i k : Nat} {d : Data} (hk : k < tx.inputs.length) :
    scriptAt (tx.setScriptData i d) k = if i = k then d else scriptAt tx k := by
  rw [scriptAt, Transaction.setScriptData, getElem?_modifyInput, List.getElem?_eq_getElem hk]
  split
  · rfl
  · rw [scriptAt, List.getElem?_eq_getElem hk]

@[simp] theorem scriptAt_setWitnessStack (tx : Transaction) (i : Nat) (stack : Datas) (k : Nat) :
    scriptAt (tx.setWitnessStack i stack) k = scriptAt tx k := by
  rw [scriptAt, scriptAt, Transaction.setWitnessStack, getElem?_modifyInput]
  split
  · rw [Option.map_map]
    rfl
  · rfl

/-! ## Witness digests -/

variable (c : Crypto)

/-- A witness digest reads the core and the script code it is given. -/
theorem witnessDigest_congr {a b : Transaction} (h : a.core = b.core) (i : Nat) (script : Data) :
    transactionWitnessDigest c (a.setScriptData i script) i = transactionWitnessDigest c (b.setScriptData i script) i := by
  obtain ⟨hv, ho, hl, hi⟩ := core_eq_iff.mp h
  have hprev : prevOuts (a.setScriptData i script) = prevOuts (b.setScriptData i script) := by
    have hcore : ∀ tx : Transaction, prevOuts tx = prevOuts tx.core := by
      intro tx
      simp only [prevOuts, Transaction.core, List.flatMap_map, TransactionInput.core]
    rw [hcore, hcore (b.setScriptData i script), core_setScriptData, core_setScriptData, h]
  have hseqs : sequences (a.setScriptData i script) = sequences (b.setScriptData i script) := by
    have hcore : ∀ tx : Transaction, sequences tx = sequences tx.core := by
      intro tx
      simp only [sequences, Transaction.core, List.flatMap_map, TransactionInput.core]
    rw [hcore, hcore (b.setScriptData i script), core_setScriptData, core_setScriptData, h]
  have houts : outputsData (a.setScriptData i script) = outputsData (b.setScriptData i script) := by
    unfold outputsData
    rw [Transaction.setScriptData, Transaction.setScriptData, modifyInput_outputs, modifyInput_outputs, ho]
  have hver : (a.setScriptData i script).version = (b.setScriptData i script).version := hv
  have hlock : (a.setScriptData i script).locktime = (b.setScriptData i script).locktime := hl
  have hget : ∀ tx : Transaction, (tx.setScriptData i script).inputs[i]? =
      tx.inputs[i]?.map fun input => { input with scriptData := script } := by
    intro tx
    rw [Transaction.setScriptData, getElem?_modifyInput, if_pos rfl]
  cases hx : a.inputs[i]? with
  | none =>
    have hk := hi i
    rw [hx, Option.map_none] at hk
    have hy := Option.map_eq_none_iff.mp hk.symm
    simp only [transactionWitnessDigest, hget, hx, hy, Option.map_none]
  | some x =>
    obtain ⟨y, hy, hxy⟩ := core_input h hx
    obtain ⟨hf, hp, hoi, hsq⟩ := fields_of_core hxy
    simp only [transactionWitnessDigest, transactionWitnessDigestFlexible, hget, hx, hy, Option.map_some, hf, hp, hoi, hsq,
      hprev, hseqs, houts, hver, hlock]

/-! ## Setting script sigs aside and putting them back -/

theorem find_stashFrom (dict : Dictionary Nat) (start : Nat) (inputs : List TransactionInput) (k : Nat) :
    dictionaryFind (stashFrom dict start inputs) k =
      match (if start ≤ k then inputs[k - start]? else none) with
      | some input =>
        if (transactionInputType input).isLegacy && input.scriptData.isSome then some input.scriptData
        else dictionaryFind dict k
      | none => dictionaryFind dict k := by
  induction inputs generalizing dict start with
  | nil => cases hk : decide (start ≤ k) <;> simp_all [stashFrom]
  | cons input inputs ih =>
    rw [stashFrom, ih]
    by_cases hk : start = k
    · subst hk
      rw [if_neg (by omega), if_pos (Nat.le_refl _), Nat.sub_self, List.getElem?_cons_zero]
      dsimp only
      split
      · rw [find_addCopy, if_pos rfl]
      · rfl
    · have hfind : dictionaryFind (if (transactionInputType input).isLegacy && input.scriptData.isSome then
          dictionaryAddCopy dict start input.scriptData else dict) k = dictionaryFind dict k := by
        split
        · rw [find_addCopy, if_neg (Ne.symm hk)]
        · rfl
      rw [hfind]
      by_cases hlt : start ≤ k
      · have hs : k - start = (k - (start + 1)) + 1 := by omega
        rw [if_pos (by omega), if_pos hlt, hs, List.getElem?_cons_succ]
      · rw [if_neg (by omega), if_neg hlt]

theorem mem_trimDuplicateInstances {i : Nat} {array : List Nat} : i ∈ trimDuplicateInstances array ↔ i ∈ array := by
  unfold trimDuplicateInstances
  refine Loop.foldl_rule (fun pre trimmed => i ∈ trimmed ↔ i ∈ pre) Iff.rfl ?_
  intro pre x post _ trimmed ih
  rw [List.mem_append, List.mem_singleton]
  split
  · rename_i hx
    rw [ih]
    constructor
    · intro h
      exact Or.inl h
    · intro h
      rcases h with h | rfl
      · exact h
      · exact ih.mp hx
  · rw [List.mem_append, List.mem_singleton, ih]

/-- What is set aside of an input. -/
def stashed (input : TransactionInput) : Option Data :=
  if (transactionInputType input).isLegacy && input.scriptData.isSome then some input.scriptData else none

theorem find_stash (tx : Transaction) (k : Nat) :
    dictionaryFind (stashScriptSigs tx) k = tx.inputs[k]?.bind stashed := by
  rw [stashScriptSigs, find_stashFrom, if_pos (Nat.zero_le k), Nat.sub_zero]
  cases tx.inputs[k]? <;> rfl

/-- An input with the script data that was found for it. -/
def restoredBy (found : Option Data) (input : TransactionInput) : TransactionInput :=
  match found with
  | some scriptData => { input with scriptData }
  | none => input

theorem restoreElements_eq {elements : List (Nat × Data)} {tx : Transaction} (hn : (elements.map Prod.fst).Nodup)
    (hk : ∀ e ∈ elements, e.1 < tx.inputs.length) :
    restoreElements tx elements =
      some { tx with inputs := tx.inputs.mapIdx fun k => restoredBy (findElement elements k) } := by
  induction elements generalizing tx with
  | nil =>
    simp only [restoreElements, findElement, Option.some.injEq]
    ext1
    · rfl
    · apply List.ext_getElem?
      intro k
      rw [List.getElem?_mapIdx]
      cases tx.inputs[k]? <;> rfl
    · rfl
    · rfl
  | cons e rest ih =>
    obtain ⟨key, value⟩ := e
    rw [List.map_cons, List.nodup_cons] at hn
    have hkey : key < tx.inputs.length := hk (key, value) List.mem_cons_self
    have hrest : ∀ e ∈ rest, e.1 < (tx.setScriptData key value).inputs.length := by
      intro e he
      rw [setScriptData_length]
      exact hk e (List.mem_cons_of_mem _ he)
    rw [restoreElements, if_pos hkey, ih hn.2 hrest]
    simp only [Option.some.injEq]
    ext1
    · rfl
    · apply List.ext_getElem?
      intro k
      rw [List.getElem?_mapIdx, List.getElem?_mapIdx, Transaction.setScriptData, getElem?_modifyInput]
      simp only [findElement]
      by_cases hkk : key = k
      · subst hkk
        have hnone : findElement rest key = none := by
          have hmem : key ∉ rest.map Prod.fst := hn.1
          clear ih hrest hn hk
          induction rest with
          | nil => rfl
          | cons e rest ih =>
            rw [List.map_cons, List.mem_cons, not_or] at hmem
            rw [findElement, if_neg (Ne.symm hmem.1), ih hmem.2]
        rw [if_pos rfl, if_pos rfl, hnone, Option.map_map]
        rfl
      · rw [if_neg hkk, if_neg hkk]
    · rfl
    · rfl

/-- With every key in range, each input gets what the dictionary holds for it. -/
theorem restoreScriptSigs_eq {scriptSigs : Dictionary Nat} {tx : Transaction}
    (h : ∀ k, dictionaryFind scriptSigs k ≠ none → k < tx.inputs.length) :
    restoreScriptSigs scriptSigs tx =
      some { tx with inputs := tx.inputs.mapIdx fun k => restoredBy (dictionaryFind scriptSigs k) } := by
  apply restoreElements_eq scriptSigs.keys_nodup
  intro e he
  apply h
  have hmem : e.1 ∈ scriptSigs.elements.map Prod.fst := List.mem_map_of_mem he
  unfold dictionaryFind
  generalize scriptSigs.elements = elements at hmem
  clear he
  induction elements with
  | nil => cases hmem
  | cons x rest ih =>
    rw [findElement]
    split
    · exact Option.some_ne_none _
    · rename_i hx
      rw [List.map_cons, List.mem_cons] at hmem
      rcases hmem with hmem | hmem
      · exact absurd hmem.symm hx
      · exact ih hmem

end BitcoinSpoon
