/-
  BitcoinSpoon.Transaction.AddSignature — which inputs `TransactionAddSignature` touches.

  The loop over the candidate keys of input `i` counts with a second `i`, the position `j`
  of the key in the list, and reads and writes the script sig under `j`. It appends the
  signature behind the pushes that are there, and it leaves the script data of an input
  that is not legacy cleared. So the function adds a signature where it belongs when no
  input outside the legacy types carries script data, no pay-to-pubkey-hash input has a key
  that accepts it, and every key that does is at position `i` of its list (`Aligned`).

  The proof follows the loop over the inputs: before step `k` the inputs below `k` are
  done, the others are as they were, and every script datum is blank (`Added`).
-/

import BitcoinSpoon.Transaction.Core
import BitcoinSpoon.Transaction.Remote

namespace BitcoinSpoon

open Wire Loop

variable (c : Crypto) (tx : Transaction) (signature : Data)

/-! ## What belongs to an input -/

def stashedScriptSig (input : TransactionInput) : Data := (stashed input).getD none

def legacyCandidates (input : TransactionInput) : Datas := mainPubKeys (stashedScriptSig input) input

def acceptsLegacy (i : Nat) (input : TransactionInput) (key : Data) : Bool :=
  verify c signature (legacyDigest tx i input.fundingOutput.script) key

/-- One of the input's legacy keys accepts the signature for its legacy digest. -/
def LegacyAccepted (i : Nat) (input : TransactionInput) : Prop :=
  ∃ key ∈ legacyCandidates input, acceptsLegacy c tx signature i input key = true

def acceptsKeyHash (i : Nat) (input : TransactionInput) : Bool :=
  let last := datasLast input.witnessStack
  verify c signature (scriptedDigest c tx i (some (p2wpkhImpliedScript c last))) last

def acceptsWitness (i : Nat) (input : TransactionInput) (key : Data) : Bool :=
  verify c signature (scriptedDigest c tx i (datasLast input.witnessStack)) key

/-- The witness key of the input, or one of its witness script, accepts the signature. -/
def WitnessAccepted (i : Nat) (input : TransactionInput) : Prop :=
  acceptsKeyHash c tx signature i input = true ∨
    ∃ key ∈ allPubKeys (datasLast input.witnessStack), acceptsWitness c tx signature i input key = true

def BelongsTo (i : Nat) (input : TransactionInput) : Prop :=
  LegacyAccepted c tx signature i input ∨ WitnessAccepted c tx signature i input

/-- What is to hold of input `i`, `input` before and `input'` after. -/
structure InputExact (affected : List Nat) (i : Nat) (input input' : TransactionInput) : Prop where
  changed : input'.scriptData.toBytes ≠ input.scriptData.toBytes ∨ input'.witnessStack ≠ input.witnessStack →
    BelongsTo c tx signature i input
  affected_iff : i ∈ affected ↔ BelongsTo c tx signature i input
  pubkey : transactionInputType input = .payToPubkey → LegacyAccepted c tx signature i input →
    input'.scriptData = some (writePushes (readPushes input.scriptData ++ [signature]))
  pubkeyHash : transactionInputType input = .payToPubkeyHash → LegacyAccepted c tx signature i input →
    ∀ pub, input.scriptData = some (scriptPush pub) → input'.scriptData = some (scriptPush signature ++ scriptPush pub)

/-- The call touches exactly the inputs the signature belongs to, and no others exist. -/
def AddsExactly : Prop :=
  ∃ tx' affected, transactionAddSignature c tx signature = some (tx', affected) ∧
    ∀ i input, tx.inputs[i]? = some input →
      ∃ input', tx'.inputs[i]? = some input' ∧ InputExact c tx signature affected i input input'

/-- The inputs on which the second `i`, the appending and the clearing do no harm. -/
structure Aligned : Prop where
  blank : ∀ input ∈ tx.inputs, (transactionInputType input).isLegacy = false → input.scriptData.toBytes = []
  noKeyHash : ∀ i input, tx.inputs[i]? = some input → transactionInputType input = .payToPubkeyHash →
    ¬ LegacyAccepted c tx signature i input
  own : ∀ i input j key, tx.inputs[i]? = some input → (legacyCandidates input)[j]? = some key →
    acceptsLegacy c tx signature i input key = true → j = i

/-! ## The transaction meanwhile -/

/-- The core is kept and every script datum is blank. -/
structure Blank (t : Transaction) : Prop where
  core : t.core = tx.core
  scripts : ∀ k, (scriptAt t k).toBytes = []

/-- The state after some candidate keys of input `i`: `added` says whether the accepted one
    was among them. -/
structure LegacyAdded (i : Nat) (st : AddState) (added : Prop) (t : AddState) : Prop where
  blank : Blank tx t.transaction
  witness : ∀ j : Nat, t.transaction.inputs[j]?.map TransactionInput.witnessStack = st.transaction.inputs[j]?.map TransactionInput.witnessStack
  here : added → dictionaryFind t.scriptSigs i =
    some (some (writePushes (readPushes (dictionaryGetValue st.scriptSigs i) ++ [signature])))
  there : ∀ j : Nat, (j = i → ¬ added) → dictionaryFind t.scriptSigs j = dictionaryFind st.scriptSigs j
  result : ∀ j : Nat, j ∈ t.result ↔ j ∈ st.result ∨ (j = i ∧ added)

/-- The state after some witness keys of input `i`: `added` says whether one accepted. -/
structure WitnessAdded (i : Nat) (st : AddState) (added : Prop) (t : AddState) : Prop where
  blank : Blank tx t.transaction
  scriptSigs : t.scriptSigs = st.scriptSigs
  witness : ∀ j : Nat, (j = i → ¬ added) →
    t.transaction.inputs[j]?.map TransactionInput.witnessStack =
      st.transaction.inputs[j]?.map TransactionInput.witnessStack
  result : ∀ j : Nat, j ∈ t.result ↔ j ∈ st.result ∨ (j = i ∧ added)

/-- Before step `k` of the loop over the inputs. -/
structure Added (k : Nat) (st : AddState) : Prop where
  blank : Blank tx st.transaction
  witness : ∀ j input, tx.inputs[j]? = some input → (j < k → ¬ WitnessAccepted c tx signature j input) →
    st.transaction.inputs[j]?.map TransactionInput.witnessStack = some input.witnessStack
  written : ∀ j input, tx.inputs[j]? = some input → j < k → LegacyAccepted c tx signature j input →
    dictionaryFind st.scriptSigs j = some (some (writePushes (readPushes (stashedScriptSig input) ++ [signature])))
  kept : ∀ j input, tx.inputs[j]? = some input → (j < k → ¬ LegacyAccepted c tx signature j input) →
    dictionaryFind st.scriptSigs j = stashed input
  inside : ∀ j, tx.inputs[j]? = none → dictionaryFind st.scriptSigs j = none
  result : ∀ j, j ∈ st.result ↔ ∃ input, tx.inputs[j]? = some input ∧ j < k ∧ BelongsTo c tx signature j input

variable {c tx signature}

theorem Blank.length {t : Transaction} (h : Blank tx t) : t.inputs.length = tx.inputs.length := core_length h.core

theorem Blank.setScriptData_none {t : Transaction} (h : Blank tx t) (i : Nat) : Blank tx (t.setScriptData i none) where
  core := by rw [core_setScriptData, h.core]
  scripts k := by
    by_cases hk : k < t.inputs.length
    · rw [scriptAt_setScriptData hk]
      split
      · rfl
      · exact h.scripts k
    · rw [scriptAt, List.getElem?_eq_none (by rw [setScriptData_length]; omega)]
      rfl

theorem Blank.setWitnessStack {t : Transaction} (h : Blank tx t) (i : Nat) (stack : Datas) :
    Blank tx (t.setWitnessStack i stack) where
  core := by rw [core_setWitnessStack, h.core]
  scripts k := by rw [scriptAt_setWitnessStack, h.scripts k]

theorem Blank.digest {t : Transaction} (h : Blank tx t) (i : Nat) (script : Data) :
    transactionDigest (t.setScriptData i script) = legacyDigest tx i script := by
  apply transactionDigest_eq_withScripts
  · rw [core_setScriptData, h.core]
  · intro k hk
    rw [← h.length] at hk
    rw [scriptAt_setScriptData hk]
    by_cases hik : i = k
    · rw [if_pos hik, if_pos hik.symm]
    · rw [if_neg hik, if_neg (Ne.symm hik), h.scripts k]
      rfl

theorem Blank.scriptedDigest {t : Transaction} (h : Blank tx t) (i : Nat) (script : Data) :
    scriptedDigest c t i script = scriptedDigest c tx i script := witnessDigest_congr c h.core i script

/-! ## The keys of one input -/

theorem LegacyAdded.congr {i : Nat} {st t : AddState} {p q : Prop} (h : LegacyAdded tx signature i st p t) (hpq : p ↔ q) :
    LegacyAdded tx signature i st q t := by
  obtain rfl := propext hpq
  exact h

theorem WitnessAdded.congr {i : Nat} {st t : AddState} {p q : Prop} (h : WitnessAdded tx i st p t) (hpq : p ↔ q) :
    WitnessAdded tx i st q t := by
  obtain rfl := propext hpq
  exact h

theorem stacks_setScriptData (t : Transaction) (i : Nat) (d : Data) (j : Nat) :
    (t.setScriptData i d).inputs[j]?.map TransactionInput.witnessStack = t.inputs[j]?.map TransactionInput.witnessStack := by
  rw [Transaction.setScriptData, getElem?_modifyInput]
  split
  · rw [Option.map_map]
    rfl
  · rfl

/-- A key at a position other than `i` is not accepted; the one at `i` writes under `i`. -/
theorem addLegacySignature_step {i j : Nat} {input : TransactionInput} {key : Data} {st t : AddState} {added : Prop}
    (h : LegacyAdded tx signature i st added t) (hdone : added → j ≠ i)
    (hown : acceptsLegacy c tx signature i input key = true → j = i) :
    LegacyAdded tx signature i st
      (added ∨ (j = i ∧ acceptsLegacy c tx signature i input key = true))
      (addLegacySignature c signature i input.fundingOutput.script j key t) := by
  unfold addLegacySignature
  dsimp only
  have haccepts : verify c signature (legacyDigest tx i input.fundingOutput.script) key =
      acceptsLegacy c tx signature i input key := rfl
  rw [h.blank.digest, haccepts]
  by_cases hacc : acceptsLegacy c tx signature i input key = true
  · obtain rfl := hown hacc
    have hnot : ¬ added := fun hd => hdone hd rfl
    rw [if_pos hacc]
    constructor
    · exact h.blank.setScriptData_none j
    · intro k
      rw [stacks_setScriptData, h.witness k]
    · intro _
      rw [find_addCopy, if_pos rfl, dictionaryGetValue, dictionaryGetValue, h.there j fun _ => hnot]
    · intro k hk
      have hkj : k ≠ j := fun hkj => hk hkj (Or.inr ⟨rfl, hacc⟩)
      rw [find_addCopy, if_neg hkj]
      exact h.there k fun hkj' => absurd hkj' hkj
    · intro k
      rw [List.mem_append, List.mem_singleton, h.result k]
      constructor
      · intro hk
        rcases hk with (hk | ⟨_, hk⟩) | hk
        · exact Or.inl hk
        · exact absurd hk hnot
        · exact Or.inr ⟨hk, Or.inr ⟨rfl, hacc⟩⟩
      · intro hk
        rcases hk with hk | ⟨hk, _⟩
        · exact Or.inl (Or.inl hk)
        · exact Or.inr hk
  · rw [if_neg hacc]
    have hiff : (added ∨ (j = i ∧ acceptsLegacy c tx signature i input key = true)) ↔ added := by
      simp [hacc]
    constructor
    · exact h.blank.setScriptData_none i
    · intro k
      rw [stacks_setScriptData, h.witness k]
    · intro hd
      exact h.here (hiff.mp hd)
    · intro k hk
      exact h.there k fun hki hd => hk hki (hiff.mpr hd)
    · intro k
      rw [h.result k, hiff]

theorem addLegacySignatures_spec {i : Nat} {input : TransactionInput} {st : AddState} (hb : Blank tx st.transaction)
    (hown : ∀ j key, (legacyCandidates input)[j]? = some key → acceptsLegacy c tx signature i input key = true → j = i) :
    LegacyAdded tx signature i st (LegacyAccepted c tx signature i input)
      (addLegacySignatures c signature i input.fundingOutput.script (legacyCandidates input) st) := by
  have hloop : LegacyAdded tx signature i st
      (∃ j ∈ (List.range (legacyCandidates input).length).reverse, j = i ∧
        acceptsLegacy c tx signature i input ((legacyCandidates input).getD j none) = true)
      (addLegacySignatures c signature i input.fundingOutput.script (legacyCandidates input) st) := by
    unfold addLegacySignatures
    refine foldl_rule (fun pre t => LegacyAdded tx signature i st
      (∃ j ∈ pre, j = i ∧ acceptsLegacy c tx signature i input ((legacyCandidates input).getD j none) = true) t) ?_ ?_
    · constructor
      · exact hb
      · intro j; rfl
      · intro ⟨j, hj, _⟩; cases hj
      · intro j _; rfl
      · intro j
        simp
    · intro pre x post hl t ht
      have hnodup : (pre ++ x :: post).Nodup := by
        rw [← hl]
        exact List.pairwise_reverse.mpr (List.nodup_range.imp Ne.symm)
      have hx : x ∉ pre := by
        intro hmem
        exact (List.nodup_append.mp hnodup).2.2 x hmem x List.mem_cons_self rfl
      have hlt : x < (legacyCandidates input).length := by
        have : x ∈ (List.range (legacyCandidates input).length).reverse := by rw [hl]; simp
        exact List.mem_range.mp (List.mem_reverse.mp this)
      have hget : (legacyCandidates input)[x]? = some ((legacyCandidates input).getD x none) := by
        rw [List.getD_eq_getElem _ _ hlt]
        exact List.getElem?_eq_getElem hlt
      have hnew : (∃ j ∈ pre, j = i ∧
          acceptsLegacy c tx signature i input ((legacyCandidates input).getD j none) = true) → x ≠ i := by
        intro ⟨j, hj, hji, _⟩ hxi
        rw [hji, ← hxi] at hj
        exact hx hj
      have hstep := addLegacySignature_step ht hnew fun hacc => hown x _ hget hacc
      refine hstep.congr ?_
      constructor
      · intro h
        rcases h with ⟨j, hj, h⟩ | h
        · exact ⟨j, List.mem_append_left _ hj, h⟩
        · exact ⟨x, List.mem_append_right _ (List.mem_singleton.mpr rfl), h⟩
      · intro ⟨j, hj, h⟩
        rcases List.mem_append.mp hj with hj | hj
        · exact Or.inl ⟨j, hj, h⟩
        · obtain rfl := List.mem_singleton.mp hj
          exact Or.inr h
  refine hloop.congr ?_
  constructor
  · intro ⟨j, hj, _, hacc⟩
    have hlt := List.mem_range.mp (List.mem_reverse.mp hj)
    rw [List.getD_eq_getElem _ _ hlt] at hacc
    exact ⟨_, List.getElem_mem hlt, hacc⟩
  · intro ⟨key, hkey, hacc⟩
    obtain ⟨j, hlt, rfl⟩ := List.getElem_of_mem hkey
    refine ⟨j, List.mem_reverse.mpr (List.mem_range.mpr hlt), hown j _ (List.getElem?_eq_getElem hlt) hacc, ?_⟩
    rwa [List.getD_eq_getElem _ _ hlt]

theorem addWitnessSignature_step {i : Nat} {script key : Data} {st t : AddState} {added : Prop}
    (hi : i < tx.inputs.length) (h : WitnessAdded tx i st added t) :
    WitnessAdded tx i st (added ∨ verify c signature (scriptedDigest c tx i script) key = true)
      (addWitnessSignature c signature i script key t) := by
  unfold addWitnessSignature
  have hlt : i < t.transaction.inputs.length := by rw [h.blank.length]; exact hi
  rw [List.getElem?_eq_getElem hlt]
  dsimp only
  rw [h.blank.scriptedDigest]
  by_cases hacc : verify c signature (scriptedDigest c tx i script) key = true
  · rw [if_pos hacc]
    constructor
    · exact h.blank.setWitnessStack _ _
    · exact h.scriptSigs
    · intro j hj
      have hji : i ≠ j := fun hij => hj hij.symm (Or.inr hacc)
      rw [Transaction.setWitnessStack, getElem?_modifyInput, if_neg hji]
      exact h.witness j fun hij => absurd hij.symm hji
    · intro j
      rw [List.mem_append, List.mem_singleton, h.result j]
      constructor
      · intro hj
        rcases hj with (hj | ⟨hj, hadd⟩) | hj
        · exact Or.inl hj
        · exact Or.inr ⟨hj, Or.inl hadd⟩
        · exact Or.inr ⟨hj, Or.inr hacc⟩
      · intro hj
        rcases hj with hj | ⟨hj, _⟩
        · exact Or.inl (Or.inl hj)
        · exact Or.inr hj
  · rw [if_neg hacc]
    refine h.congr ?_
    rw [or_iff_left hacc]

theorem addWitnessSignatures_spec (c : Crypto) (signature : Data) {i : Nat} (input : TransactionInput) {st : AddState} (hi : i < tx.inputs.length)
    (hb : Blank tx st.transaction) :
    WitnessAdded tx i st (WitnessAccepted c tx signature i input)
      ((allPubKeys (datasLast input.witnessStack)).foldl
        (fun st pubKey => addWitnessSignature c signature i (datasLast input.witnessStack) pubKey st)
        (addWitnessSignature c signature i (some (p2wpkhImpliedScript c (datasLast input.witnessStack)))
          (datasLast input.witnessStack) st)) := by
  have hstart : WitnessAdded tx i st False st := by
    constructor
    · exact hb
    · rfl
    · intro j _; rfl
    · intro j
      simp
  refine foldl_rule (fun pre t => WitnessAdded tx i st (acceptsKeyHash c tx signature i input = true ∨
    ∃ key ∈ pre, acceptsWitness c tx signature i input key = true) t) ?_ ?_
  · refine (addWitnessSignature_step hi hstart).congr ?_
    simp [acceptsKeyHash]
  · intro pre key post _ t ht
    refine (addWitnessSignature_step hi ht).congr ?_
    constructor
    · intro h
      rcases h with (h | ⟨k, hk, h⟩) | h
      · exact Or.inl h
      · exact Or.inr ⟨k, List.mem_append_left _ hk, h⟩
      · exact Or.inr ⟨key, List.mem_append_right _ (List.mem_singleton.mpr rfl), h⟩
    · intro h
      rcases h with h | ⟨k, hk, h⟩
      · exact Or.inl (Or.inl h)
      · rcases List.mem_append.mp hk with hk | hk
        · exact Or.inl (Or.inr ⟨k, hk, h⟩)
        · obtain rfl := List.mem_singleton.mp hk
          exact Or.inr h

/-! ## The loop over the inputs -/

theorem Added.start (hb : ∀ input ∈ tx.inputs, (transactionInputType input).isLegacy = false → input.scriptData.toBytes = []) :
    Added c tx signature 0
      { transaction := clearScriptSigs tx, scriptSigs := stashScriptSigs tx, result := [] } := by
  have hget : ∀ k : Nat, (clearScriptSigs tx).inputs[k]? = tx.inputs[k]?.map clearScriptSig := by
    intro k
    rw [clearScriptSigs, List.getElem?_map]
  constructor
  · refine ⟨core_clearScriptSigs tx, fun k => ?_⟩
    rw [scriptAt, hget, Option.map_map]
    cases hk : tx.inputs[k]? with
    | none => rfl
    | some input =>
      have hmem := List.mem_of_getElem? hk
      simp only [Option.map_some, Function.comp_apply, Option.getD_some, clearScriptSig]
      cases hl : (transactionInputType input).isLegacy with
      | true => rfl
      | false => exact hb input hmem hl
  · intro j input hj _
    simp only [hget, hj, Option.map_some, clearScriptSig]
    split <;> rfl
  · intro j _ _ hlt
    omega
  · intro j input hj _
    dsimp only
    rw [find_stash, hj, Option.bind_some]
  · intro j hj
    dsimp only
    rw [find_stash, hj, Option.bind_none]
  · intro j
    simp

theorem addSignatureToInput_step (ha : Aligned c tx signature) {k : Nat} (hk : k < tx.inputs.length) {st : AddState}
    (h : Added c tx signature k st) : Added c tx signature (k + 1) (addSignatureToInput c signature k st) := by
  have hlt : k < st.transaction.inputs.length := by rw [h.blank.length]; exact hk
  obtain ⟨input, hin⟩ : ∃ input, tx.inputs[k]? = some input := ⟨_, List.getElem?_eq_getElem hk⟩
  obtain ⟨x, hx⟩ : ∃ x, st.transaction.inputs[k]? = some x := ⟨_, List.getElem?_eq_getElem hlt⟩
  have hcore : x.core = input.core := by
    obtain ⟨y, hy, hxy⟩ := core_input h.blank.core hx
    rw [hin] at hy
    rw [hxy, Option.some.inj hy]
  have hfund : x.fundingOutput = input.fundingOutput := fundingOutput_of_core hcore
  have hstack : x.witnessStack = input.witnessStack := by
    have := h.witness k input hin fun hkk => by omega
    rw [hx, Option.map_some] at this
    exact Option.some.inj this
  have hsig : dictionaryGetValue st.scriptSigs k = stashedScriptSig input := by
    rw [dictionaryGetValue, h.kept k input hin fun hkk => by omega]
    rfl
  have hkeys : mainPubKeys (dictionaryGetValue st.scriptSigs k) x = legacyCandidates input := by
    rw [hsig, legacyCandidates, mainPubKeys, mainPubKeys, hfund]
  have hlegacy := addLegacySignatures_spec h.blank fun j key => ha.own k input j key hin
  have hwitness := addWitnessSignatures_spec c signature input hk hlegacy.blank
  unfold addSignatureToInput
  rw [hx]
  dsimp only
  rw [hkeys, hfund, hstack]
  generalize addLegacySignatures c signature k input.fundingOutput.script (legacyCandidates input) st = t at hlegacy hwitness ⊢
  constructor
  · exact hwitness.blank
  · intro j other hj hnot
    rw [hwitness.witness, hlegacy.witness]
    · exact h.witness j other hj fun hjk => hnot (by omega)
    · intro hjk
      subst hjk
      obtain rfl := Option.some.inj (hin.symm.trans hj)
      exact hnot (by omega)
  · intro j other hj hjk hacc
    rw [hwitness.scriptSigs]
    by_cases hjk' : j = k
    · subst hjk'
      obtain rfl := Option.some.inj (hin.symm.trans hj)
      rw [hlegacy.here hacc, hsig]
    · rw [hlegacy.there j fun hjk'' => absurd hjk'' hjk']
      exact h.written j other hj (by omega) hacc
  · intro j other hj hnot
    rw [hwitness.scriptSigs, hlegacy.there]
    · exact h.kept j other hj fun hjk => hnot (by omega)
    · intro hjk
      subst hjk
      obtain rfl := Option.some.inj (hin.symm.trans hj)
      exact hnot (by omega)
  · intro j hj
    have hjk : j ≠ k := by
      intro hjk
      rw [hjk, hin] at hj
      cases hj
    rw [hwitness.scriptSigs, hlegacy.there j fun hjk' => absurd hjk' hjk, h.inside j hj]
  · intro j
    rw [hwitness.result, hlegacy.result, h.result]
    constructor
    · intro hj
      rcases hj with (⟨other, hj, hjk, hbel⟩ | ⟨hjk, hacc⟩) | ⟨hjk, hacc⟩
      · exact ⟨other, hj, by omega, hbel⟩
      · exact ⟨input, by rw [hjk, hin], by omega, by rw [hjk]; exact Or.inl hacc⟩
      · exact ⟨input, by rw [hjk, hin], by omega, by rw [hjk]; exact Or.inr hacc⟩
    · intro ⟨other, hj, hjk, hbel⟩
      by_cases hjk' : j = k
      · subst hjk'
        obtain rfl := Option.some.inj (hin.symm.trans hj)
        rcases hbel with hacc | hacc
        · exact Or.inl (Or.inr ⟨rfl, hacc⟩)
        · exact Or.inr ⟨rfl, hacc⟩
      · exact Or.inl (Or.inl ⟨other, hj, by omega, hbel⟩)

theorem stashedScriptSig_legacy {input : TransactionInput} (h : (transactionInputType input).isLegacy = true) :
    stashedScriptSig input = input.scriptData := by
  unfold stashedScriptSig stashed
  rw [h]
  cases input.scriptData <;> rfl

/-- On aligned inputs the call touches exactly the inputs the signature belongs to. -/
theorem addSignature_exact (ha : Aligned c tx signature) : AddsExactly c tx signature := by
  have hrun : Added c tx signature tx.inputs.length
      (forRange tx.inputs.length (addSignatureToInput c signature)
        { transaction := clearScriptSigs tx, scriptSigs := stashScriptSigs tx, result := [] }) :=
    forRange_rule (Added c tx signature) (Added.start ha.blank) fun i hi t ht => addSignatureToInput_step ha hi ht
  unfold AddsExactly transactionAddSignature
  dsimp only
  generalize forRange tx.inputs.length (addSignatureToInput c signature) _ = st at hrun ⊢
  have hkeys : ∀ k, dictionaryFind st.scriptSigs k ≠ none → k < st.transaction.inputs.length := by
    intro k hk
    rw [hrun.blank.length]
    by_contra hge
    exact hk (hrun.inside k (List.getElem?_eq_none (by omega)))
  rw [restoreScriptSigs_eq hkeys]
  refine ⟨_, _, rfl, fun i input hi => ?_⟩
  have hlt : i < tx.inputs.length := (List.getElem?_eq_some_iff.mp hi).1
  obtain ⟨x, hx⟩ : ∃ x, st.transaction.inputs[i]? = some x :=
    ⟨_, List.getElem?_eq_getElem (by rw [hrun.blank.length]; exact hlt)⟩
  refine ⟨restoredBy (dictionaryFind st.scriptSigs i) x, by rw [List.getElem?_mapIdx, hx]; rfl, ?_⟩
  have hwrites : LegacyAccepted c tx signature i input → (restoredBy (dictionaryFind st.scriptSigs i) x).scriptData =
      some (writePushes (readPushes (stashedScriptSig input) ++ [signature])) := by
    intro hacc
    rw [hrun.written i input hi hlt hacc]
    rfl
  constructor
  · intro hchanged
    by_contra hnot
    unfold BelongsTo at hnot
    rw [not_or] at hnot
    rcases hchanged with hscript | hstack
    · apply hscript
      rw [hrun.kept i input hi fun _ => hnot.1]
      have hblank := hrun.blank.scripts i
      simp only [scriptAt, hx, Option.map_some, Option.getD_some] at hblank
      unfold stashed
      cases hl : (transactionInputType input).isLegacy with
      | true =>
        cases hs : input.scriptData with
        | none => exact hblank
        | some b => rfl
      | false =>
        rw [Bool.false_and, if_neg Bool.false_ne_true, ha.blank input (List.mem_of_getElem? hi) hl]
        exact hblank
    · apply hstack
      have hkept := hrun.witness i input hi fun _ => hnot.2
      rw [hx, Option.map_some] at hkept
      rw [← Option.some.inj hkept]
      unfold restoredBy
      split <;> rfl
  · rw [mem_trimDuplicateInstances, hrun.result]
    constructor
    · rintro ⟨other, hother, _, hbel⟩
      rwa [Option.some.inj (hi.symm.trans hother)]
    · intro hbel
      exact ⟨input, hi, hlt, hbel⟩
  · intro htype hacc
    rw [hwrites hacc, stashedScriptSig_legacy (by rw [htype]; rfl)]
  · intro htype hacc
    exact absurd hacc (ha.noKeyHash i input hi htype)

/-! ## One pay-to-pubkey input, one pay-to-pubkey-hash input -/

def samplePrivKey : Data := some (List.replicate 32 0x01)

def samplePubKey : Data := pubKey plainCrypto samplePrivKey

def legacySpend (fundingScript : Bytes) (scriptData : Data) : Transaction :=
  ⟨1, [⟨⟨some fundingScript, 5000⟩, some (List.replicate 32 0xaa), 0, scriptData, 0xffffffff, [], 0⟩],
    [⟨some [0x51], 4000⟩], 0⟩

def pubkeySpend : Transaction := legacySpend (scriptPush samplePubKey ++ uint8D OP_CHECKSIG) none

def pubkeyHashSpend (scriptData : Data) : Transaction := legacySpend (p2pkhPubScriptFromPubKey plainCrypto samplePubKey) scriptData

def legacySignature (tx : Transaction) : Data :=
  signAll plainCrypto (legacyDigest tx 0 (tx.inputs.getD 0 default).fundingOutput.script) samplePrivKey

theorem addSignature_exact_pubkey : AddsExactly plainCrypto pubkeySpend (legacySignature pubkeySpend) := by
  have only : ∀ i input, pubkeySpend.inputs[i]? = some input → i = 0 ∧ input = pubkeySpend.inputs.getD 0 default := by
    intro i input hi
    have hlt := (List.getElem?_eq_some_iff.mp hi).1
    obtain rfl : i = 0 := by
      have : pubkeySpend.inputs.length = 1 := rfl
      omega
    exact ⟨rfl, (Option.some.inj hi).symm⟩
  have keys : legacyCandidates (pubkeySpend.inputs.getD 0 default) = [samplePubKey, none] := by decide +kernel
  have blank : ∀ input ∈ pubkeySpend.inputs, (transactionInputType input).isLegacy = false →
      input.scriptData.toBytes = [] := by decide +kernel
  refine addSignature_exact ⟨blank, ?_, ?_⟩
  · intro i input hi htype
    obtain ⟨-, rfl⟩ := only i input hi
    exact absurd htype (by decide +kernel)
  · intro i input j key hi hj hacc
    obtain ⟨rfl, rfl⟩ := only i input hi
    rw [keys] at hj
    match j with
    | 0 => rfl
    | 1 =>
      obtain rfl : none = key := Option.some.inj hj
      exact absurd hacc (by decide +kernel)
    | j + 2 => cases hj

/-- The signature of a pay-to-pubkey-hash input lands behind its key. -/
theorem not_addSignature_exact : ¬ ∀ (c : Crypto) (tx : Transaction) (signature : Data), AddsExactly c tx signature := by
  intro h
  have hrun : transactionAddSignature plainCrypto (pubkeyHashSpend (some (scriptPush samplePubKey)))
      (legacySignature (pubkeyHashSpend none)) =
        some (pubkeyHashSpend (some (scriptPush samplePubKey ++ scriptPush (legacySignature (pubkeyHashSpend none)))), [0]) := by
    decide +kernel
  obtain ⟨tx', affected, hrun', hexact⟩ := h plainCrypto (pubkeyHashSpend (some (scriptPush samplePubKey)))
    (legacySignature (pubkeyHashSpend none))
  obtain ⟨rfl, rfl⟩ := Prod.mk.inj (Option.some.inj (hrun.symm.trans hrun'))
  obtain ⟨input', hinput, hexact⟩ := hexact 0 _ rfl
  obtain rfl := Option.some.inj hinput
  have haccepted : acceptsLegacy plainCrypto (pubkeyHashSpend (some (scriptPush samplePubKey)))
      (legacySignature (pubkeyHashSpend none)) 0 ((pubkeyHashSpend (some (scriptPush samplePubKey))).inputs.getD 0 default)
        samplePubKey = true := by decide +kernel
  have hcandidate : samplePubKey ∈
      legacyCandidates ((pubkeyHashSpend (some (scriptPush samplePubKey))).inputs.getD 0 default) := by decide +kernel
  exact absurd (hexact.pubkeyHash (by decide +kernel) ⟨samplePubKey, hcandidate, haccepted⟩ samplePubKey rfl)
    (by decide +kernel)

end BitcoinSpoon
