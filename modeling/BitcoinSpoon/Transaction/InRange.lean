/-
  BitcoinSpoon.Transaction.InRange — which elements of a witness stack are read
  (`TransactionDigestsForFlexible`, `TransactionValidateSignature`, `TransactionAddSignature`,
  `code/Transaction.c`).

  The functions are stated again with every access to `witnessStack.ptr` checked, and the
  loop limit `count - 1` as the subtraction of a `uint32_t` that it is. Of an empty stack
  that limit is the greatest there is. Only the loop over the signed keys of
  `TransactionDigestsForFlexible` runs to it; the loops that check a signature are inside
  one over the tokens of the last element, and an empty stack has none.

  What the functions leave as script data depends on the input types: what is set aside of
  a legacy input comes back, and `TransactionAddSignature` clears the rest.
-/

import BitcoinSpoon.Transaction.AddSignature
import BitcoinSpoon.Transaction.Validate
import BitcoinSpoon.Util.ScriptNum

namespace BitcoinSpoon

open Wire Loop

variable (c : Crypto)

/-! ## Reading a stack -/

/-- `count - 1`. -/
def lastIndex (count : Nat) : Nat := (count + (2 ^ 32 - 1)) % 2 ^ 32

/-- `DatasLast`, with the access checked. -/
def datasLastAt (stack : Datas) : Option Data := if stack.length = 0 then some none else stack[lastIndex stack.length]?

/-- `DatasFirst`. -/
def datasFirstAt (stack : Datas) : Option Data := if stack.length = 0 then some none else stack[0]?

/-- What `for(int j = 0; j < stack.count - 1; j++)` reads. -/
def belowLast (stack : Datas) : Option Datas := (List.range (lastIndex stack.length)).mapM (stack[·]?)

theorem lastIndex_of_pos {count : Nat} (h0 : 0 < count) (h : count < 2 ^ 32) : lastIndex count = count - 1 := by
  unfold lastIndex
  omega

variable {stack : Datas}

theorem datasLastAt_eq (h : stack.length < 2 ^ 32) : datasLastAt stack = some (datasLast stack) := by
  unfold datasLastAt datasLast
  split
  · rename_i h0
    rw [List.eq_nil_of_length_eq_zero h0]
    rfl
  · rename_i h0
    have hpos : 0 < stack.length := Nat.pos_of_ne_zero h0
    rw [lastIndex_of_pos hpos h, List.getLast?_eq_getElem?, List.getElem?_eq_getElem (by omega)]
    rfl

theorem datasFirstAt_eq : datasFirstAt stack = some (datasFirst stack) := by
  unfold datasFirstAt datasFirst
  cases stack <;> rfl

theorem mapM_getElem? {stack : Datas} {n : Nat} (h : n ≤ stack.length) :
    (List.range n).mapM (fun j => stack[j]?) = some (stack.take n) := by
  induction n with
  | zero => rfl
  | succ n ih =>
    rw [List.range_succ, List.mapM_append, ih (by omega), List.take_succ_eq_append_getElem (by omega)]
    simp [List.getElem?_eq_getElem (show n < stack.length by omega)]

/-- The loop reads every element but the last, and none of an empty stack is there. -/
theorem belowLast_eq (h : stack.length < 2 ^ 32) : belowLast stack = if stack = [] then none else some stack.dropLast := by
  unfold belowLast
  split
  · rename_i hnil
    have hlimit : lastIndex stack.length = (2 ^ 32 - 2) + 1 := by rw [hnil]; rfl
    rw [hlimit, List.range_succ_eq_map, hnil]
    rfl
  · rename_i hnil
    have hpos : 0 < stack.length := List.length_pos_iff.mpr hnil
    rw [lastIndex_of_pos hpos h, mapM_getElem? (by omega), List.dropLast_eq_take]

/-! ## The functions with checked accesses -/

/-- One input of `TransactionDigestsForFlexible`. -/
def witnessDigestsAt (thePubKey : Data) (exceptSigned : Bool) (i : Nat) (tx : Transaction) : Option Datas :=
  match tx.inputs[i]? with
  | none => some []
  | some input => do
    let last ← datasLastAt input.witnessStack
    let keyHash :=
      if dataEqual last thePubKey then [scriptedDigest c tx i (some (p2wpkhImpliedScript c thePubKey))] else []
    let digest := scriptedDigest c tx i last
    let below ← if exceptSigned then belowLast input.witnessStack else some []
    let signed := below.any fun sig => verify c sig digest thePubKey
    let script := (allPubKeys last).filter fun key => dataEqual key thePubKey && !signed
    some (keyHash ++ script.map fun _ => digest)

def digestsForInputsAt (thePubKey : Data) (exceptSigned : Bool) (scriptSigs : Dictionary Nat) :
    List Nat → Transaction → Option (Transaction × Datas)
  | [], tx => some (tx, [])
  | i :: rest, tx => do
    let (tx, legacy) := legacyDigestFor thePubKey (dictionaryGetValue scriptSigs i) i tx
    let witness ← witnessDigestsAt c thePubKey exceptSigned i tx
    let (tx, more) ← digestsForInputsAt thePubKey exceptSigned scriptSigs rest tx
    some (tx, legacy ++ witness ++ more)

def transactionDigestsForFlexibleAt (tx : Transaction) (thePubKey : Data) (exceptSigned : Bool) : Option (Transaction × Datas) := do
  let scriptSigs := stashScriptSigs tx
  let (tx, result) ← digestsForInputsAt c thePubKey exceptSigned scriptSigs (List.range tx.inputs.length) (clearScriptSigs tx)
  let tx ← restoreScriptSigs scriptSigs tx
  some (tx, distinctDatas result)

def validateCheckSigAt (witnessStack : Datas) (digest : Data) (tokens : ScriptTokens) (j : Nat) : Option Bool := do
  let pubKey := if 0 < j then (scriptTokenI tokens (j - 1)).data else none
  let below ← belowLast witnessStack
  some (below.any fun sig => verify c sig digest pubKey)

def validateCheckMultisigAt (witnessStack : Datas) (digest : Data) (tokens : ScriptTokens) (j : Nat) : Option Bool :=
  if j = 0 then some false
  else
    let numPubKeys : Int := 1 + (scriptTokenI tokens (j - 1)).op - OP_1
    let tokenIndex : Int := j - 2
    if numPubKeys < 1 ∨ 16 < numPubKeys ∨ tokenIndex - numPubKeys - 1 < 0 then some false
    else
      let pubKeys := multisigKeysBefore tokens j numPubKeys.toNat
      let numSigs : Int := 1 + (scriptTokenI tokens (j - 2 - numPubKeys.toNat)).op - OP_1
      if numSigs < 1 ∨ 16 < numSigs then some false
      else do
        let validSignatures ← pubKeys.mapM fun thePubKey => do
          let below ← belowLast witnessStack
          some (below.filter fun sig => verify c sig digest thePubKey).length
        some ((validSignatures.sum : Int) = numSigs)

def validateTokenAt (witnessStack : Datas) (digest : Data) (tokens : ScriptTokens) (j : Nat) : Option Bool :=
  let op := (scriptTokenI tokens j).op
  if isCheckSig op then validateCheckSigAt c witnessStack digest tokens j
  else if isCheckMultisig op then validateCheckMultisigAt c witnessStack digest tokens j
  else some true

/-- `TransactionValidateSignature` of an input that is there. -/
def transactionValidateSignatureAt (tx : Transaction) (i : Nat) : Option (Bool × Transaction) := do
  let input ← tx.inputs[i]?
  let oldValue := input.scriptData
  let last ← datasLastAt input.witnessStack
  let first ← datasFirstAt input.witnessStack
  let keyHash := tx.setScriptData i (some (p2wpkhImpliedScript c last))
  if input.witnessStack.length = 2 ∧ verify c first (transactionWitnessDigest c keyHash i) last then
    some (true, keyHash.setScriptData i oldValue)
  else
    let scripted := (if input.witnessStack.length = 2 then keyHash else tx).setScriptData i last
    let digest := transactionWitnessDigest c scripted i
    let tokens := scriptToTokens last
    let valid ← (List.range tokens.length).allM (validateTokenAt c input.witnessStack digest tokens)
    some (valid, scripted.setScriptData i oldValue)

def validateFromAt : List Nat → Transaction → Option (Bool × Transaction)
  | [], tx => some (true, tx)
  | i :: rest, tx => do
    let (valid, tx) ← transactionValidateSignatureAt c tx i
    if valid then validateFromAt rest tx else some (false, tx)

def transactionValidateSignaturesAt (tx : Transaction) : Option (Bool × Transaction) :=
  validateFromAt c (List.range tx.inputs.length) tx

/-- One input of `TransactionAddSignature`. The stack is read again after the first key. -/
def addSignatureToInputAt (signature : Data) (st : AddState) (i : Nat) : Option AddState := do
  let input ← st.transaction.inputs[i]?
  let keys := mainPubKeys (dictionaryGetValue st.scriptSigs i) input
  let st := addLegacySignatures c signature i input.fundingOutput.script keys st
  let last ← datasLastAt input.witnessStack
  let st := addWitnessSignature c signature i (some (p2wpkhImpliedScript c last)) last st
  let input ← st.transaction.inputs[i]?
  let last ← datasLastAt input.witnessStack
  some ((allPubKeys last).foldl (fun st pubKey => addWitnessSignature c signature i last pubKey st) st)

/-- The loop over the inputs. -/
def addSignaturesAt (tx : Transaction) (signature : Data) : Option AddState :=
  (List.range tx.inputs.length).foldlM (addSignatureToInputAt c signature)
    { transaction := clearScriptSigs tx, scriptSigs := stashScriptSigs tx, result := [] }

/-! ## Inputs that are not legacy -/

/-- Pushes alone name no key. -/
theorem allPubKeys_of_pushes {script : Data} (h : ∀ token ∈ scriptToTokens script, token.op ≤ OP_PUSHDATA4) :
    allPubKeys script = [] := by
  have hquiet : ∀ i < (scriptToTokens script).length, isCheckSig (scriptTokenI (scriptToTokens script) i).op = false ∧
      isCheckMultisig (scriptTokenI (scriptToTokens script) i).op = false := by
    intro i hi
    have hop : (scriptTokenI (scriptToTokens script) i).op ≤ OP_PUSHDATA4 := by
      rw [scriptTokenI, List.getD_eq_getElem _ _ hi]
      exact h _ (List.getElem_mem hi)
    have hbig : OP_PUSHDATA4 < OP_CHECKSIG ∧ OP_PUSHDATA4 < OP_CHECKSIGVERIFY ∧ OP_PUSHDATA4 < OP_CHECKMULTISIG ∧
        OP_PUSHDATA4 < OP_CHECKMULTISIGVERIFY := by decide
    unfold isCheckSig isCheckMultisig
    rw [Bool.or_eq_false_iff, Bool.or_eq_false_iff]
    refine ⟨⟨?_, ?_⟩, ?_, ?_⟩ <;> rw [decide_eq_false_iff_not] <;> omega
  unfold allPubKeys
  refine foldl_inv (fun array => array = []) rfl fun i hi array harray => ?_
  obtain ⟨hsig, hmulti⟩ := hquiet i (List.mem_range.mp hi)
  simp [harray, checkSigPubKeys, hasPubKeyCount, hsig, hmulti]

/-- A version byte and a hash. -/
theorem allPubKeys_program {script : Data} {k : Nat} (hk : pushData k = [UInt8.ofNat k]) (hsmall : k < 2 ^ 32)
    (hlength : script.toBytes.length = k + 2) (hversion : (script.toBytes.getD 0 0).toNat = 0)
    (hpush : (script.toBytes.getD 1 0).toNat = k) : allPubKeys script = [] := by
  obtain ⟨x, y, hash, hbytes⟩ : ∃ x y hash, script.toBytes = x :: y :: hash := by
    match hb : script.toBytes with
    | [] => rw [hb] at hlength; cases hlength
    | [x] => rw [hb] at hlength; simp at hlength
    | x :: y :: hash => exact ⟨x, y, hash, rfl⟩
  rw [hbytes] at hlength hversion hpush
  have hx : x = 0 := UInt8.toNat_inj.mp hversion
  have hhash : hash.length = k := by simpa using hlength
  have hy : UInt8.ofNat k = y := by
    rw [← hpush]
    exact UInt8.ofNat_toNat
  have hpushed : (0 : UInt8) :: y :: hash = scriptPush (some []) ++ (scriptPush (some hash) ++ []) := by
    rw [scriptPush, scriptPush, length_some, length_some, hhash, hk, hy, List.append_nil]
    rfl
  rw [hx, hpushed] at hbytes
  obtain ⟨first, hfirst, _, htokens⟩ := scriptToTokens_scriptPush (d := some []) (by decide) (scriptPush (some hash) ++ [])
  obtain ⟨second, hsecond, _, htokens'⟩ := scriptToTokens_scriptPush (d := some hash)
    (by rw [length_some, hhash]; exact hsmall) []
  have hnil : scriptToTokens (some []) = [] := rfl
  rw [allPubKeys_congr (b := some (scriptPush (some []) ++ (scriptPush (some hash) ++ []))) hbytes]
  refine allPubKeys_of_pushes fun token htoken => ?_
  rw [htokens, htokens', hnil] at htoken
  rcases List.mem_cons.mp htoken with rfl | htoken
  · exact hfirst
  · rw [List.mem_singleton.mp htoken]
    exact hsecond

theorem allPubKeys_fundingScript {input : TransactionInput} (h : (transactionInputType input).isLegacy = false) :
    allPubKeys input.fundingOutput.script = [] := by
  unfold transactionInputType at h
  dsimp only at h
  split at h
  · rename_i h0
    rw [allPubKeys_congr (b := none) (List.eq_nil_of_length_eq_zero h0)]
    rfl
  split at h
  · cases h
  split at h
  · rename_i hprogram
    exact allPubKeys_program (k := 20) rfl (by decide) hprogram.2.1 hprogram.1 hprogram.2.2
  split at h
  · rename_i hprogram
    exact allPubKeys_program (k := 32) rfl (by decide) hprogram.2.1 hprogram.1 hprogram.2.2
  split at h <;> cases h

/-- No key but the empty one is taken for that of an input that is not legacy. -/
theorem mainPubKeys_none {input : TransactionInput} (h : (transactionInputType input).isLegacy = false) :
    mainPubKeys none input = [none] := by
  have hnone : allPubKeys (datasLast (readPushes none)) = [] := rfl
  rw [mainPubKeys, allPubKeys_fundingScript h, hnone]
  rfl

/-! ## The script data that comes back -/

def scriptBytes (input : TransactionInput) : Bytes := input.scriptData.toBytes

def KeepsScripts (tx tx' : Transaction) : Prop := ∀ k : Nat, tx'.inputs[k]?.map scriptBytes = tx.inputs[k]?.map scriptBytes

/-- No input but a legacy one has script data. -/
def OnlyLegacyScripts (tx : Transaction) : Prop :=
  ∀ (k : Nat) (input : TransactionInput), tx.inputs[k]? = some input → (transactionInputType input).isLegacy = false →
    scriptBytes input = []

/-- No stack is longer than an `int` counts. -/
def ShortStacks (tx : Transaction) : Prop :=
  ∀ (k : Nat) (input : TransactionInput), tx.inputs[k]? = some input → input.witnessStack.length < 2 ^ 31

variable {c : Crypto} {tx t : Transaction} {thePubKey : Data} {exceptSigned : Bool} {signature : Data}

theorem ShortStacks.setScriptData (h : ShortStacks tx) (i : Nat) (d : Data) : ShortStacks (tx.setScriptData i d) := by
  intro k input hk
  have hstack := stacks_setScriptData tx i d k
  rw [hk, Option.map_some] at hstack
  obtain ⟨x, hx, hstack⟩ := Option.map_eq_some_iff.mp hstack.symm
  exact hstack ▸ h k x hx

/-- What was set aside is put back, and the other inputs stay as they are. -/
theorem keepsScripts_restored (hcore : t.core = tx.core)
    (hlegacy : ∀ k input, tx.inputs[k]? = some input → (transactionInputType input).isLegacy = true → scriptAt t k = none) :
    ∃ tx', restoreScriptSigs (stashScriptSigs tx) t = some tx' ∧
      (KeepsScripts tx tx' ↔
        ∀ k input, tx.inputs[k]? = some input → (transactionInputType input).isLegacy = false →
          (scriptAt t k).toBytes = scriptBytes input) := by
  have hinside : ∀ k, dictionaryFind (stashScriptSigs tx) k ≠ none → k < t.inputs.length := by
    intro k hk
    rw [core_length hcore]
    rw [find_stash] at hk
    cases hx : tx.inputs[k]? with
    | none => rw [hx] at hk; exact absurd rfl hk
    | some input => exact (List.getElem?_eq_some_iff.mp hx).1
  refine ⟨_, restoreScriptSigs_eq hinside, ?_⟩
  -- what input `k` has in the end
  have hscript : ∀ k input, tx.inputs[k]? = some input →
      (({ t with inputs := t.inputs.mapIdx fun k => restoredBy (dictionaryFind (stashScriptSigs tx) k) } :
        Transaction).inputs[k]?.map scriptBytes =
          some (if (transactionInputType input).isLegacy then scriptBytes input else (scriptAt t k).toBytes)) := by
    intro k input hk
    have hlt : k < t.inputs.length := core_length hcore ▸ (List.getElem?_eq_some_iff.mp hk).1
    have hat : scriptAt t k = t.inputs[k].scriptData := by rw [scriptAt, List.getElem?_eq_getElem hlt]; rfl
    rw [List.getElem?_mapIdx, List.getElem?_eq_getElem hlt, find_stash, hk, Option.map_some, Option.map_some, Option.bind_some, stashed]
    by_cases hl : (transactionInputType input).isLegacy = true
    · rw [if_pos hl, hl, Bool.true_and, scriptBytes, scriptBytes]
      cases hd : input.scriptData with
      | none =>
        have hnone := hlegacy k input hk hl
        rw [hat] at hnone
        exact congrArg (fun d : Data => some d.toBytes) hnone
      | some d => rfl
    · rw [if_neg hl, if_neg (by simp [hl]), hat]
      rfl
  constructor
  · intro hkeeps k input hk hl
    have heq := (hscript k input hk).symm.trans (hkeeps k)
    rw [hk, if_neg (by simp [hl])] at heq
    exact Option.some.inj heq
  · intro hrest k
    cases hk : tx.inputs[k]? with
    | none =>
      have hle : t.inputs.length ≤ k := core_length hcore ▸ List.getElem?_eq_none_iff.mp hk
      rw [List.getElem?_mapIdx, List.getElem?_eq_none hle]
      rfl
    | some input =>
      rw [hscript k input hk, Option.map_some]
      by_cases hl : (transactionInputType input).isLegacy = true
      · rw [if_pos hl]
      · rw [if_neg hl, hrest k input hk (Bool.eq_false_iff.mpr hl)]

theorem scriptAt_clearScriptSigs {k : Nat} {input : TransactionInput} (hk : tx.inputs[k]? = some input) :
    scriptAt (clearScriptSigs tx) k = if (transactionInputType input).isLegacy then none else input.scriptData := by
  rw [scriptAt, clearScriptSigs, List.getElem?_map, hk, Option.map_some, clearScriptSig]
  split <;> rfl

/-! ## `TransactionDigestsForFlexible` -/

theorem witnessDigestsAt_eq {i : Nat} (h : ShortStacks tx) :
    witnessDigestsAt c thePubKey exceptSigned i tx = witnessDigestsFor c thePubKey exceptSigned i tx := by
  unfold witnessDigestsAt witnessDigestsFor
  cases hi : tx.inputs[i]? with
  | none => rfl
  | some input =>
    have hlt : input.witnessStack.length < 2 ^ 32 := Nat.lt_trans (h i input hi) (by decide)
    dsimp only
    rw [datasLastAt_eq hlt, belowLast_eq hlt]
    cases exceptSigned with
    | false => rfl
    | true =>
      by_cases hnil : input.witnessStack = []
      · rw [hnil]
        rfl
      · rw [if_neg hnil, List.isEmpty_eq_false_iff.mpr hnil]
        rfl

theorem ShortStacks.legacyDigestFor (h : ShortStacks tx) (thePubKey scriptSig : Data) (i : Nat) :
    ShortStacks (legacyDigestFor thePubKey scriptSig i tx).1 := by
  unfold BitcoinSpoon.legacyDigestFor
  split
  · exact h
  · split
    · exact h.setScriptData i none
    · exact h

theorem digestsForInputsAt_eq (scriptSigs : Dictionary Nat) (indices : List Nat) (h : ShortStacks tx) :
    digestsForInputsAt c thePubKey exceptSigned scriptSigs indices tx =
      digestsForInputs c thePubKey exceptSigned scriptSigs indices tx := by
  induction indices generalizing tx with
  | nil => rfl
  | cons i rest ih =>
    have hnext := h.legacyDigestFor thePubKey (dictionaryGetValue scriptSigs i) i
    unfold digestsForInputsAt digestsForInputs
    dsimp only
    rw [witnessDigestsAt_eq hnext, ih hnext]

theorem witnessDigestsFor_eq_none {i : Nat} : witnessDigestsFor c thePubKey exceptSigned i tx = none ↔
    exceptSigned = true ∧ ∃ input, tx.inputs[i]? = some input ∧ input.witnessStack = [] := by
  unfold witnessDigestsFor
  cases hi : tx.inputs[i]? with
  | none => simp
  | some input =>
    dsimp only
    split
    · rename_i hempty
      rw [Bool.and_eq_true, List.isEmpty_iff] at hempty
      exact ⟨fun _ => ⟨hempty.1, input, rfl, hempty.2⟩, fun _ => rfl⟩
    · rename_i hempty
      rw [Bool.and_eq_true, List.isEmpty_iff] at hempty
      refine ⟨fun h => absurd h (Option.some_ne_none _), fun h => ?_⟩
      obtain ⟨hsigned, x, hx, hnil⟩ := h
      obtain rfl := Option.some.inj hx
      exact absurd ⟨hsigned, hnil⟩ hempty

/-- The key is one that a legacy signature of the input may be for. -/
def IsMainPubKey (thePubKey scriptSig : Data) (input : TransactionInput) : Prop :=
  (mainPubKeys scriptSig input).any (dataEqual · thePubKey) = true

/-- The transaction after the legacy digests of inputs `pre`. -/
structure LegacyDigested (thePubKey : Data) (scriptSigs : Dictionary Nat) (tx : Transaction) (pre : List Nat) (t : Transaction) : Prop where
  core : t.core = tx.core
  witness : ∀ k : Nat, t.inputs[k]?.map TransactionInput.witnessStack = tx.inputs[k]?.map TransactionInput.witnessStack
  matched : ∀ k input, tx.inputs[k]? = some input → k ∈ pre → IsMainPubKey thePubKey (dictionaryGetValue scriptSigs k) input →
    scriptAt t k = none
  kept : ∀ k input, tx.inputs[k]? = some input → (k ∈ pre → ¬ IsMainPubKey thePubKey (dictionaryGetValue scriptSigs k) input) →
    scriptAt t k = scriptAt tx k

theorem legacyDigestFor_step {scriptSigs : Dictionary Nat} {pre : List Nat} {i : Nat}
    (h : LegacyDigested thePubKey scriptSigs tx pre t) :
    LegacyDigested thePubKey scriptSigs tx (pre ++ [i]) (legacyDigestFor thePubKey (dictionaryGetValue scriptSigs i) i t).1 := by
  have hmem : ∀ k, k ∈ pre ++ [i] ↔ k ∈ pre ∨ k = i := by simp
  unfold legacyDigestFor
  cases hi : t.inputs[i]? with
  | none =>
    have hout : ∀ k input, tx.inputs[k]? = some input → k ≠ i := by
      intro k input hk hki
      have hlt := (List.getElem?_eq_some_iff.mp hk).1
      rw [← core_length h.core, hki] at hlt
      rw [List.getElem?_eq_getElem hlt] at hi
      cases hi
    refine ⟨h.core, h.witness, fun k input hk hpre => ?_, fun k input hk hpre => ?_⟩
    · exact h.matched k input hk (((hmem k).mp hpre).resolve_right (hout k input hk))
    · exact h.kept k input hk fun hk' => hpre ((hmem k).mpr (.inl hk'))
  | some y =>
    obtain ⟨x, hx, hxy⟩ := core_input h.core hi
    have hlt : i < t.inputs.length := (List.getElem?_eq_some_iff.mp hi).1
    have hkeys : (mainPubKeys (dictionaryGetValue scriptSigs i) y).any (dataEqual · thePubKey) = true ↔
        IsMainPubKey thePubKey (dictionaryGetValue scriptSigs i) x := by
      rw [IsMainPubKey, mainPubKeys, mainPubKeys, (fields_of_core hxy).1]
    dsimp only
    by_cases hmain : IsMainPubKey thePubKey (dictionaryGetValue scriptSigs i) x
    · rw [if_pos (hkeys.mpr hmain)]
      refine ⟨(core_setScriptData t i none).trans h.core, fun k => (stacks_setScriptData t i none k).trans (h.witness k),
        fun k input hk hpre hkey => ?_, fun k input hk hpre => ?_⟩
      · rw [scriptAt_setScriptData (core_length h.core ▸ (List.getElem?_eq_some_iff.mp hk).1)]
        split
        · rfl
        · rename_i hne
          exact h.matched k input hk (((hmem k).mp hpre).resolve_right (Ne.symm hne)) hkey
      · have hne : i ≠ k := by
          rintro rfl
          obtain rfl := Option.some.inj (hx.symm.trans hk)
          exact hpre ((hmem i).mpr (.inr rfl)) hmain
        rw [scriptAt_setScriptData (core_length h.core ▸ (List.getElem?_eq_some_iff.mp hk).1), if_neg hne]
        exact h.kept k input hk fun hk' => hpre ((hmem k).mpr (.inl hk'))
    · rw [if_neg fun hany => hmain (hkeys.mp hany)]
      refine ⟨h.core, h.witness, fun k input hk hpre hkey => ?_, fun k input hk hpre => ?_⟩
      · have hne : k ≠ i := by
          rintro rfl
          obtain rfl := Option.some.inj (hx.symm.trans hk)
          exact hmain hkey
        exact h.matched k input hk (((hmem k).mp hpre).resolve_right hne) hkey
      · exact h.kept k input hk fun hk' => hpre ((hmem k).mpr (.inl hk'))

/-- The loop over the inputs ends unless it comes to an empty stack to read below. -/
theorem digestsForInputs_spec (c : Crypto) (exceptSigned : Bool) {scriptSigs : Dictionary Nat} {pre : List Nat} (indices : List Nat)
    (h : LegacyDigested thePubKey scriptSigs tx pre t) :
    (digestsForInputs c thePubKey exceptSigned scriptSigs indices t = none ↔
      exceptSigned = true ∧ ∃ i ∈ indices, ∃ input, tx.inputs[i]? = some input ∧ input.witnessStack = []) ∧
    ∀ t' result, digestsForInputs c thePubKey exceptSigned scriptSigs indices t = some (t', result) →
      LegacyDigested thePubKey scriptSigs tx (pre ++ indices) t' := by
  induction indices generalizing pre t with
  | nil =>
    refine ⟨by simp [digestsForInputs], fun t' result heq => ?_⟩
    obtain rfl : t = t' := congrArg Prod.fst (Option.some.inj heq)
    rwa [List.append_nil]
  | cons i rest ih =>
    have hstep := legacyDigestFor_step (i := i) h
    obtain ⟨hnone, hsome⟩ := ih hstep
    have hempty : (∃ input, (legacyDigestFor thePubKey (dictionaryGetValue scriptSigs i) i t).1.inputs[i]? = some input ∧
        input.witnessStack = []) ↔ ∃ input, tx.inputs[i]? = some input ∧ input.witnessStack = [] := by
      have hstack := hstep.witness i
      rw [← Option.map_eq_some_iff (f := TransactionInput.witnessStack), hstack, Option.map_eq_some_iff]
    unfold digestsForInputs
    dsimp only
    cases hw : witnessDigestsFor c thePubKey exceptSigned i (legacyDigestFor thePubKey (dictionaryGetValue scriptSigs i) i t).1 with
    | none =>
      obtain ⟨hsigned, hnil⟩ := witnessDigestsFor_eq_none.mp hw
      exact ⟨⟨fun _ => ⟨hsigned, i, List.mem_cons_self, hempty.mp hnil⟩, fun _ => rfl⟩, fun _ _ heq => by cases heq⟩
    | some witness =>
      have hfull : ¬ (exceptSigned = true ∧ ∃ input, tx.inputs[i]? = some input ∧ input.witnessStack = []) := by
        intro hboth
        rw [witnessDigestsFor_eq_none.mpr ⟨hboth.1, hempty.mpr hboth.2⟩] at hw
        cases hw
      cases hd : digestsForInputs c thePubKey exceptSigned scriptSigs rest
          (legacyDigestFor thePubKey (dictionaryGetValue scriptSigs i) i t).1 with
      | none =>
        obtain ⟨hsigned, j, hj, hnil⟩ := hnone.mp hd
        exact ⟨⟨fun _ => ⟨hsigned, j, List.mem_cons_of_mem _ hj, hnil⟩, fun _ => rfl⟩, fun _ _ heq => by cases heq⟩
      | some pair =>
        refine ⟨⟨fun heq => absurd heq (Option.some_ne_none _), fun hboth => ?_⟩, fun t' result heq => ?_⟩
        · obtain ⟨hsigned, j, hj, hnil⟩ := hboth
          cases List.mem_cons.mp hj with
          | inl hji => exact absurd ⟨hsigned, hji ▸ hnil⟩ hfull
          | inr hj =>
            rw [hnone.mpr ⟨hsigned, j, hj, hnil⟩] at hd
            cases hd
        · have ht : pair.1 = t' := congrArg Prod.fst (Option.some.inj heq)
          have hspec := hsome pair.1 pair.2 hd
          rwa [ht, List.append_assoc] at hspec

@[simp] theorem witnessStack_clearScriptSig (input : TransactionInput) : (clearScriptSig input).witnessStack = input.witnessStack := by
  unfold clearScriptSig
  split <;> rfl

theorem getElem?_clearScriptSigs (tx : Transaction) (k : Nat) :
    (clearScriptSigs tx).inputs[k]? = tx.inputs[k]?.map clearScriptSig := List.getElem?_map

theorem ShortStacks.clearScriptSigs (h : ShortStacks tx) : ShortStacks (clearScriptSigs tx) := by
  intro k input hk
  rw [getElem?_clearScriptSigs] at hk
  obtain ⟨x, hx, rfl⟩ := Option.map_eq_some_iff.mp hk
  rw [witnessStack_clearScriptSig]
  exact h k x hx

theorem exists_empty_clearScriptSigs :
    (∃ i ∈ List.range tx.inputs.length, ∃ input, (clearScriptSigs tx).inputs[i]? = some input ∧ input.witnessStack = []) ↔
      ∃ input ∈ tx.inputs, input.witnessStack = [] := by
  constructor
  · intro ⟨i, _, input, hi, hnil⟩
    rw [getElem?_clearScriptSigs] at hi
    obtain ⟨x, hx, rfl⟩ := Option.map_eq_some_iff.mp hi
    exact ⟨x, List.mem_of_getElem? hx, (witnessStack_clearScriptSig x).symm.trans hnil⟩
  · intro ⟨x, hx, hnil⟩
    obtain ⟨i, hi, rfl⟩ := List.mem_iff_getElem.mp hx
    refine ⟨i, List.mem_range.mpr hi, clearScriptSig tx.inputs[i], ?_, (witnessStack_clearScriptSig _).trans hnil⟩
    rw [getElem?_clearScriptSigs, List.getElem?_eq_getElem hi]
    rfl

/-- What the loop leaves of the script data: nothing of a legacy input, and of another one
    nothing if the key is the empty one. -/
theorem LegacyDigested.scripts {k : Nat} {input : TransactionInput}
    (h : LegacyDigested thePubKey (stashScriptSigs tx) (clearScriptSigs tx) (List.range tx.inputs.length) t)
    (hk : tx.inputs[k]? = some input) :
    scriptAt t k =
      if (transactionInputType input).isLegacy then none else if thePubKey.toBytes = [] then none else input.scriptData := by
  have hcleared : (BitcoinSpoon.clearScriptSigs tx).inputs[k]? = some (clearScriptSig input) := by
    rw [getElem?_clearScriptSigs, hk, Option.map_some]
  have hmem : k ∈ List.range tx.inputs.length := List.mem_range.mpr (List.getElem?_eq_some_iff.mp hk).1
  by_cases hl : (transactionInputType input).isLegacy = true
  · rw [if_pos hl]
    by_cases hmain : IsMainPubKey thePubKey (dictionaryGetValue (stashScriptSigs tx) k) (clearScriptSig input)
    · exact h.matched k _ hcleared hmem hmain
    · rw [h.kept k _ hcleared fun _ => hmain, scriptAt_clearScriptSigs hk, if_pos hl]
  · have hsame : clearScriptSig input = input := by rw [clearScriptSig, if_neg hl]
    have hl' : (transactionInputType input).isLegacy = false := Bool.eq_false_iff.mpr hl
    have hstash : dictionaryGetValue (stashScriptSigs tx) k = none := by
      rw [dictionaryGetValue, find_stash, hk, Option.bind_some, stashed, hl']
      rfl
    have hmain : IsMainPubKey thePubKey (dictionaryGetValue (stashScriptSigs tx) k) (clearScriptSig input) ↔
        thePubKey.toBytes = [] := by
      rw [IsMainPubKey, hstash, hsame, mainPubKeys_none hl', List.any_cons, List.any_nil, Bool.or_false, dataEqual_iff]
      exact eq_comm
    rw [if_neg hl]
    by_cases hnil : thePubKey.toBytes = []
    · rw [if_pos hnil]
      exact h.matched k _ hcleared hmem (hmain.mpr hnil)
    · rw [if_neg hnil, h.kept k _ hcleared fun _ hm => hnil (hmain.mp hm), scriptAt_clearScriptSigs hk, if_neg hl]

theorem digestsForFlexible_spec (c : Crypto) (tx : Transaction) (thePubKey : Data) (exceptSigned : Bool) :
    (transactionDigestsForFlexible c tx thePubKey exceptSigned = none ↔
      exceptSigned = true ∧ ∃ input ∈ tx.inputs, input.witnessStack = []) ∧
    ∀ tx' digests, transactionDigestsForFlexible c tx thePubKey exceptSigned = some (tx', digests) →
      (KeepsScripts tx tx' ↔ (thePubKey.toBytes = [] → OnlyLegacyScripts tx)) := by
  have hstart : LegacyDigested thePubKey (stashScriptSigs tx) (clearScriptSigs tx) [] (clearScriptSigs tx) :=
    ⟨rfl, fun _ => rfl, fun _ _ _ hmem => absurd hmem List.not_mem_nil, fun _ _ _ _ => rfl⟩
  obtain ⟨hnone, hsome⟩ := digestsForInputs_spec c exceptSigned (List.range tx.inputs.length) hstart
  rw [exists_empty_clearScriptSigs] at hnone
  unfold transactionDigestsForFlexible
  dsimp only
  cases hd : digestsForInputs c thePubKey exceptSigned (stashScriptSigs tx) (List.range tx.inputs.length) (clearScriptSigs tx) with
  | none => exact ⟨⟨fun _ => hnone.mp hd, fun _ => rfl⟩, fun _ _ heq => absurd heq.symm (Option.some_ne_none _)⟩
  | some pair =>
    obtain ⟨t, result⟩ := pair
    have hspec := hsome t result hd
    rw [List.nil_append] at hspec
    obtain ⟨tx', hrestore, hkeeps⟩ := keepsScripts_restored (hspec.core.trans (core_clearScriptSigs tx))
      fun k input hk hl => (hspec.scripts hk).trans (if_pos hl)
    have hresult : (do
        let tx ← restoreScriptSigs (stashScriptSigs tx) t
        some (tx, distinctDatas result) : Option (Transaction × Datas)) = some (tx', distinctDatas result) := by
      rw [hrestore]
      rfl
    refine ⟨⟨fun heq => ?_, fun hempty => ?_⟩, fun tx'' digests heq => ?_⟩
    · exact absurd (hresult.symm.trans heq) (Option.some_ne_none _)
    · rw [hnone.mpr hempty] at hd
      cases hd
    · obtain rfl : tx' = tx'' := congrArg Prod.fst (Option.some.inj (hresult.symm.trans heq))
      rw [hkeeps]
      constructor
      · intro hkept hnil k input hk hl
        have hscript := hkept k input hk hl
        rw [hspec.scripts hk, if_neg (by simp [hl]), if_pos hnil] at hscript
        exact hscript.symm
      · intro honly k input hk hl
        rw [hspec.scripts hk, if_neg (by simp [hl])]
        split
        · rename_i hnil
          exact (honly hnil k input hk hl).symm
        · rfl

variable (c tx thePubKey exceptSigned) in
/-- The digests are made of elements that are there, and the script data stays. -/
structure DigestsInRange (tx' : Transaction) (digests : Datas) : Prop where
  inRange : transactionDigestsForFlexibleAt c tx thePubKey exceptSigned = some (tx', digests)
  result : transactionDigestsForFlexible c tx thePubKey exceptSigned = some (tx', digests)
  kept : KeepsScripts tx tx'

theorem digestsInRange_iff (h : ShortStacks tx) : (∃ tx' digests, DigestsInRange c tx thePubKey exceptSigned tx' digests) ↔
    (exceptSigned = true → ∀ input ∈ tx.inputs, input.witnessStack ≠ []) ∧ (thePubKey.toBytes = [] → OnlyLegacyScripts tx) := by
  have hat : transactionDigestsForFlexibleAt c tx thePubKey exceptSigned = transactionDigestsForFlexible c tx thePubKey exceptSigned := by
    unfold transactionDigestsForFlexibleAt transactionDigestsForFlexible
    dsimp only
    rw [digestsForInputsAt_eq _ _ h.clearScriptSigs]
  obtain ⟨hnone, hsome⟩ := digestsForFlexible_spec c tx thePubKey exceptSigned
  constructor
  · intro ⟨tx', digests, hrange⟩
    refine ⟨fun hsigned x hx hnil => ?_, (hsome tx' digests hrange.result).mp hrange.kept⟩
    exact absurd (hrange.result.symm.trans (hnone.mpr ⟨hsigned, x, hx, hnil⟩)) (Option.some_ne_none _)
  · intro ⟨hfull, honly⟩
    cases hd : transactionDigestsForFlexible c tx thePubKey exceptSigned with
    | none =>
      obtain ⟨hsigned, x, hx, hnil⟩ := hnone.mp hd
      exact absurd hnil (hfull hsigned x hx)
    | some pair => exact ⟨pair.1, pair.2, hat.trans hd, hd, (hsome pair.1 pair.2 hd).mpr honly⟩

/-! ## `TransactionValidateSignature` -/

section

variable {digest : Data} {tokens : ScriptTokens} {j : Nat} (hnil : stack ≠ []) (hlt : stack.length < 2 ^ 32)

include hnil hlt

theorem belowLast_dropLast : belowLast stack = some stack.dropLast := by rw [belowLast_eq hlt, if_neg hnil]

theorem validateCheckMultisigAt_eq :
    validateCheckMultisigAt c stack digest tokens j = some (validateCheckMultisig c stack digest tokens j) := by
  have hcounts : ∀ keys : Datas, (keys.mapM fun thePubKey => do
      let below ← belowLast stack
      some (below.filter fun sig => verify c sig digest thePubKey).length) = some (keys.map (validSignaturesOf c stack digest)) := by
    intro keys
    rw [belowLast_dropLast hnil hlt]
    induction keys with
    | nil => rfl
    | cons key keys ih =>
      rw [List.mapM_cons, ih]
      rfl
  unfold validateCheckMultisigAt validateCheckMultisig
  dsimp only
  split
  · rfl
  split
  · rfl
  split
  · rfl
  · rw [hcounts]
    rfl

theorem validateTokenAt_eq : validateTokenAt c stack digest tokens j = some (validateToken c stack digest tokens j) := by
  unfold validateTokenAt validateToken
  dsimp only
  split
  · rw [validateCheckSigAt, belowLast_dropLast hnil hlt]
    rfl
  split
  · exact validateCheckMultisigAt_eq hnil hlt
  · rfl

end

theorem allM_some {α : Type} (p : α → Bool) (l : List α) : l.allM (fun x => some (p x)) = some (l.all p) := by
  induction l with
  | nil => rfl
  | cons x l ih =>
    rw [List.allM, List.all_cons, ih]
    cases p x <;> rfl

theorem validateSignatureAt_eq {i : Nat} {input : TransactionInput} (hi : tx.inputs[i]? = some input)
    (hlt : input.witnessStack.length < 2 ^ 32) :
    transactionValidateSignatureAt c tx i = some (transactionValidateSignature c tx i) := by
  have htokens : ∀ digest, (List.range (scriptToTokens (datasLast input.witnessStack)).length).allM
      (validateTokenAt c input.witnessStack digest (scriptToTokens (datasLast input.witnessStack))) =
      some ((List.range (scriptToTokens (datasLast input.witnessStack)).length).all
        (validateToken c input.witnessStack digest (scriptToTokens (datasLast input.witnessStack)))) := by
    intro digest
    by_cases hnil : input.witnessStack = []
    · rw [hnil]
      rfl
    · have hchecked : validateTokenAt c input.witnessStack digest (scriptToTokens (datasLast input.witnessStack)) = fun j =>
          some (validateToken c input.witnessStack digest (scriptToTokens (datasLast input.witnessStack)) j) :=
        funext fun _ => validateTokenAt_eq hnil hlt
      rw [hchecked]
      exact allM_some _ _
  unfold transactionValidateSignatureAt transactionValidateSignature
  rw [hi]
  dsimp only [Option.bind_eq_bind, Option.bind_some]
  rw [datasLastAt_eq hlt, datasFirstAt_eq]
  dsimp only [Option.bind_some]
  split
  · rfl
  · rw [htokens]
    rfl

theorem validateFromAt_eq (h : ShortStacks tx) (indices : List Nat) (hindices : ∀ i ∈ indices, i < tx.inputs.length) :
    validateFromAt c indices tx = some (validateFrom c indices tx) := by
  induction indices with
  | nil => rfl
  | cons i rest ih =>
    have hi := List.getElem?_eq_getElem (hindices i List.mem_cons_self)
    have hlt := Nat.lt_trans (h i _ hi) (show 2 ^ 31 < 2 ^ 32 by decide)
    unfold validateFromAt validateFrom
    rw [validateSignatureAt_eq hi hlt]
    have hframe := validateSignature_frame c tx i
    cases hv : transactionValidateSignature c tx i with
    | mk valid tx' =>
      rw [hv] at hframe
      obtain rfl : tx' = tx := hframe
      cases valid with
      | true => exact ih fun j hj => hindices j (List.mem_cons_of_mem _ hj)
      | false => rfl

variable (c) in
/-- Only elements that are there are read, and the transaction is left as it was. -/
structure ValidatesInRange (tx : Transaction) : Prop where
  one : ∀ i < tx.inputs.length, transactionValidateSignatureAt c tx i = some ((transactionValidateSignature c tx i).1, tx)
  all : transactionValidateSignaturesAt c tx = some ((transactionValidateSignatures c tx).1, tx)

theorem validatesInRange (h : ShortStacks tx) : ValidatesInRange c tx where
  one i hi := by
    have hget := List.getElem?_eq_getElem hi
    rw [validateSignatureAt_eq hget (Nat.lt_trans (h i _ hget) (by decide))]
    exact congrArg some (Prod.ext rfl (validateSignature_frame c tx i))
  all := by
    rw [transactionValidateSignaturesAt, validateFromAt_eq h _ fun i hi => List.mem_range.mp hi]
    rw [transactionValidateSignatures, validateFrom_eq]

/-! ## `TransactionAddSignature` -/

/-- What the keys of input `i` leave of the other inputs, and of everything if none accepts. -/
structure Touches (i : Nat) (st st' : AddState) : Prop where
  core : st'.transaction.core = st.transaction.core
  witness : ∀ j : Nat, j ≠ i →
    st'.transaction.inputs[j]?.map TransactionInput.witnessStack = st.transaction.inputs[j]?.map TransactionInput.witnessStack
  scripts : ∀ j < st.transaction.inputs.length, j ≠ i → scriptAt st'.transaction j = scriptAt st.transaction j
  quiet : st'.result = [] → st.result = [] ∧ st'.scriptSigs = st.scriptSigs

theorem Touches.refl (i : Nat) (st : AddState) : Touches i st st :=
  ⟨rfl, fun _ _ => rfl, fun _ _ _ => rfl, fun h => ⟨h, rfl⟩⟩

theorem Touches.trans {i : Nat} {st st' st'' : AddState} (h : Touches i st st') (h' : Touches i st' st'') : Touches i st st'' where
  core := h'.core.trans h.core
  witness j hj := (h'.witness j hj).trans (h.witness j hj)
  scripts j hlt hj := (h'.scripts j (core_length h.core ▸ hlt) hj).trans (h.scripts j hlt hj)
  quiet hresult := ⟨(h.quiet (h'.quiet hresult).1).1, (h'.quiet hresult).2.trans (h.quiet (h'.quiet hresult).1).2⟩

theorem addLegacySignature_touches {i j : Nat} {script key : Data} (st : AddState) :
    Touches i st (addLegacySignature c signature i script j key st) := by
  have hscripts : ∀ k < st.transaction.inputs.length, k ≠ i →
      scriptAt (st.transaction.setScriptData i none) k = scriptAt st.transaction k := by
    intro k hk hki
    rw [scriptAt_setScriptData hk, if_neg (Ne.symm hki)]
  unfold addLegacySignature
  dsimp only
  split
  · exact ⟨core_setScriptData _ _ _, fun k _ => stacks_setScriptData _ _ _ k, hscripts, fun h => absurd h (by simp)⟩
  · exact ⟨core_setScriptData _ _ _, fun k _ => stacks_setScriptData _ _ _ k, hscripts, fun h => ⟨h, rfl⟩⟩

theorem addWitnessSignature_touches {i : Nat} {script key : Data} (st : AddState) :
    Touches i st (addWitnessSignature c signature i script key st) := by
  unfold addWitnessSignature
  split
  · exact Touches.refl i st
  · split
    · refine ⟨core_setWitnessStack _ _ _, fun k hk => ?_, fun k _ _ => scriptAt_setWitnessStack _ _ _ k, fun h => absurd h (by simp)⟩
      dsimp only
      rw [Transaction.setWitnessStack, getElem?_modifyInput, if_neg (Ne.symm hk)]
    · exact Touches.refl i st

theorem scriptAt_addWitnessSignature {i : Nat} {script key : Data} (st : AddState) (k : Nat) :
    scriptAt (addWitnessSignature c signature i script key st).transaction k = scriptAt st.transaction k := by
  unfold addWitnessSignature
  split
  · rfl
  · split
    · exact scriptAt_setWitnessStack _ _ _ k
    · rfl

/-- The state after some candidate keys of input `i`. -/
structure LegacyTried (i : Nat) (st : AddState) (tried : Prop) (t : AddState) : Prop where
  touches : Touches i st t
  witness : ∀ j : Nat, t.transaction.inputs[j]?.map TransactionInput.witnessStack =
    st.transaction.inputs[j]?.map TransactionInput.witnessStack
  cleared : tried → scriptAt t.transaction i = none

/-- Whatever key is the last, it leaves the input without script data. -/
theorem addLegacySignatures_tried (c : Crypto) (signature script : Data) {i : Nat} {keys : Datas} (hkeys : keys ≠ []) {st : AddState}
    (hi : i < st.transaction.inputs.length) :
    LegacyTried i st True (addLegacySignatures c signature i script keys st) := by
  have hloop : LegacyTried i st ((List.range keys.length).reverse ≠ []) (addLegacySignatures c signature i script keys st) := by
    unfold addLegacySignatures
    refine foldl_rule (fun pre t => LegacyTried i st (pre ≠ []) t) ⟨Touches.refl i st, fun _ => rfl, fun h => absurd rfl h⟩ ?_
    intro pre j post _ t ht
    have hcleared : (addLegacySignature c signature i script j (keys.getD j none) t).transaction = t.transaction.setScriptData i none := by
      unfold addLegacySignature
      dsimp only
      split <;> rfl
    refine ⟨ht.touches.trans (addLegacySignature_touches t), fun k => ?_, fun _ => ?_⟩
    · rw [hcleared, stacks_setScriptData, ht.witness k]
    · rw [hcleared, scriptAt_setScriptData (core_length ht.touches.core ▸ hi), if_pos rfl]
  exact ⟨hloop.touches, hloop.witness, fun _ => hloop.cleared (by simpa using hkeys)⟩

theorem mainPubKeys_ne_nil (scriptSig : Data) (input : TransactionInput) : mainPubKeys scriptSig input ≠ [] := by simp [mainPubKeys]

theorem verify_none (digest : Data) : verify c signature digest none = false := by
  unfold verify
  split
  · rfl
  · rfl

/-- The keys of one input: its script data is gone, and the others are as they were. -/
theorem addSignatureToInput_touches (c : Crypto) (signature : Data) {i : Nat} {st : AddState} (hi : i < st.transaction.inputs.length) :
    Touches i st (addSignatureToInput c signature i st) ∧ scriptAt (addSignatureToInput c signature i st).transaction i = none := by
  unfold addSignatureToInput
  rw [List.getElem?_eq_getElem hi]
  dsimp only
  have htried := addLegacySignatures_tried c signature st.transaction.inputs[i].fundingOutput.script
    (mainPubKeys_ne_nil (dictionaryGetValue st.scriptSigs i) st.transaction.inputs[i]) hi
  refine foldl_inv (fun t => Touches i st t ∧ scriptAt t.transaction i = none) ?_ fun key _ t ht => ?_
  · exact ⟨htried.touches.trans (addWitnessSignature_touches _), (scriptAt_addWitnessSignature _ i).trans (htried.cleared trivial)⟩
  · exact ⟨ht.1.trans (addWitnessSignature_touches t), (scriptAt_addWitnessSignature t i).trans ht.2⟩

/-- The stack that is read again has the same last element. -/
theorem addSignatureToInputAt_eq (c : Crypto) (signature : Data) {i : Nat} {st : AddState} {input : TransactionInput}
    (hi : st.transaction.inputs[i]? = some input)
    (hlt : input.witnessStack.length < 2 ^ 31) :
    addSignatureToInputAt c signature st i = some (addSignatureToInput c signature i st) := by
  have htried := addLegacySignatures_tried c signature input.fundingOutput.script
    (mainPubKeys_ne_nil (dictionaryGetValue st.scriptSigs i) input) (List.getElem?_eq_some_iff.mp hi).1
  unfold addSignatureToInputAt addSignatureToInput
  rw [hi]
  dsimp only [Option.bind_eq_bind, Option.bind_some]
  rw [datasLastAt_eq (Nat.lt_trans hlt (by decide))]
  dsimp only [Option.bind_some]
  generalize addLegacySignatures c signature i input.fundingOutput.script (mainPubKeys (dictionaryGetValue st.scriptSigs i) input) st =
    t at htried
  obtain ⟨x, hx, hstack⟩ : ∃ x, t.transaction.inputs[i]? = some x ∧ x.witnessStack = input.witnessStack := by
    have hwitness := htried.witness i
    rw [hi, Option.map_some] at hwitness
    exact Option.map_eq_some_iff.mp hwitness
  obtain ⟨y, hy, hshort, hlast⟩ : ∃ y, (addWitnessSignature c signature i (some (p2wpkhImpliedScript c (datasLast input.witnessStack)))
      (datasLast input.witnessStack) t).transaction.inputs[i]? = some y ∧ y.witnessStack.length < 2 ^ 32 ∧
      datasLast y.witnessStack = datasLast input.witnessStack := by
    unfold addWitnessSignature
    rw [hx]
    dsimp only
    split
    · rename_i hverify
      refine ⟨{ x with witnessStack := signature :: x.witnessStack }, ?_, ?_, ?_⟩
      · dsimp only
        rw [Transaction.setWitnessStack, getElem?_modifyInput, if_pos rfl, hx]
        rfl
      · show (signature :: x.witnessStack).length < 2 ^ 32
        rw [List.length_cons, hstack]
        omega
      · show datasLast (signature :: x.witnessStack) = datasLast input.witnessStack
        have hne : input.witnessStack ≠ [] := by
          intro hnil
          rw [hnil, datasLast_nil, verify_none] at hverify
          cases hverify
        rw [hstack, datasLast, datasLast, List.getLast?_cons_of_ne_nil hne]
    · exact ⟨x, hx, by rw [hstack]; omega, by rw [hstack]⟩
  rw [hy]
  dsimp only [Option.bind_some]
  rw [datasLastAt_eq hshort, hlast]
  rfl

/-- Before step `k` of the loop over the inputs. -/
structure Looked (tx : Transaction) (k : Nat) (st : AddState) : Prop where
  core : st.transaction.core = tx.core
  witness : ∀ j : Nat, k ≤ j →
    st.transaction.inputs[j]?.map TransactionInput.witnessStack = tx.inputs[j]?.map TransactionInput.witnessStack
  scripts : ∀ j input, tx.inputs[j]? = some input → (transactionInputType input).isLegacy = true ∨ j < k →
    scriptAt st.transaction j = none
  quiet : st.result = [] → st.scriptSigs = stashScriptSigs tx

theorem Looked.start : Looked tx 0 { transaction := clearScriptSigs tx, scriptSigs := stashScriptSigs tx, result := [] } where
  core := core_clearScriptSigs tx
  witness j _ := by
    rw [getElem?_clearScriptSigs, Option.map_map]
    exact congrArg (fun f => tx.inputs[j]?.map f) (funext witnessStack_clearScriptSig)
  scripts j input hj hl := by rw [scriptAt_clearScriptSigs hj, if_pos (hl.resolve_right (Nat.not_lt_zero j))]
  quiet _ := rfl

theorem Looked.step {k : Nat} {st : AddState} (h : Looked tx k st) (hk : k < tx.inputs.length) :
    Looked tx (k + 1) (addSignatureToInput c signature k st) := by
  have hlen := core_length h.core
  obtain ⟨htouches, hnone⟩ := addSignatureToInput_touches c signature (i := k) (show k < st.transaction.inputs.length from hlen ▸ hk)
  refine ⟨htouches.core.trans h.core, fun j hj => ?_, fun j input hj hl => ?_, fun hresult => ?_⟩
  · exact (htouches.witness j (by omega)).trans (h.witness j (by omega))
  · by_cases hjk : j = k
    · rw [hjk]
      exact hnone
    · rw [htouches.scripts j (hlen ▸ (List.getElem?_eq_some_iff.mp hj).1) hjk]
      exact h.scripts j input hj (hl.imp_right fun hlt => by omega)
  · exact (htouches.quiet hresult).2.trans (h.quiet (htouches.quiet hresult).1)

theorem looked_run (c : Crypto) (tx : Transaction) (signature : Data) :
    Looked tx tx.inputs.length (forRange tx.inputs.length (addSignatureToInput c signature)
      { transaction := clearScriptSigs tx, scriptSigs := stashScriptSigs tx, result := [] }) :=
  forRange_rule (Looked tx) Looked.start fun _ hk _ h => h.step hk

theorem addSignaturesAt_eq (h : ShortStacks tx) :
    addSignaturesAt c tx signature = some (forRange tx.inputs.length (addSignatureToInput c signature)
      { transaction := clearScriptSigs tx, scriptSigs := stashScriptSigs tx, result := [] }) := by
  have hloop : ∀ m ≤ tx.inputs.length, ∀ st, Looked tx 0 st →
      (List.range m).foldlM (addSignatureToInputAt c signature) st = some (forRange m (addSignatureToInput c signature) st) ∧
        Looked tx m (forRange m (addSignatureToInput c signature) st) := by
    intro m
    induction m with
    | zero => exact fun _ st hst => ⟨rfl, hst⟩
    | succ m ih =>
      intro hm st hst
      obtain ⟨hrun, hlooked⟩ := ih (by omega) st hst
      rw [List.range_succ, List.foldlM_append, hrun, forRange_succ]
      refine ⟨?_, hlooked.step hm⟩
      have hwitness := hlooked.witness m (Nat.le_refl m)
      rw [List.getElem?_eq_getElem hm, Option.map_some] at hwitness
      obtain ⟨input, hinput, hstack⟩ := Option.map_eq_some_iff.mp hwitness
      have hstep := addSignatureToInputAt_eq c signature hinput
        (hstack ▸ h m _ (List.getElem?_eq_getElem hm))
      dsimp only [Option.bind_eq_bind, Option.bind_some]
      rw [List.foldlM_cons, hstep]
      rfl
  exact (hloop tx.inputs.length (Nat.le_refl _) _ Looked.start).1

/-- A signature that is none is never added. -/
theorem result_none (c : Crypto) (tx : Transaction) :
    (forRange tx.inputs.length (addSignatureToInput c none)
      { transaction := clearScriptSigs tx, scriptSigs := stashScriptSigs tx, result := [] }).result = [] := by
  have hverify : ∀ digest key, verify c none digest key = false := fun _ _ => rfl
  have hlegacy : ∀ i script j key st, (addLegacySignature c none i script j key st).result = st.result := by
    intro i script j key st
    unfold addLegacySignature
    dsimp only
    rw [hverify]
    rfl
  have hwitness : ∀ i script key st, (addWitnessSignature c none i script key st).result = st.result := by
    intro i script key st
    unfold addWitnessSignature
    split
    · rfl
    · rw [hverify]
      rfl
  refine forRange_rule (fun _ (st : AddState) => st.result = []) rfl fun i _ st hst => ?_
  unfold addSignatureToInput
  split
  · exact hst
  · refine foldl_inv (fun t : AddState => t.result = []) ?_ fun key _ t ht => (hwitness _ _ _ t).trans ht
    rw [hwitness, addLegacySignatures]
    exact foldl_inv (fun t : AddState => t.result = []) hst fun j _ t ht => (hlegacy _ _ _ _ t).trans ht

theorem trimDuplicateInstances_eq_nil {array : List Nat} : trimDuplicateInstances array = [] ↔ array = [] := by
  rw [List.eq_nil_iff_forall_not_mem, List.eq_nil_iff_forall_not_mem]
  simp only [mem_trimDuplicateInstances]

variable (c tx signature) in
/-- Only elements that are there are read, and a signature that is not added changes no
    script data. -/
structure AddsInRange : Prop where
  inRange : ∃ st, addSignaturesAt c tx signature = some st
  kept : ∀ tx', transactionAddSignature c tx signature = some (tx', []) → KeepsScripts tx tx'

/-- The script data of every input that is not legacy is gone. -/
theorem addSignature_unadded (c : Crypto) (tx : Transaction) (signature : Data)
    (h : (forRange tx.inputs.length (addSignatureToInput c signature)
      { transaction := clearScriptSigs tx, scriptSigs := stashScriptSigs tx, result := [] }).result = []) :
    ∃ tx', transactionAddSignature c tx signature = some (tx', []) ∧ (KeepsScripts tx tx' ↔ OnlyLegacyScripts tx) := by
  have hlooked := looked_run c tx signature
  obtain ⟨tx', hrestore, hkeeps⟩ := keepsScripts_restored hlooked.core fun k input hk hl => hlooked.scripts k input hk (.inl hl)
  refine ⟨tx', ?_, ?_⟩
  · unfold transactionAddSignature
    dsimp only
    rw [hlooked.quiet h, hrestore, h]
    rfl
  · rw [hkeeps]
    have hnone : ∀ k input, tx.inputs[k]? = some input → scriptAt (forRange tx.inputs.length (addSignatureToInput c signature)
        { transaction := clearScriptSigs tx, scriptSigs := stashScriptSigs tx, result := [] }).transaction k = none :=
      fun k input hk => hlooked.scripts k input hk (.inr (List.getElem?_eq_some_iff.mp hk).1)
    constructor
    · intro hkept k input hk hl
      exact (hkept k input hk hl).symm.trans (congrArg Data.toBytes (hnone k input hk))
    · intro honly k input hk hl
      exact (congrArg Data.toBytes (hnone k input hk)).trans (honly k input hk hl).symm

theorem addsInRange_iff (h : ShortStacks tx) : (∀ signature, AddsInRange c tx signature) ↔ OnlyLegacyScripts tx := by
  constructor
  · intro hadds
    obtain ⟨tx', hresult, hkeeps⟩ := addSignature_unadded c tx none (result_none c tx)
    exact hkeeps.mp ((hadds none).kept tx' hresult)
  · intro honly signature
    refine ⟨⟨_, addSignaturesAt_eq h⟩, fun tx' hresult => ?_⟩
    have hquiet : (forRange tx.inputs.length (addSignatureToInput c signature)
        { transaction := clearScriptSigs tx, scriptSigs := stashScriptSigs tx, result := [] }).result = [] := by
      unfold transactionAddSignature at hresult
      dsimp only at hresult
      obtain ⟨restored, _, heq⟩ := Option.bind_eq_some_iff.mp hresult
      exact trimDuplicateInstances_eq_nil.mp (congrArg Prod.snd (Option.some.inj heq))
    obtain ⟨tx'', hresult', hkeeps⟩ := addSignature_unadded c tx signature hquiet
    obtain rfl : tx'' = tx' := congrArg Prod.fst (Option.some.inj (hresult'.symm.trans hresult))
    exact hkeeps.mpr honly

/-! ## All three -/

/-- The digests read below an empty stack, and adding a signature clears what is not
    legacy; checking signatures does neither. -/
theorem witnessStacks_inRange_iff (c : Crypto) (tx : Transaction) (thePubKey : Data) (exceptSigned : Bool) (h : ShortStacks tx) :
    ((∃ tx' digests, DigestsInRange c tx thePubKey exceptSigned tx' digests) ↔
      (exceptSigned = true → ∀ input ∈ tx.inputs, input.witnessStack ≠ []) ∧
        (thePubKey.toBytes = [] → OnlyLegacyScripts tx)) ∧
    ValidatesInRange c tx ∧
    ((∀ signature, AddsInRange c tx signature) ↔ OnlyLegacyScripts tx) :=
  ⟨digestsInRange_iff h, validatesInRange h, addsInRange_iff h⟩

/-- A script sig whose funding output is not known, and no witness, as it is parsed. -/
def unfundedInput : TransactionInput where
  fundingOutput := ⟨none, 0⟩
  previousTransactionHash := some (List.replicate 32 1)
  outputIndex := 0
  scriptData := some (scriptPush (some [0x51]))
  sequence := 0
  witnessStack := []
  witnessFlag := 0

def unfundedSpend : Transaction := ⟨2, [unfundedInput], [⟨some [0x51], 6⟩], 0⟩

theorem shortStacks_unfunded : ShortStacks unfundedSpend := by
  intro k input hk
  rcases List.mem_singleton.mp (List.mem_of_getElem? hk) with rfl
  decide

theorem witnessStacks_inRange_unfunded : ∃ tx' digests, DigestsInRange plainCrypto unfundedSpend (some [0x02]) false tx' digests :=
  (witnessStacks_inRange_iff plainCrypto unfundedSpend (some [0x02]) false shortStacks_unfunded).1.mpr
    ⟨fun h => absurd h (by decide), fun h => absurd h (by decide)⟩

/-- The loop over the signed keys reads an element of the empty stack, and a signature that
    no key accepts clears the script sig. -/
theorem not_witnessStacks_inRange :
    (¬ ∃ tx' digests, DigestsInRange plainCrypto unfundedSpend (some [0x02]) true tx' digests) ∧
      ¬ AddsInRange plainCrypto unfundedSpend (some [0x01]) := by
  constructor
  · intro ⟨tx', digests, h⟩
    have hnone : transactionDigestsForFlexible plainCrypto unfundedSpend (some [0x02]) true = none := by decide +kernel
    exact absurd (h.result.symm.trans hnone) (Option.some_ne_none _)
  · intro h
    have hkept := h.kept { unfundedSpend with inputs := [{ unfundedInput with scriptData := none }] } (by decide +kernel) 0
    revert hkept
    decide +kernel

end BitcoinSpoon
