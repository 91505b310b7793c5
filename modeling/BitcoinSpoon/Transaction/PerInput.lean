/-
  BitcoinSpoon.Transaction.PerInput — signing, read input by input.

  The three passes of `TransactionSign` loop over items and inputs and mutate one
  transaction. What a step does to input `i` depends on that input alone, on the core of
  the transaction and, for a legacy signature, on the script data the other inputs carry
  at that moment. `InputView` is what a run knows of one input; `viewDirect`, `viewNested`
  and `viewScripts` are the steps on it, and `signPasses_view` says that the run of the
  loops is, input by input, the run of these steps over the items.

  The script data the inputs carry depends on the items already seen: an item that is not
  32 bytes long leaves the funding script in every pay-to-pubkey and pay-to-pubkey-hash
  input, where the next key finds it (`carriedScripts`).
-/

import BitcoinSpoon.Transaction.Core
import BitcoinSpoon.Transaction.Remote

namespace BitcoinSpoon

open Wire Loop

/-! ## Views -/

structure InputView where
  witnessStack : Datas
  /-- The entry of the dictionary of script sigs. -/
  scriptSig : Option Data
  /-- The input is in the list of affected inputs. -/
  affected : Bool
  signed : List LegacySignature
  deriving DecidableEq

namespace InputView

def scriptSigData (v : InputView) : Data := v.scriptSig.getD none

/-- The last push of the script sig. -/
def redeem (v : InputView) : Data := datasLast (readPushes v.scriptSigData)

def setWitnessStack (v : InputView) (witnessStack : Datas) : InputView := { v with witnessStack }

def setScriptSig (v : InputView) (scriptSig : Bytes) : InputView := { v with scriptSig := some (some scriptSig) }

def effect (v : InputView) : InputView := { v with affected := true }

def record (v : InputView) (i : Nat) (digest key : Data) : InputView :=
  { v with signed := v.signed ++ [⟨i, digest, key⟩] }

end InputView

def viewAt (st : SignState) (i : Nat) : InputView where
  witnessStack := (st.transaction.inputs[i]?.map TransactionInput.witnessStack).getD []
  scriptSig := dictionaryFind st.scriptSigs i
  affected := decide (i ∈ st.result)
  signed := st.signed.filter fun s => s.input = i

/-! ## The steps on a view -/

section

variable (c : Crypto) (tx : Transaction)

def viewScriptPubKey (digest item : Data) (i : Nat) (scriptPubKey : Data) (v : InputView) : InputView :=
  if dataEqual scriptPubKey (pubKey c item) || dataEqual scriptPubKey (pubKeyFull c item) then
    ((v.setScriptSig (writePushes (readPushes v.scriptSigData ++ [signAll c digest item]))).effect).record i digest item
  else v

def viewHashedKey (digest item : Data) (i : Nat) (pub : Data) (v : InputView) : InputView :=
  ((v.setScriptSig (scriptPush (signAll c digest item) ++ scriptPush pub)).effect).record i digest item

def viewPayToPubkey (digest item : Data) (i : Nat) (script : Data) (v : InputView) : InputView :=
  if item.length ≠ 32 then v else (allPubKeys script).foldl (fun v key => viewScriptPubKey c digest item i key v) v

def viewPayToPubkeyHash (digest item : Data) (i : Nat) (script : Data) (v : InputView) : InputView :=
  if item.length ≠ 32 then v
  else if (pubKey c item).isSome && dataEqual (some (p2pkhPubScript (hash160 c (pubKeyFull c item)))) script then
    viewHashedKey c digest item i (pubKeyFull c item) v
  else if (pubKey c item).isSome && dataEqual (some (p2pkhPubScript (hash160 c (pubKey c item)))) script then
    viewHashedKey c digest item i (pubKey c item) v
  else v

def viewPayToPubkeyWitness (item : Data) (i : Nat) (script : Data) (v : InputView) : InputView :=
  if item.length ≠ 32 then v
  else if (pubKey c item).isSome && dataEqual (p2wpkhPubScriptFromPubKey c (pubKey c item)) script then
    (v.setWitnessStack
      [witnessSignature c tx i (some (p2wpkhImpliedScript c (pubKey c item))) item, pubKey c item]).effect
  else v

def viewPayToScriptHash (item script : Data) (v : InputView) : InputView :=
  if dataEqual (some (p2shPubScriptWithScript c item)) script then (v.setScriptSig (scriptPush item)).effect else v

def viewPayToScriptWitness (item script : Data) (v : InputView) : InputView :=
  if dataEqual (some (p2wshPubScriptWithScript c item)) script then (v.setWitnessStack [item]).effect else v

/-- First pass; `digest` is the legacy digest of the input at this step. -/
def viewDirect (digest item : Data) (i : Nat) (input : TransactionInput) (v : InputView) : InputView :=
  match transactionInputType input with
  | .payToPubkey => viewPayToPubkey c digest item i input.fundingOutput.script v
  | .payToPubkeyHash => viewPayToPubkeyHash c digest item i input.fundingOutput.script v
  | .payToPubkeyWitness => viewPayToPubkeyWitness c tx item i input.fundingOutput.script v
  | .payToScriptHash => viewPayToScriptHash c item input.fundingOutput.script v
  | .payToScriptWitness => viewPayToScriptWitness c item input.fundingOutput.script v
  | .unknown => v

/-- Second pass. -/
def viewNested (item : Data) (input : TransactionInput) (v : InputView) : InputView :=
  if transactionInputType input = .payToScriptHash ∧ v.scriptSigData.length ≠ 0 then
    if dataEqual v.redeem (some (nestedP2wshScript c item)) then (v.setWitnessStack [item]).effect else v
  else v

def viewRedeemScript (digest item : Data) (i : Nat) (v : InputView) : InputView :=
  if (allPubKeys v.redeem).any (dataEqual · (pubKey c item)) then
    ((v.setScriptSig (writePushes (datasAddCopyIndex (readPushes v.scriptSigData) (signAll c digest item)
      ((readPushes v.scriptSigData).length - 1)))).effect).record i digest item
  else v

/-- The stack with a signature in front of the script, unless it is there. -/
def insertSignature (sig : Data) (stack : Datas) : Datas :=
  if datasHasMatchingData stack sig then stack else datasAddCopyIndex stack sig (stack.length - 1)

def viewWitnessScript (item : Data) (i : Nat) (v : InputView) : InputView :=
  if (allPubKeys (datasLast v.witnessStack)).any (dataEqual · (pubKey c item)) then
    (v.setWitnessStack
      (insertSignature (witnessSignature c tx i (datasLast v.witnessStack) item) v.witnessStack)).effect
  else v

/-- Third pass; `digest` is the legacy digest, with no script code in the input. -/
def viewScripts (digest item : Data) (i : Nat) (input : TransactionInput) (v : InputView) : InputView :=
  if item.length ≠ 32 ∨ pubKey c item = none then v
  else if transactionInputType input = .payToScriptHash ∧
      dataEqual v.redeem (some (nestedP2wpkhScript c (pubKey c item))) then
    (v.setWitnessStack
      [witnessSignature c tx i (some (p2wpkhImpliedScript c (pubKey c item))) item, pubKey c item]).effect
  else
    let v := if transactionInputType input = .payToScriptHash then viewRedeemScript c digest item i v else v
    if transactionInputType input = .payToScriptWitness ∨ v.witnessStack.length ≠ 0 then
      viewWitnessScript c tx item i v
    else v

end

/-! ## The script data meanwhile -/

/-- The types whose funding script the first pass puts into the input. -/
def carriesScript (input : TransactionInput) : Bool :=
  transactionInputType input = .payToPubkey || transactionInputType input = .payToPubkeyHash

/-- What input `k` carries between two items: `dirty` says that the last item was not 32
    bytes long. -/
def carriedScript (dirty : Bool) (input : TransactionInput) : Data :=
  if carriesScript input then (if dirty then input.fundingOutput.script else none)
  else if (transactionInputType input).isLegacy then none else input.scriptData

variable (c : Crypto) (tx : Transaction)

/-- Before step `i` of an item: the inputs below `i` have seen the item. -/
def carriedScripts (before after : Bool) (i k : Nat) : Data :=
  (tx.inputs[k]?.map (carriedScript (if k < i then after else before))).getD none

/-- What a legacy signature of input `i` made with a key is over, when `dirty` says that
    the item before the key was not 32 bytes long. -/
def signingDigest (dirty : Bool) (i : Nat) : Data :=
  transactionDigest (tx.withScripts fun k =>
    if k = i then (tx.inputs[i]?.map fun input => input.fundingOutput.script).getD none
    else carriedScripts tx dirty false i k)

/-- What a signature for a redeem script is over. -/
def redeemDigest (dirty : Bool) : Data := transactionDigest (tx.withScripts (carriedScripts tx dirty dirty 0))

def isDirty (item : Data) : Bool := item.length ≠ 32

/-- After all items. -/
def endsDirty : Bool → Datas → Bool
  | dirty, [] => dirty
  | _, item :: items => endsDirty (isDirty item) items

/-- The first pass over all items. -/
def viewDirects (i : Nat) (input : TransactionInput) : Bool → Datas → InputView → InputView
  | _, [], v => v
  | dirty, item :: items, v =>
    viewDirects i input (isDirty item) items (viewDirect c tx (signingDigest tx dirty i) item i input v)

def startView (input : TransactionInput) : InputView where
  witnessStack := input.witnessStack
  scriptSig := stashed input
  affected := false
  signed := []

/-- The three passes on one input. -/
def signedView (items : Datas) (i : Nat) (input : TransactionInput) : InputView :=
  let v := viewDirects c tx i input false items (startView input)
  let v := items.foldl (fun v item => viewNested c item input v) v
  items.foldl (fun v item => viewScripts c tx (redeemDigest tx (endsDirty false items)) item i input v) v

/-! ## Steps of the run, seen through the views -/

/-- `st'` is `st` with view `i` changed by `f`, on the same core. -/
structure Moves (i : Nat) (f : InputView → InputView) (st st' : SignState) : Prop where
  core : st'.transaction.core = st.transaction.core
  here : viewAt st' i = f (viewAt st i)
  there : ∀ j, j ≠ i → viewAt st' j = viewAt st j

variable {c tx} {i : Nat}

theorem Moves.refl (st : SignState) : Moves i (fun v => v) st st := ⟨rfl, rfl, fun _ _ => rfl⟩

theorem Moves.trans {f g : InputView → InputView} {st st' st'' : SignState} (h : Moves i f st st')
    (h' : Moves i g st' st'') : Moves i (fun v => g (f v)) st st'' where
  core := h'.core.trans h.core
  here := by rw [h'.here, h.here]
  there j hj := by rw [h'.there j hj, h.there j hj]

theorem moves_setScriptData (st : SignState) (d : Data) : Moves i (fun v => v) st (st.setScriptData i d) := by
  have hview : ∀ j, viewAt (st.setScriptData i d) j = viewAt st j := by
    intro j
    unfold viewAt SignState.setScriptData
    dsimp only
    rw [Transaction.setScriptData, getElem?_modifyInput]
    split
    · rw [Option.map_map]
      rfl
    · rfl
  exact ⟨core_setScriptData .., hview i, fun j _ => hview j⟩

theorem moves_setWitnessStack {st : SignState} (hi : i < st.transaction.inputs.length) (stack : Datas) :
    Moves i (fun v => v.setWitnessStack stack) st (st.setWitnessStack i stack) where
  core := core_setWitnessStack ..
  here := by
    unfold viewAt SignState.setWitnessStack InputView.setWitnessStack
    dsimp only
    rw [Transaction.setWitnessStack, getElem?_modifyInput, if_pos rfl, List.getElem?_eq_getElem hi]
    rfl
  there j hj := by
    unfold viewAt SignState.setWitnessStack
    dsimp only
    rw [Transaction.setWitnessStack, getElem?_modifyInput, if_neg (Ne.symm hj)]

theorem moves_setScriptSig (st : SignState) (scriptSig : Bytes) :
    Moves i (fun v => v.setScriptSig scriptSig) st (st.setScriptSig i scriptSig) where
  core := rfl
  here := by
    unfold viewAt SignState.setScriptSig InputView.setScriptSig
    dsimp only
    rw [find_addCopy, if_pos rfl]
  there j hj := by
    unfold viewAt SignState.setScriptSig
    dsimp only
    rw [find_addCopy, if_neg hj]

theorem moves_effect (st : SignState) : Moves i InputView.effect st (st.effect i) where
  core := rfl
  here := by simp [viewAt, SignState.effect, InputView.effect]
  there j hj := by simp [viewAt, SignState.effect, hj]

theorem moves_record (st : SignState) (digest key : Data) :
    Moves i (fun v => v.record i digest key) st (st.record i digest key) where
  core := rfl
  here := by
    unfold viewAt SignState.record InputView.record
    dsimp only
    rw [List.filter_append, List.filter_cons_of_pos (by simp), List.filter_nil]
  there j hj := by
    unfold viewAt SignState.record
    dsimp only
    rw [List.filter_append, List.filter_cons_of_neg (by simp [Ne.symm hj]), List.filter_nil, List.append_nil]

theorem scriptSig_viewAt (st : SignState) (i : Nat) : st.scriptSig i = (viewAt st i).scriptSigData := rfl

theorem witnessStack_viewAt {st : SignState} {x : TransactionInput} (hx : st.transaction.inputs[i]? = some x) :
    x.witnessStack = (viewAt st i).witnessStack := by
  simp only [viewAt, hx, Option.map_some, Option.getD_some]

theorem witnessSignature_congr {a b : Transaction} (h : a.core = b.core) (i : Nat) (script item : Data) :
    witnessSignature c a i script item = witnessSignature c b i script item := by
  rw [witnessSignature, witnessSignature, witnessDigest_congr c h]

theorem moves_scriptPubKey {digest item key : Data} {st : SignState} (hd : transactionDigest st.transaction = digest) :
    Moves i (viewScriptPubKey c digest item i key) st (signScriptPubKey c item i key st) := by
  unfold signScriptPubKey
  split
  · rename_i hk
    have hmove := ((moves_setScriptSig (i := i) st
      (writePushes (readPushes (st.scriptSig i) ++ [signAll c digest item]))).trans (moves_effect _)).trans
        (moves_record _ digest item)
    dsimp only
    rw [hd]
    refine ⟨hmove.core, ?_, hmove.there⟩
    rw [hmove.here, viewScriptPubKey, if_pos hk, scriptSig_viewAt]
  · rename_i hk
    refine ⟨rfl, ?_, fun _ _ => rfl⟩
    rw [viewScriptPubKey, if_neg hk]

theorem signScriptPubKey_transaction (item : Data) (i : Nat) (key : Data) (st : SignState) :
    (signScriptPubKey c item i key st).transaction = st.transaction := by
  unfold signScriptPubKey
  split <;> rfl

theorem moves_scriptPubKeys (c : Crypto) (i : Nat) {digest : Data} (item : Data) (keys : Datas) (st : SignState)
    (hd : transactionDigest st.transaction = digest) :
    Moves i (fun v => keys.foldl (fun v key => viewScriptPubKey c digest item i key v) v) st
        (keys.foldl (fun st key => signScriptPubKey c item i key st) st) ∧
      (keys.foldl (fun st key => signScriptPubKey c item i key st) st).transaction = st.transaction := by
  induction keys generalizing st with
  | nil => exact ⟨Moves.refl st, rfl⟩
  | cons key keys ih =>
    have htx := signScriptPubKey_transaction (c := c) item i key st
    obtain ⟨hmove, htx'⟩ := ih _ (htx ▸ hd)
    exact ⟨(moves_scriptPubKey hd).trans hmove, htx'.trans htx⟩

theorem moves_payToPubkey {digest : Data} (item : Data) (x : TransactionInput) (st : SignState)
    (hd : transactionDigest (st.transaction.setScriptData i x.fundingOutput.script) = digest) :
    Moves i (viewPayToPubkey c digest item i x.fundingOutput.script) st (signPayToPubkey c item i x st) ∧
      (signPayToPubkey c item i x st).transaction =
        st.transaction.setScriptData i (if isDirty item then x.fundingOutput.script else none) := by
  have hset := moves_setScriptData (i := i) st x.fundingOutput.script
  unfold signPayToPubkey
  by_cases hlen : item.length = 32
  · obtain ⟨hkeys, htx⟩ := moves_scriptPubKeys c i item (allPubKeys x.fundingOutput.script)
      (st.setScriptData i x.fundingOutput.script) hd
    have hmove := (hset.trans hkeys).trans (moves_setScriptData _ none)
    dsimp only
    rw [if_neg (by simpa using hlen)]
    refine ⟨⟨hmove.core, ?_, hmove.there⟩, ?_⟩
    · rw [hmove.here, viewPayToPubkey, if_neg (by simpa using hlen)]
    · simp only [SignState.setScriptData] at htx ⊢
      rw [htx, setScriptData_setScriptData, isDirty, if_neg (by simpa using hlen)]
  · dsimp only
    rw [if_pos hlen]
    refine ⟨⟨hset.core, ?_, hset.there⟩, ?_⟩
    · rw [hset.here, viewPayToPubkey, if_pos hlen]
    · rw [isDirty, if_pos (by simpa using hlen)]
      rfl

theorem moves_hashedKey {digest item pub : Data} {st : SignState} (hd : transactionDigest st.transaction = digest) :
    Moves i (viewHashedKey c digest item i pub) st (signHashedKey c item i pub st) := by
  unfold signHashedKey
  dsimp only
  rw [hd]
  exact ((moves_setScriptSig st (scriptPush (signAll c digest item) ++ scriptPush pub)).trans (moves_effect _)).trans
    (moves_record _ digest item)

theorem moves_payToPubkeyHash {digest : Data} (item : Data) (x : TransactionInput) (st : SignState)
    (hd : transactionDigest (st.transaction.setScriptData i x.fundingOutput.script) = digest) :
    Moves i (viewPayToPubkeyHash c digest item i x.fundingOutput.script) st (signPayToPubkeyHash c item i x st) ∧
      (signPayToPubkeyHash c item i x st).transaction =
        st.transaction.setScriptData i (if isDirty item then x.fundingOutput.script else none) := by
  have hset := moves_setScriptData (i := i) st x.fundingOutput.script
  unfold signPayToPubkeyHash
  by_cases hlen : item.length = 32
  · have hclear : isDirty item = false := by simpa [isDirty] using hlen
    have hkey : ∀ pub, Moves i (viewHashedKey c digest item i pub) st
        ((signHashedKey c item i pub (st.setScriptData i x.fundingOutput.script)).setScriptData i none) :=
      fun pub => (hset.trans (moves_hashedKey hd)).trans (moves_setScriptData _ none)
    dsimp only
    rw [if_neg (by simpa using hlen), hclear]
    split
    · rename_i hfull
      refine ⟨⟨(hkey _).core, ?_, (hkey _).there⟩, setScriptData_setScriptData ..⟩
      rw [(hkey _).here, viewPayToPubkeyHash, if_neg (by simpa using hlen), if_pos hfull]
    · rename_i hfull
      split
      · rename_i hpub
        refine ⟨⟨(hkey _).core, ?_, (hkey _).there⟩, setScriptData_setScriptData ..⟩
        rw [(hkey _).here, viewPayToPubkeyHash, if_neg (by simpa using hlen), if_neg hfull, if_pos hpub]
      · rename_i hpub
        have hmove := hset.trans (moves_setScriptData _ none)
        refine ⟨⟨hmove.core, ?_, hmove.there⟩, setScriptData_setScriptData ..⟩
        rw [hmove.here, viewPayToPubkeyHash, if_neg (by simpa using hlen), if_neg hfull, if_neg hpub]
  · dsimp only
    rw [if_pos hlen]
    refine ⟨⟨hset.core, ?_, hset.there⟩, ?_⟩
    · rw [hset.here, viewPayToPubkeyHash, if_pos hlen]
    · rw [isDirty, if_pos (by simpa using hlen)]
      rfl

/-- A new stack for an input that is there. -/
theorem moves_newStack {x : TransactionInput} {st : SignState} (hx : st.transaction.inputs[i]? = some x) (stack : Datas) :
    Moves i (fun v => (v.setWitnessStack stack).effect) st ((st.setWitnessStack i stack).effect i) :=
  (moves_setWitnessStack (List.getElem?_eq_some_iff.mp hx).1 stack).trans (moves_effect _)

theorem scriptAt_newStack (st : SignState) (stack : Datas) (k : Nat) :
    scriptAt ((st.setWitnessStack i stack).effect i).transaction k = scriptAt st.transaction k :=
  scriptAt_setWitnessStack ..

theorem moves_payToPubkeyWitness {item : Data} {x : TransactionInput} {st : SignState}
    (hcore : st.transaction.core = tx.core) (hx : st.transaction.inputs[i]? = some x) :
    Moves i (viewPayToPubkeyWitness c tx item i x.fundingOutput.script) st (signPayToPubkeyWitness c item i x st) ∧
      ∀ k, scriptAt (signPayToPubkeyWitness c item i x st).transaction k = scriptAt st.transaction k := by
  unfold signPayToPubkeyWitness
  by_cases hlen : item.length ≠ 32
  · rw [if_pos hlen]
    refine ⟨⟨rfl, ?_, fun _ _ => rfl⟩, fun _ => rfl⟩
    rw [viewPayToPubkeyWitness, if_pos hlen]
  rw [if_neg hlen]
  dsimp only
  rw [witnessSignature_congr hcore]
  split
  · rename_i hpub
    have hmove := moves_newStack hx
      [witnessSignature c tx i (some (p2wpkhImpliedScript c (pubKey c item))) item, pubKey c item]
    refine ⟨⟨hmove.core, ?_, hmove.there⟩, scriptAt_newStack st _⟩
    rw [hmove.here, viewPayToPubkeyWitness, if_neg hlen, if_pos hpub]
  · rename_i hpub
    refine ⟨⟨rfl, ?_, fun _ _ => rfl⟩, fun _ => rfl⟩
    rw [viewPayToPubkeyWitness, if_neg hlen, if_neg hpub]

theorem moves_payToScriptHash (item : Data) (x : TransactionInput) (st : SignState) :
    Moves i (viewPayToScriptHash c item x.fundingOutput.script) st (signPayToScriptHash c item i x st) ∧
      ∀ k, scriptAt (signPayToScriptHash c item i x st).transaction k = scriptAt st.transaction k := by
  unfold signPayToScriptHash
  split
  · rename_i hscript
    have hmove := (moves_setScriptSig (i := i) st (scriptPush item)).trans (moves_effect _)
    refine ⟨⟨hmove.core, ?_, hmove.there⟩, fun _ => rfl⟩
    rw [hmove.here, viewPayToScriptHash, if_pos hscript]
  · rename_i hscript
    refine ⟨⟨rfl, ?_, fun _ _ => rfl⟩, fun _ => rfl⟩
    rw [viewPayToScriptHash, if_neg hscript]

theorem moves_payToScriptWitness {item : Data} {x : TransactionInput} {st : SignState}
    (hx : st.transaction.inputs[i]? = some x) :
    Moves i (viewPayToScriptWitness c item x.fundingOutput.script) st (signPayToScriptWitness c item i x st) ∧
      ∀ k, scriptAt (signPayToScriptWitness c item i x st).transaction k = scriptAt st.transaction k := by
  unfold signPayToScriptWitness
  split
  · rename_i hscript
    have hmove := moves_newStack hx [item]
    refine ⟨⟨hmove.core, ?_, hmove.there⟩, scriptAt_newStack st _⟩
    rw [hmove.here, viewPayToScriptWitness, if_pos hscript]
  · rename_i hscript
    refine ⟨⟨rfl, ?_, fun _ _ => rfl⟩, fun _ => rfl⟩
    rw [viewPayToScriptWitness, if_neg hscript]

/-- The input as the run has it, against the input that was passed in. -/
theorem input_of_core {st : SignState} {input : TransactionInput} (hcore : st.transaction.core = tx.core)
    (hin : tx.inputs[i]? = some input) : ∃ x, st.transaction.inputs[i]? = some x ∧
      x.fundingOutput = input.fundingOutput ∧ transactionInputType x = transactionInputType input := by
  obtain ⟨x, hx, hxi⟩ := core_input hcore.symm hin
  exact ⟨x, hx, (fundingOutput_of_core hxi).symm, (inputType_of_core hxi).symm⟩

/-- One step of the first pass: the view, and what the input is left with. -/
theorem signDirect_spec (item : Data) {st : SignState} {input : TransactionInput} (hcore : st.transaction.core = tx.core)
    (hin : tx.inputs[i]? = some input) :
    Moves i (viewDirect c tx (transactionDigest (st.transaction.setScriptData i input.fundingOutput.script)) item i input)
        st (signDirect c item i st) ∧
      ∀ k < tx.inputs.length, scriptAt (signDirect c item i st).transaction k =
        if k = i ∧ carriesScript input = true then (if isDirty item then input.fundingOutput.script else none)
        else scriptAt st.transaction k := by
  obtain ⟨x, hx, hfund, htype⟩ := input_of_core hcore hin
  have hlen : st.transaction.inputs.length = tx.inputs.length := core_length hcore
  have hscript : ∀ {d : Data} {st' : SignState}, st'.transaction = st.transaction.setScriptData i d →
      ∀ k < tx.inputs.length, scriptAt st'.transaction k = if k = i then d else scriptAt st.transaction k := by
    intro d st' htx k hk
    rw [htx, scriptAt_setScriptData (by omega)]
    by_cases hik : i = k
    · rw [if_pos hik, if_pos hik.symm]
    · rw [if_neg hik, if_neg (Ne.symm hik)]
  unfold signDirect viewDirect carriesScript
  rw [hx, ← hfund, ← htype]
  dsimp only
  cases ht : transactionInputType x with
  | payToPubkey =>
    obtain ⟨hmove, htx⟩ := moves_payToPubkey (c := c) (i := i) item x st rfl
    exact ⟨hmove, fun k hk => by simpa using hscript htx k hk⟩
  | payToPubkeyHash =>
    obtain ⟨hmove, htx⟩ := moves_payToPubkeyHash (c := c) (i := i) item x st rfl
    exact ⟨hmove, fun k hk => by simpa using hscript htx k hk⟩
  | payToPubkeyWitness =>
    obtain ⟨hmove, htx⟩ := moves_payToPubkeyWitness hcore hx
    exact ⟨hmove, fun k _ => by simpa using htx k⟩
  | payToScriptHash =>
    obtain ⟨hmove, htx⟩ := moves_payToScriptHash item x st
    exact ⟨hmove, fun k _ => by simpa using htx k⟩
  | payToScriptWitness =>
    obtain ⟨hmove, htx⟩ := moves_payToScriptWitness hx
    exact ⟨hmove, fun k _ => by simpa using htx k⟩
  | unknown => exact ⟨Moves.refl st, fun k _ => by simp⟩

/-! ## The first pass -/

theorem carriedScripts_here {before after : Bool} {k : Nat} {input : TransactionInput} (hin : tx.inputs[k]? = some input)
    (i : Nat) : carriedScripts tx before after i k = carriedScript (if k < i then after else before) input := by
  rw [carriedScripts, hin, Option.map_some, Option.getD_some]

/-- A step of the loop over the inputs is done with input `i` and no other. -/
theorem carriedScripts_succ (before after : Bool) {k : Nat} (h : k ≠ i) :
    carriedScripts tx before after (i + 1) k = carriedScripts tx before after i k := by
  have hlt : k < i + 1 ↔ k < i := by omega
  simp only [carriedScripts, hlt]

/-- An item that is no key makes no legacy signature. -/
theorem viewDirect_dirty {item : Data} {input : TransactionInput} (hitem : isDirty item = true) (digest digest' : Data)
    (v : InputView) : viewDirect c tx digest item i input v = viewDirect c tx digest' item i input v := by
  have hlen : item.length ≠ 32 := by simpa [isDirty] using hitem
  unfold viewDirect viewPayToPubkey viewPayToPubkeyHash
  rw [if_pos hlen, if_pos hlen, if_pos hlen, if_pos hlen]

/-- A step on the view of input `k`, if there is one. -/
def onInput (tx : Transaction) (k : Nat) (f : TransactionInput → InputView → InputView) (v : InputView) : InputView :=
  match tx.inputs[k]? with
  | some input => f input v
  | none => v

theorem onInput_some {k : Nat} {input : TransactionInput} (hin : tx.inputs[k]? = some input)
    (f : TransactionInput → InputView → InputView) (v : InputView) : onInput tx k f v = f input v := by
  rw [onInput, hin]

theorem onInput_none {k : Nat} (hk : tx.inputs[k]? = none) (f : TransactionInput → InputView → InputView)
    (v : InputView) : onInput tx k f v = v := by
  rw [onInput, hk]

/-- Before step `n` of the loop over the inputs, for one item; `st₀` is the state at the
    start of the loop. -/
structure PassOne (c : Crypto) (tx : Transaction) (dirty : Bool) (item : Data) (st₀ : SignState) (n : Nat)
    (st : SignState) : Prop where
  core : st.transaction.core = tx.core
  scripts : ∀ k < tx.inputs.length, scriptAt st.transaction k = carriedScripts tx dirty (isDirty item) n k
  views : ∀ k, viewAt st k =
    if k < n then onInput tx k (viewDirect c tx (signingDigest tx dirty k) item k) (viewAt st₀ k) else viewAt st₀ k

theorem signDirect_step {dirty : Bool} {item : Data} {st₀ st : SignState} (h : PassOne c tx dirty item st₀ i st)
    (hi : i < tx.inputs.length) : PassOne c tx dirty item st₀ (i + 1) (signDirect c item i st) := by
  obtain ⟨input, hin⟩ : ∃ input, tx.inputs[i]? = some input := ⟨_, List.getElem?_eq_getElem hi⟩
  obtain ⟨hmove, hscripts⟩ := signDirect_spec (c := c) item h.core hin
  refine ⟨hmove.core.trans h.core, ?_, ?_⟩
  · intro k hk
    rw [hscripts k hk, h.scripts k hk]
    by_cases hki : k = i
    · subst hki
      rw [carriedScripts_here hin, carriedScripts_here hin, if_pos (Nat.lt_succ_self k), if_neg (Nat.lt_irrefl k)]
      by_cases hcarries : carriesScript input = true
      · rw [if_pos ⟨rfl, hcarries⟩, carriedScript, if_pos hcarries]
      · rw [if_neg (by simp [hcarries]), carriedScript, carriedScript, if_neg hcarries, if_neg hcarries]
    · rw [if_neg (by simp [hki]), carriedScripts_succ _ _ hki]
  · intro k
    by_cases hki : k = i
    · subst hki
      rw [hmove.here, h.views k, if_neg (Nat.lt_irrefl k), if_pos (Nat.lt_succ_self k), onInput_some hin]
      cases hitem : isDirty item with
      | true => exact viewDirect_dirty hitem _ _ _
      | false =>
        congr 1
        apply transactionDigest_eq_withScripts ((core_setScriptData ..).trans h.core)
        intro j hj
        have hlen : j < st.transaction.inputs.length := by
          rw [core_length h.core]
          exact hj
        rw [scriptAt_setScriptData hlen]
        by_cases hjk : k = j
        · rw [if_pos hjk, if_pos hjk.symm, hin]
          rfl
        · rw [if_neg hjk, if_neg (Ne.symm hjk), h.scripts j hj, hitem]
    · rw [hmove.there k hki, h.views k]
      have hlt : k < i + 1 ↔ k < i := by omega
      simp only [hlt]

/-- One item: every input has seen it. -/
theorem signDirect_item {dirty : Bool} (item : Data) {st : SignState} (hcore : st.transaction.core = tx.core)
    (hscripts : ∀ k < tx.inputs.length, scriptAt st.transaction k = carriedScripts tx dirty dirty 0 k) :
    PassOne c tx dirty item st tx.inputs.length (forRange tx.inputs.length (signDirect c item) st) := by
  apply forRange_rule (PassOne c tx dirty item st)
  · refine ⟨hcore, ?_, fun k => by rw [if_neg (Nat.not_lt_zero k)]⟩
    intro k hk
    rw [hscripts k hk]
    simp only [carriedScripts, Nat.not_lt_zero, if_false]
  · intro n hn st' h
    exact signDirect_step h hn

/-- All items. -/
theorem signDirects (c : Crypto) (tx : Transaction) (dirty : Bool) (items : Datas) {st : SignState} (hcore : st.transaction.core = tx.core)
    (hscripts : ∀ k < tx.inputs.length, scriptAt st.transaction k = carriedScripts tx dirty dirty 0 k) :
    let st' := signPass (signDirect c) tx.inputs.length items st
    st'.transaction.core = tx.core ∧
      (∀ k < tx.inputs.length,
        scriptAt st'.transaction k = carriedScripts tx (endsDirty dirty items) (endsDirty dirty items) 0 k) ∧
      ∀ k, viewAt st' k = onInput tx k (fun input => viewDirects c tx k input dirty items) (viewAt st k) := by
  induction items generalizing dirty st with
  | nil =>
    refine ⟨hcore, hscripts, fun k => ?_⟩
    unfold onInput
    cases tx.inputs[k]? <;> rfl
  | cons item items ih =>
    have hitem := signDirect_item (c := c) item hcore hscripts
    have hnext : ∀ k < tx.inputs.length,
        scriptAt (forRange tx.inputs.length (signDirect c item) st).transaction k =
          carriedScripts tx (isDirty item) (isDirty item) 0 k := by
      intro k hk
      rw [hitem.scripts k hk]
      simp only [carriedScripts, hk, if_true, Nat.not_lt_zero, if_false]
    obtain ⟨hcore', hscripts', hviews⟩ := ih _ hitem.core hnext
    refine ⟨hcore', hscripts', fun k => ?_⟩
    rw [signPass, List.foldl_cons, ← signPass, hviews k, hitem.views k]
    cases hin : tx.inputs[k]? with
    | none =>
      rw [onInput_none hin, onInput_none hin, onInput_none hin, ite_self]
    | some input =>
      have hk : k < tx.inputs.length := (List.getElem?_eq_some_iff.mp hin).1
      rw [onInput_some hin, onInput_some hin, onInput_some hin, if_pos hk, viewDirects]

/-! ## The second and the third pass -/

/-- After the first pass the script data stay. -/
structure Later (tx : Transaction) (scripts : Nat → Data) (st : SignState) : Prop where
  core : st.transaction.core = tx.core
  scripts : ∀ k < tx.inputs.length, scriptAt st.transaction k = scripts k

theorem Later.acts {scripts : Nat → Data} {step : SignState → SignState} {f : InputView → InputView}
    (h : ∀ st, Later tx scripts st → Moves i f st (step st) ∧
      ∀ k, scriptAt (step st).transaction k = scriptAt st.transaction k) :
    Acts (Later tx scripts) viewAt i step f where
  inv {st} hs := by
    obtain ⟨hmove, hscripts⟩ := h st hs
    refine ⟨hmove.core.trans hs.core, fun k hk => ?_⟩
    rw [hscripts k, hs.scripts k hk]
  here {st} hs := (h st hs).1.here
  there {st} hs {j} hj := (h st hs).1.there j hj

theorem signNested_acts {scripts : Nat → Data} (item : Data) (hi : i < tx.inputs.length) :
    Acts (Later tx scripts) viewAt i (signNested c item i) (onInput tx i (viewNested c item)) := by
  apply Later.acts
  intro st hs
  obtain ⟨input, hin⟩ : ∃ input, tx.inputs[i]? = some input := ⟨_, List.getElem?_eq_getElem hi⟩
  obtain ⟨x, hx, -, htype⟩ := input_of_core hs.core hin
  have hnew := moves_newStack hx [item]
  unfold signNested
  rw [hx]
  dsimp only
  rw [htype, scriptSig_viewAt]
  split
  · rename_i hnested
    split
    · rename_i hlast
      refine ⟨⟨hnew.core, ?_, hnew.there⟩, scriptAt_newStack st _⟩
      rw [hnew.here, onInput_some hin, viewNested, if_pos hnested, InputView.redeem, if_pos hlast]
    · rename_i hlast
      refine ⟨⟨rfl, ?_, fun _ _ => rfl⟩, fun _ => rfl⟩
      rw [onInput_some hin, viewNested, if_pos hnested, InputView.redeem, if_neg hlast]
  · rename_i hnested
    refine ⟨⟨rfl, ?_, fun _ _ => rfl⟩, fun _ => rfl⟩
    rw [onInput_some hin, viewNested, if_neg hnested]

theorem moves_redeemScript {digest item : Data} {st : SignState} (hd : transactionDigest st.transaction = digest) :
    Moves i (viewRedeemScript c digest item i) st (signRedeemScript c item i (viewAt st i).redeem st) ∧
      (signRedeemScript c item i (viewAt st i).redeem st).transaction = st.transaction := by
  unfold signRedeemScript
  split
  · rename_i hkey
    have hmove := ((moves_setScriptSig (i := i) st (writePushes (datasAddCopyIndex (readPushes (st.scriptSig i))
      (signAll c digest item) ((readPushes (st.scriptSig i)).length - 1)))).trans (moves_effect _)).trans
        (moves_record _ digest item)
    dsimp only
    rw [hd]
    refine ⟨⟨hmove.core, ?_, hmove.there⟩, rfl⟩
    rw [hmove.here, viewRedeemScript, if_pos hkey, scriptSig_viewAt]
  · rename_i hkey
    refine ⟨⟨rfl, ?_, fun _ _ => rfl⟩, rfl⟩
    rw [viewRedeemScript, if_neg hkey]

theorem moves_witnessScript (item : Data) {x : TransactionInput} {st : SignState} (hcore : st.transaction.core = tx.core)
    (hx : st.transaction.inputs[i]? = some x) :
    Moves i (viewWitnessScript c tx item i) st (signWitnessScript c item i x st) ∧
      ∀ k, scriptAt (signWitnessScript c item i x st).transaction k = scriptAt st.transaction k := by
  unfold signWitnessScript
  dsimp only
  rw [witnessStack_viewAt hx, witnessSignature_congr hcore]
  split
  · rename_i hkey
    have hmove := moves_newStack hx (insertSignature
      (witnessSignature c tx i (datasLast (viewAt st i).witnessStack) item) (viewAt st i).witnessStack)
    refine ⟨⟨hmove.core, hmove.here.trans ?_, hmove.there⟩, scriptAt_newStack st _⟩
    rw [viewWitnessScript, if_pos hkey]
  · rename_i hkey
    refine ⟨⟨rfl, ?_, fun _ _ => rfl⟩, fun _ => rfl⟩
    rw [viewWitnessScript, if_neg hkey]

theorem signScripts_acts {scripts : Nat → Data} (item : Data) (hi : i < tx.inputs.length) :
    Acts (Later tx scripts) viewAt i (signScripts c item i)
      (onInput tx i (viewScripts c tx (transactionDigest (tx.withScripts scripts)) item i)) := by
  apply Later.acts
  intro st hs
  obtain ⟨input, hin⟩ : ∃ input, tx.inputs[i]? = some input := ⟨_, List.getElem?_eq_getElem hi⟩
  obtain ⟨x, hx, -, htype⟩ := input_of_core hs.core hin
  have hd : transactionDigest st.transaction = transactionDigest (tx.withScripts scripts) :=
    transactionDigest_eq_withScripts hs.core fun k hk => by rw [hs.scripts k hk]
  unfold signScripts
  rw [hx]
  dsimp only
  rw [htype, scriptSig_viewAt, ← InputView.redeem]
  by_cases hskip : item.length ≠ 32 ∨ pubKey c item = none
  · rw [if_pos hskip]
    refine ⟨⟨rfl, ?_, fun _ _ => rfl⟩, fun _ => rfl⟩
    rw [onInput_some hin, viewScripts, if_pos hskip]
  rw [if_neg hskip]
  by_cases hnested : transactionInputType input = .payToScriptHash ∧
      dataEqual (viewAt st i).redeem (some (nestedP2wpkhScript c (pubKey c item))) = true
  · have hnew := moves_newStack hx
      [witnessSignature c tx i (some (p2wpkhImpliedScript c (pubKey c item))) item, pubKey c item]
    rw [if_pos hnested, witnessSignature_congr hs.core]
    refine ⟨⟨hnew.core, ?_, hnew.there⟩, scriptAt_newStack st _⟩
    rw [hnew.here, onInput_some hin, viewScripts, if_neg hskip, if_pos hnested]
  rw [if_neg hnested]
  -- what the redeem script branch leaves is the state the witness script branch starts from
  obtain ⟨st', f, hst', hf, hmove, htx⟩ : ∃ st' f,
      st' = (if transactionInputType input = .payToScriptHash then signRedeemScript c item i (viewAt st i).redeem st else st) ∧
      f = (fun v => if transactionInputType input = .payToScriptHash then
        viewRedeemScript c (transactionDigest (tx.withScripts scripts)) item i v else v) ∧
      Moves i f st st' ∧ st'.transaction = st.transaction := by
    refine ⟨_, _, rfl, rfl, ?_⟩
    split
    · exact moves_redeemScript hd
    · exact ⟨Moves.refl st, rfl⟩
  have hx' : st'.transaction.inputs[i]? = some x := htx ▸ hx
  have hview : onInput tx i (viewScripts c tx (transactionDigest (tx.withScripts scripts)) item i) (viewAt st i) =
      if transactionInputType input = .payToScriptWitness ∨ (viewAt st' i).witnessStack.length ≠ 0 then
        viewWitnessScript c tx item i (viewAt st' i) else viewAt st' i := by
    rw [hmove.here, onInput_some hin, viewScripts, if_neg hskip, if_neg hnested, hf]
  rw [← hst', witnessStack_viewAt hx']
  split
  · rename_i hstack
    have hcore' : st'.transaction.core = tx.core := by rw [htx, hs.core]
    obtain ⟨hwitness, hscripts⟩ := moves_witnessScript (c := c) item hcore' hx'
    have hboth := hmove.trans hwitness
    refine ⟨⟨hboth.core, ?_, hboth.there⟩, fun k => by rw [hscripts k, htx]⟩
    rw [hwitness.here, hview, if_pos hstack]
  · rename_i hstack
    refine ⟨⟨hmove.core, ?_, hmove.there⟩, fun k => by rw [htx]⟩
    rw [hview, if_neg hstack]

/-! ## The whole run -/

theorem viewAt_start (k : Nat) : viewAt (signStart tx) k =
    match tx.inputs[k]? with
    | some input => startView input
    | none => ⟨[], none, false, []⟩ := by
  unfold viewAt signStart
  dsimp only
  rw [find_stash, clearScriptSigs, List.getElem?_map, Option.map_map]
  cases tx.inputs[k]? with
  | none => rfl
  | some input =>
    have hstack : (clearScriptSig input).witnessStack = input.witnessStack := by
      unfold clearScriptSig
      split <;> rfl
    simp [startView, hstack]

theorem scriptAt_start {k : Nat} (hk : k < tx.inputs.length) :
    scriptAt (signStart tx).transaction k = carriedScripts tx false false 0 k := by
  have hin : tx.inputs[k]? = some tx.inputs[k] := List.getElem?_eq_getElem hk
  unfold scriptAt signStart
  dsimp only
  rw [carriedScripts_here hin, clearScriptSigs, List.getElem?_map, hin]
  generalize tx.inputs[k] = input
  unfold carriedScript clearScriptSig carriesScript
  cases ht : transactionInputType input <;> simp [ht, TransactionInputType.isLegacy]

/-- The run, input by input. -/
structure SignedRun (c : Crypto) (tx : Transaction) (items : Datas) (st : SignState) : Prop where
  core : st.transaction.core = tx.core
  scripts : ∀ k < tx.inputs.length,
    scriptAt st.transaction k = carriedScripts tx (endsDirty false items) (endsDirty false items) 0 k
  views : ∀ k input, tx.inputs[k]? = some input → viewAt st k = signedView c tx items k input
  beyond : ∀ k, tx.inputs[k]? = none → viewAt st k = ⟨[], none, false, []⟩

/-- Only inputs have a script sig. -/
theorem SignedRun.inputs {items : Datas} {st : SignState} (h : SignedRun c tx items st) {k : Nat}
    (hfind : dictionaryFind st.scriptSigs k ≠ none) : k < tx.inputs.length := by
  by_contra hk
  exact hfind (congrArg InputView.scriptSig (h.beyond k (List.getElem?_eq_none (Nat.le_of_not_lt hk))))

theorem signPasses_run (c : Crypto) (tx : Transaction) (items : Datas) : SignedRun c tx items (signPasses c tx items) := by
  obtain ⟨hcore, hscripts, hviews⟩ :=
    signDirects c tx false items (core_clearScriptSigs tx) fun _ hk => scriptAt_start hk
  obtain ⟨hlater₂, hviews₂⟩ := Acts.foldl_forRange (l := items)
    (fun item _ _ hi => signNested_acts (c := c) item hi) (Later.mk hcore hscripts)
  obtain ⟨hlater₃, hviews₃⟩ := Acts.foldl_forRange (l := items)
    (fun item _ _ hi => signScripts_acts (c := c) item hi) hlater₂
  have hview : ∀ k, viewAt (signPasses c tx items) k = _ := fun k => hviews₃ k
  refine ⟨hlater₃.core, hlater₃.scripts, ?_, ?_⟩
  · intro k input hin
    have hk : k < tx.inputs.length := (List.getElem?_eq_some_iff.mp hin).1
    rw [hview, if_pos hk, hviews₂ k, if_pos hk, hviews k, viewAt_start k, hin]
    simp only [onInput_some hin]
    rfl
  · intro k hin
    have hk : ¬ k < tx.inputs.length := Nat.not_lt.mpr (List.getElem?_eq_none_iff.mp hin)
    rw [hview, if_neg hk, hviews₂ k, if_neg hk, hviews k, onInput_none hin, viewAt_start k, hin]

end BitcoinSpoon
