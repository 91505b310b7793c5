/-
  BitcoinSpoon.Transaction.Sign — local signing (`TransactionSign`, `TransactionFinalize`
  and their helpers, `code/Transaction.c`).

  `DataRaw(input)` in the lists of affected inputs is the input's address; here it is its
  index. `none` is `abort()`, or a read or write outside a list, which C does not define.
  `SignState.signed` is not in the source: it records the message of every signature
  made over `TransactionDigest`, for the statements about them.
-/

import Mathlib.Algebra.Ring.Int.Defs
import BitcoinSpoon.Loop.Rules
import BitcoinSpoon.Transaction.Basic

namespace BitcoinSpoon

open Wire Loop

/-! ## Setting script sigs aside

Five functions start by moving the script sigs of the legacy inputs into a dictionary
and end by copying the dictionary back. -/

def clearScriptSig (input : TransactionInput) : TransactionInput :=
  if (transactionInputType input).isLegacy then { input with scriptData := none } else input

def clearScriptSigs (tx : Transaction) : Transaction := { tx with inputs := tx.inputs.map clearScriptSig }

def stashFrom (dict : Dictionary Nat) (i : Nat) : List TransactionInput → Dictionary Nat
  | [] => dict
  | input :: inputs =>
    stashFrom
      (if (transactionInputType input).isLegacy && input.scriptData.isSome then dictionaryAddCopy dict i input.scriptData
        else dict)
      (i + 1) inputs

def stashScriptSigs (tx : Transaction) : Dictionary Nat := stashFrom Dictionary.empty 0 tx.inputs

def restoreElements (tx : Transaction) : List (Nat × Data) → Option Transaction
  | [] => some tx
  | (key, value) :: rest =>
    if key < tx.inputs.length then restoreElements (tx.setScriptData key value) rest else none

def restoreScriptSigs (scriptSigs : Dictionary Nat) (tx : Transaction) : Option Transaction :=
  restoreElements tx scriptSigs.elements

/-- Each index once, in order of first occurrence. -/
def trimDuplicateInstances : List Nat → List Nat
  | array => array.foldl (fun trimmed item => if item ∈ trimmed then trimmed else trimmed ++ [item]) []

/-! ## The three passes -/

structure LegacySignature where
  input : Nat
  digest : Data
  key : Data
  deriving DecidableEq, Repr

structure SignState where
  transaction : Transaction
  scriptSigs : Dictionary Nat
  result : List Nat
  signed : List LegacySignature

namespace SignState

def setScriptData (st : SignState) (i : Nat) (scriptData : Data) : SignState :=
  { st with transaction := st.transaction.setScriptData i scriptData }

def setWitnessStack (st : SignState) (i : Nat) (witnessStack : Datas) : SignState :=
  { st with transaction := st.transaction.setWitnessStack i witnessStack }

def setScriptSig (st : SignState) (i : Nat) (scriptSig : Bytes) : SignState :=
  { st with scriptSigs := dictionaryAddCopy st.scriptSigs i (some scriptSig) }

def effect (st : SignState) (i : Nat) : SignState := { st with result := st.result ++ [i] }

def record (st : SignState) (i : Nat) (digest key : Data) : SignState :=
  { st with signed := st.signed ++ [⟨i, digest, key⟩] }

def scriptSig (st : SignState) (i : Nat) : Data := dictionaryGetValue st.scriptSigs i

end SignState

variable (c : Crypto)

/-- One key of a pay-to-pubkey script; the input carries its script code. -/
def signScriptPubKey (item : Data) (i : Nat) (scriptPubKey : Data) (st : SignState) : SignState :=
  if dataEqual scriptPubKey (pubKey c item) || dataEqual scriptPubKey (pubKeyFull c item) then
    let digest := transactionDigest st.transaction
    let array := readPushes (st.scriptSig i) ++ [signAll c digest item]
    ((st.setScriptSig i (writePushes array)).effect i).record i digest item
  else st

def signPayToPubkey (item : Data) (i : Nat) (input : TransactionInput) (st : SignState) : SignState :=
  let st := st.setScriptData i input.fundingOutput.script
  -- `continue`: the script stays in the input
  if item.length ≠ 32 then st
  else
    let st := (allPubKeys input.fundingOutput.script).foldl (fun st key => signScriptPubKey c item i key st) st
    st.setScriptData i none

/-- The script sig of a pay-to-pubkey-hash input, for the form of the key that was hashed. -/
def signHashedKey (item : Data) (i : Nat) (pub : Data) (st : SignState) : SignState :=
  let digest := transactionDigest st.transaction
  ((st.setScriptSig i (scriptPush (signAll c digest item) ++ scriptPush pub)).effect i).record i digest item

def signPayToPubkeyHash (item : Data) (i : Nat) (input : TransactionInput) (st : SignState) : SignState :=
  let st := st.setScriptData i input.fundingOutput.script
  -- `continue`: the script stays in the input
  if item.length ≠ 32 then st
  else
    let pubFull := pubKeyFull c item
    let pub := pubKey c item
    let script := input.fundingOutput.script
    let st :=
      if pub.isSome && dataEqual (some (p2pkhPubScript (hash160 c pubFull))) script then signHashedKey c item i pubFull st
      else if pub.isSome && dataEqual (some (p2pkhPubScript (hash160 c pub))) script then signHashedKey c item i pub st
      else st
    st.setScriptData i none

/-- The signature over the witness digest with script code `script`, which the input
    carries only meanwhile. -/
def witnessSignature (tx : Transaction) (i : Nat) (script item : Data) : Data :=
  signAll c (transactionWitnessDigest c (tx.setScriptData i script) i) item

def signPayToPubkeyWitness (item : Data) (i : Nat) (input : TransactionInput) (st : SignState) : SignState :=
  if item.length ≠ 32 then st
  else
    let pub := pubKey c item
    if pub.isSome && dataEqual (p2wpkhPubScriptFromPubKey c pub) input.fundingOutput.script then
      let signature := witnessSignature c st.transaction i (some (p2wpkhImpliedScript c pub)) item
      (st.setWitnessStack i [signature, pub]).effect i
    else st

def signPayToScriptHash (item : Data) (i : Nat) (input : TransactionInput) (st : SignState) : SignState :=
  if dataEqual (some (p2shPubScriptWithScript c item)) input.fundingOutput.script then
    (st.setScriptSig i (scriptPush item)).effect i
  else st

def signPayToScriptWitness (item : Data) (i : Nat) (input : TransactionInput) (st : SignState) : SignState :=
  if dataEqual (some (p2wshPubScriptWithScript c item)) input.fundingOutput.script then
    (st.setWitnessStack i [item]).effect i
  else st

/-- First pass: keys and scripts that match a funding script. -/
def signDirect (item : Data) (i : Nat) (st : SignState) : SignState :=
  match st.transaction.inputs[i]? with
  | none => st
  | some input =>
    match transactionInputType input with
    | .payToPubkey => signPayToPubkey c item i input st
    | .payToPubkeyHash => signPayToPubkeyHash c item i input st
    | .payToPubkeyWitness => signPayToPubkeyWitness c item i input st
    | .payToScriptHash => signPayToScriptHash c item i input st
    | .payToScriptWitness => signPayToScriptWitness c item i input st
    | .unknown => st

/-- Second pass: witness scripts nested in a redeem script. -/
def signNested (item : Data) (i : Nat) (st : SignState) : SignState :=
  match st.transaction.inputs[i]? with
  | none => st
  | some input =>
    if transactionInputType input = .payToScriptHash ∧ (st.scriptSig i).length ≠ 0 then
      if dataEqual (datasLast (readPushes (st.scriptSig i))) (some (nestedP2wshScript c item)) then
        (st.setWitnessStack i [item]).effect i
      else st
    else st

/-- A signature for a redeem script goes in front of the script. -/
def signRedeemScript (item : Data) (i : Nat) (script : Data) (st : SignState) : SignState :=
  if (allPubKeys script).any (dataEqual · (pubKey c item)) then
    let array := readPushes (st.scriptSig i)
    let digest := transactionDigest st.transaction
    let array := datasAddCopyIndex array (signAll c digest item) (array.length - 1)
    ((st.setScriptSig i (writePushes array)).effect i).record i digest item
  else st

/-- A signature for a witness script goes in front of the script, unless it is there. -/
def signWitnessScript (item : Data) (i : Nat) (input : TransactionInput) (st : SignState) : SignState :=
  let script := datasLast input.witnessStack
  if (allPubKeys script).any (dataEqual · (pubKey c item)) then
    let array := input.witnessStack
    let sig := witnessSignature c st.transaction i script item
    let array := if datasHasMatchingData array sig then array else datasAddCopyIndex array sig (array.length - 1)
    (st.setWitnessStack i array).effect i
  else st

/-- Third pass: keys of redeem scripts and witness scripts. -/
def signScripts (item : Data) (i : Nat) (st : SignState) : SignState :=
  match st.transaction.inputs[i]? with
  | none => st
  | some input =>
    let pub := pubKey c item
    -- both branches of the source start by skipping items that are not a key
    if item.length ≠ 32 ∨ pub = none then st
    else
      let script := datasLast (readPushes (st.scriptSig i))
      if transactionInputType input = .payToScriptHash ∧ dataEqual script (some (nestedP2wpkhScript c pub)) then
        let sig := witnessSignature c st.transaction i (some (p2wpkhImpliedScript c pub)) item
        (st.setWitnessStack i [sig, pub]).effect i
      else
        let st := if transactionInputType input = .payToScriptHash then signRedeemScript c item i script st else st
        if transactionInputType input = .payToScriptWitness ∨ input.witnessStack.length ≠ 0 then
          signWitnessScript c item i input st
        else st

def signPass (pass : Data → Nat → SignState → SignState) (n : Nat) (items : Datas) (st : SignState) : SignState :=
  items.foldl (fun st item => forRange n (pass item) st) st

def signStart (tx : Transaction) : SignState :=
  { transaction := clearScriptSigs tx, scriptSigs := stashScriptSigs tx, result := [], signed := [] }

def signPasses (tx : Transaction) (privKeysAndScripts : Datas) : SignState :=
  let n := tx.inputs.length
  let st := signPass (signDirect c) n privKeysAndScripts (signStart tx)
  let st := signPass (signNested c) n privKeysAndScripts st
  signPass (signScripts c) n privKeysAndScripts st

/-! ## Finalizing -/

/-- The signatures `pub` accepts, taken out of the list one after another. After taking
    one the index still advances, so the next one is not looked at. -/
def takeVerified (accepts : Data → Bool) : Datas → Datas × Datas
  | [] => ([], [])
  | [sig] => if accepts sig then ([sig], []) else ([], [sig])
  | sig :: next :: rest =>
    if accepts sig then
      let (taken, left) := takeVerified accepts rest
      (sig :: taken, next :: left)
    else
      let (taken, left) := takeVerified accepts (next :: rest)
      (taken, sig :: left)

/-- `newStack`: the signatures in the order of the keys. -/
def sortByKeys (accepts : Data → Data → Bool) : Datas → Datas → Datas
  | [], _ => []
  | pub :: pubs, signatures =>
    let (taken, left) := takeVerified (accepts pub) signatures
    taken ++ sortByKeys accepts pubs left

/-- `newStack` and the script. -/
def sortedStack (tx : Transaction) (i : Nat) (witnessStack : Datas) : Datas :=
  let script := datasLast witnessStack
  let digest := transactionWitnessDigest c (tx.setScriptData i script) i
  sortByKeys (fun pub sig => verify c sig digest pub) (allPubKeys script) witnessStack.dropLast ++ [script]

def sortInput (i : Nat) (tx : Transaction) : Option (Transaction × Bool) :=
  match tx.inputs[i]? with
  | none => some (tx, true)
  | some input =>
    if 2 < input.witnessStack.length then
      let newStack := sortedStack c tx i input.witnessStack
      if newStack.length = input.witnessStack.length then some (tx.setWitnessStack i newStack, true) else some (tx, false)
    -- `abort()`: not implemented
    else if 2 < (transactionInputScriptStack input).length then none
    else some (tx, true)

def sortInputs : List Nat → Transaction → Option (Transaction × Bool)
  | [], tx => some (tx, true)
  | i :: rest, tx =>
    match sortInput c i tx with
    | none => none
    | some (tx, sorted) =>
      match sortInputs rest tx with
      | none => none
      | some (tx, allSorted) => some (tx, sorted && allSorted)

def sortSignatures (tx : Transaction) : Option (Transaction × Bool) :=
  match sortInputs c (List.range tx.inputs.length) (clearScriptSigs tx) with
  | none => none
  | some (sorted, result) => (restoreScriptSigs (stashScriptSigs tx) sorted).map (·, result)

/-- `index` walks the stack; every CHECKMULTISIG gets an empty element first. -/
def placeSignatures (stack : Datas) : ScriptTokens → Nat → Option Datas
  | [], _ => some []
  | token :: tokens, index =>
    if isCheckMultisig token.op then
      let count := token.neededSigs.toNat
      if index + count ≤ stack.length then
        (placeSignatures stack tokens (index + count)).map fun placed => some [] :: (stack.drop index).take count ++ placed
      else none
    else if index < stack.length then
      (placeSignatures stack tokens (index + 1)).map fun placed => stack.getD index none :: placed
    else none

def correctMultisigSignaturesInStack (stack : Datas) : Option Datas :=
  let tokens := allCheckSigs (datasLast stack)
  let neededSigs := (tokens.map (·.neededSigs)).sum
  if (stack.length : Int) - 1 ≠ neededSigs then some stack
  else (placeSignatures stack tokens 0).map (· ++ [datasLast stack])

/-- One input of `TransactionCorrectMultisigSignatures`. -/
def correctInput (input : TransactionInput) : Option TransactionInput := do
  let witnessStack ←
    if 1 < input.witnessStack.length then correctMultisigSignaturesInStack input.witnessStack
    else some input.witnessStack
  let scriptData ←
    if 1 < (transactionInputScriptStack input).length then
      (correctMultisigSignaturesInStack (transactionInputScriptStack input)).map fun stack => some (writePushes stack)
    else some input.scriptData
  some { input with witnessStack, scriptData }

def correctMultisigSignatures (tx : Transaction) : Option Transaction := do
  let inputs ← (clearScriptSigs tx).inputs.mapM correctInput
  restoreScriptSigs (stashScriptSigs tx) { tx with inputs }

/-- The result and whether every stack could be sorted. -/
def transactionFinalize (tx : Transaction) : Option (Transaction × Bool) := do
  let (tx, result) ← sortSignatures c tx
  let tx ← correctMultisigSignatures tx
  some (tx, result)

/-- The signed transaction and the affected inputs. -/
def transactionSign (tx : Transaction) (privKeysAndScripts : Datas) : Option (Transaction × List Nat) := do
  let st := signPasses c tx privKeysAndScripts
  let tx ← restoreScriptSigs st.scriptSigs st.transaction
  let (tx, result) ← transactionFinalize c tx
  if result then some (tx, trimDuplicateInstances st.result) else none

end BitcoinSpoon
