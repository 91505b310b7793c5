/-
  BitcoinSpoon.Transaction.Remote — the remote signing interface: adding scripts and
  signatures one by one, the digests to sign, and checking witness signatures
  (`code/Transaction.c`).

  As in `Transaction.Sign`, affected inputs are indices and `none` is an access outside a
  list or an `abort()`. The C functions take the transaction by value but write through
  its input pointers, so each returns the transaction as the caller sees it afterwards.
-/

import BitcoinSpoon.Transaction.Sign

namespace BitcoinSpoon

open Wire Loop

variable (c : Crypto)

/-! ## Adding scripts -/

/-- The redeem script of the input, then its witness script: the input as it is left and
    how often it was affected. -/
def addScriptToInput (script : Data) (input : TransactionInput) : TransactionInput × Nat :=
  match transactionInputType input with
  | .payToScriptHash =>
    let (input, redeemed) :=
      if dataEqual input.fundingOutput.script (some (p2shPubScriptWithScript c script)) then
        ({ input with scriptData := some (scriptPush script) }, 1)
      else (input, 0)
    if dataEqual (datasLast (transactionInputScriptStack input)) (some (nestedP2wshScript c script)) then
      ({ input with witnessStack := [script] }, redeemed + 1)
    else (input, redeemed)
  | .payToScriptWitness =>
    if dataEqual input.fundingOutput.script (some (p2wshPubScriptWithScript c script)) then
      ({ input with witnessStack := [script] }, 1)
    else (input, 0)
  | _ => (input, 0)

/-- The positions of the inputs `f` affects. -/
def affectedBy (f : TransactionInput → TransactionInput × Nat) (tx : Transaction) : List Nat :=
  (List.range tx.inputs.length).filter fun i => (f (tx.inputs.getD i default)).2 ≠ 0

def transactionAddScript (tx : Transaction) (script : Data) : Transaction × List Nat :=
  ({ tx with inputs := tx.inputs.map fun input => (addScriptToInput c script input).1 },
    affectedBy (addScriptToInput c script) tx)

/-- One round of the loop of `TransactionAddScripts`: the transaction, the scripts that
    affected nothing yet, and the inputs the others affected. -/
def addScriptsRound (tx : Transaction) : Datas → Transaction × Datas × List Nat
  | [] => (tx, [], [])
  | script :: rest =>
    let (tx, inputs) := transactionAddScript c tx script
    let (tx, array, result) := addScriptsRound tx rest
    if inputs = [] then (tx, script :: array, result) else (tx, array, inputs ++ result)

/-- The loop ends after a round that places no script, so `rounds` need not exceed their
    number plus one. -/
def addScriptsFrom : Nat → Transaction → Datas → Transaction × List Nat
  | 0, tx, _ => (tx, [])
  | rounds + 1, tx, array =>
    let (tx', array', result) := addScriptsRound c tx array
    if array'.length = array.length then (tx', result)
    else
      let (tx'', more) := addScriptsFrom rounds tx' array'
      (tx'', result ++ more)

def transactionAddScripts (tx : Transaction) (scripts : Datas) : Transaction × List Nat :=
  let (tx, result) := addScriptsFrom c (scripts.length + 1) tx scripts
  (tx, trimDuplicateInstances result)

/-! ## Digests to sign -/

/-- The keys a legacy signature of the input may be for: those of the last push of its
    script sig, those of its funding script, and that push itself. -/
def mainPubKeys (scriptSig : Data) (input : TransactionInput) : Datas :=
  allPubKeys (datasLast (readPushes scriptSig)) ++ allPubKeys input.fundingOutput.script ++
    [datasLast (readPushes scriptSig)]

/-- The legacy digest of one input; a match leaves the input without script data. -/
def legacyDigestFor (thePubKey scriptSig : Data) (i : Nat) (tx : Transaction) : Transaction × Datas :=
  match tx.inputs[i]? with
  | none => (tx, [])
  | some input =>
    if (mainPubKeys scriptSig input).any (dataEqual · thePubKey) then
      (tx.setScriptData i none, [transactionDigest (tx.setScriptData i input.fundingOutput.script)])
    else (tx, [])

/-- The witness digest with script code `script`, which the input carries only meanwhile. -/
def scriptedDigest (tx : Transaction) (i : Nat) (script : Data) : Data :=
  transactionWitnessDigest c (tx.setScriptData i script) i

/-- The witness digests of one input: as a key hash, then once for each time its witness
    script names the key. Skipping signed ones reads every element but the last, which an
    empty stack does not have. -/
def witnessDigestsFor (thePubKey : Data) (exceptSigned : Bool) (i : Nat) (tx : Transaction) : Option Datas :=
  match tx.inputs[i]? with
  | none => some []
  | some input =>
    let last := datasLast input.witnessStack
    let keyHash :=
      if dataEqual last thePubKey then [scriptedDigest c tx i (some (p2wpkhImpliedScript c thePubKey))] else []
    if exceptSigned && input.witnessStack.isEmpty then none
    else
      let digest := scriptedDigest c tx i last
      let signed := exceptSigned && input.witnessStack.dropLast.any fun sig => verify c sig digest thePubKey
      let script := (allPubKeys last).filter fun key => dataEqual key thePubKey && !signed
      some (keyHash ++ script.map fun _ => digest)

def digestsForInputs (thePubKey : Data) (exceptSigned : Bool) (scriptSigs : Dictionary Nat) :
    List Nat → Transaction → Option (Transaction × Datas)
  | [], tx => some (tx, [])
  | i :: rest, tx => do
    let (tx, legacy) := legacyDigestFor thePubKey (dictionaryGetValue scriptSigs i) i tx
    let witness ← witnessDigestsFor c thePubKey exceptSigned i tx
    let (tx, more) ← digestsForInputs thePubKey exceptSigned scriptSigs rest tx
    some (tx, legacy ++ witness ++ more)

/-- Each digest once, in order of first occurrence. -/
def distinctDatas (result : Datas) : Datas :=
  result.foldl (fun array item => if datasHasMatchingData array item then array else array ++ [item]) []

def transactionDigestsForFlexible (tx : Transaction) (thePubKey : Data) (exceptSigned : Bool) :
    Option (Transaction × Datas) := do
  let scriptSigs := stashScriptSigs tx
  let (tx, result) ←
    digestsForInputs c thePubKey exceptSigned scriptSigs (List.range tx.inputs.length) (clearScriptSigs tx)
  let tx ← restoreScriptSigs scriptSigs tx
  some (tx, distinctDatas result)

/-! ## Adding a signature -/

structure AddState where
  transaction : Transaction
  scriptSigs : Dictionary Nat
  result : List Nat

/-- One candidate key, at position `j` of the input's list. The source's inner loop
    counts with its own `i`, and so reads and writes the script sig under `j`. -/
def addLegacySignature (signature : Data) (i : Nat) (fundingScript : Data) (j : Nat) (pubKey : Data) (st : AddState) :
    AddState :=
  let array := readPushes (dictionaryGetValue st.scriptSigs j)
  let carried := st.transaction.setScriptData i fundingScript
  let st :=
    if verify c signature (transactionDigest carried) pubKey then
      { st with
        scriptSigs := dictionaryAddCopy st.scriptSigs j (some (writePushes (array ++ [signature])))
        result := st.result ++ [i] }
    else st
  { st with transaction := st.transaction.setScriptData i none }

/-- `for(int i = mainPubKeys.count - 1; i >= 0; i--)`. -/
def addLegacySignatures (signature : Data) (i : Nat) (fundingScript : Data) (keys : Datas) (st : AddState) : AddState :=
  (List.range keys.length).reverse.foldl
    (fun st j => addLegacySignature c signature i fundingScript j (keys.getD j none) st) st

/-- A signature a key of the witness accepts goes in front of the stack. -/
def addWitnessSignature (signature : Data) (i : Nat) (script pubKey : Data) (st : AddState) : AddState :=
  match st.transaction.inputs[i]? with
  | none => st
  | some input =>
    if verify c signature (scriptedDigest c st.transaction i script) pubKey then
      { st with
        transaction := st.transaction.setWitnessStack i (signature :: input.witnessStack)
        result := st.result ++ [i] }
    else st

def addSignatureToInput (signature : Data) (i : Nat) (st : AddState) : AddState :=
  match st.transaction.inputs[i]? with
  | none => st
  | some input =>
    let keys := mainPubKeys (dictionaryGetValue st.scriptSigs i) input
    let st := addLegacySignatures c signature i input.fundingOutput.script keys st
    let last := datasLast input.witnessStack
    let st := addWitnessSignature c signature i (some (p2wpkhImpliedScript c last)) last st
    (allPubKeys last).foldl (fun st pubKey => addWitnessSignature c signature i last pubKey st) st

def transactionAddSignature (tx : Transaction) (signature : Data) : Option (Transaction × List Nat) := do
  let st := forRange tx.inputs.length (addSignatureToInput c signature)
    { transaction := clearScriptSigs tx, scriptSigs := stashScriptSigs tx, result := [] }
  let tx ← restoreScriptSigs st.scriptSigs st.transaction
  some (tx, trimDuplicateInstances st.result)

/-! ## Checking witness signatures -/

/-- Some element of the stack but the last is a signature `pubKey` accepts. -/
def hasValidSignature (witnessStack : Datas) (digest pubKey : Data) : Bool :=
  witnessStack.dropLast.any fun sig => verify c sig digest pubKey

/-- The number of elements of the stack but the last that `pubKey` accepts. -/
def validSignaturesOf (witnessStack : Datas) (digest pubKey : Data) : Nat :=
  (witnessStack.dropLast.filter fun sig => verify c sig digest pubKey).length

/-- The keys of the CHECKMULTISIG at `j`, from the last to the first. -/
def multisigKeysBefore (tokens : ScriptTokens) (j numPubKeys : Nat) : Datas :=
  (List.range numPubKeys).map fun k => (scriptTokenI tokens (j - 2 - k)).data

def validateCheckSig (witnessStack : Datas) (digest : Data) (tokens : ScriptTokens) (j : Nat) : Bool :=
  let pubKey := if 0 < j then (scriptTokenI tokens (j - 1)).data else none
  hasValidSignature c witnessStack digest pubKey

def validateCheckMultisig (witnessStack : Datas) (digest : Data) (tokens : ScriptTokens) (j : Nat) : Bool :=
  if j = 0 then false
  else
    let numPubKeys : Int := 1 + (scriptTokenI tokens (j - 1)).op - OP_1
    let tokenIndex : Int := j - 2
    if numPubKeys < 1 ∨ 16 < numPubKeys ∨ tokenIndex - numPubKeys - 1 < 0 then false
    else
      let pubKeys := multisigKeysBefore tokens j numPubKeys.toNat
      let numSigs : Int := 1 + (scriptTokenI tokens (j - 2 - numPubKeys.toNat)).op - OP_1
      if numSigs < 1 ∨ 16 < numSigs then false
      else
        let validSignatures := (pubKeys.map (validSignaturesOf c witnessStack digest)).sum
        (validSignatures : Int) = numSigs

def validateToken (witnessStack : Datas) (digest : Data) (tokens : ScriptTokens) (j : Nat) : Bool :=
  let op := (scriptTokenI tokens j).op
  if isCheckSig op then validateCheckSig c witnessStack digest tokens j
  else if isCheckMultisig op then validateCheckMultisig c witnessStack digest tokens j
  else true

/-- The result, and the transaction as it is left. -/
def transactionValidateSignature (tx : Transaction) (i : Nat) : Bool × Transaction :=
  match tx.inputs[i]? with
  -- not called with such an index
  | none => (false, tx)
  | some input =>
    let oldValue := input.scriptData
    let last := datasLast input.witnessStack
    let keyHash := tx.setScriptData i (some (p2wpkhImpliedScript c last))
    if input.witnessStack.length = 2 ∧
        verify c (datasFirst input.witnessStack) (transactionWitnessDigest c keyHash i) last then
      (true, keyHash.setScriptData i oldValue)
    else
      let scripted := (if input.witnessStack.length = 2 then keyHash else tx).setScriptData i last
      let digest := transactionWitnessDigest c scripted i
      let tokens := scriptToTokens last
      ((List.range tokens.length).all (validateToken c input.witnessStack digest tokens), scripted.setScriptData i oldValue)

/-- The inputs up to the first that fails. -/
def validateFrom : List Nat → Transaction → Bool × Transaction
  | [], tx => (true, tx)
  | i :: rest, tx =>
    let (valid, tx) := transactionValidateSignature c tx i
    if valid then validateFrom rest tx else (false, tx)

def transactionValidateSignatures (tx : Transaction) : Bool × Transaction :=
  validateFrom c (List.range tx.inputs.length) tx

end BitcoinSpoon
