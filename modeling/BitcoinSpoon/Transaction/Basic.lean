/-
  BitcoinSpoon.Transaction.Basic — transactions, their serialization and their digests
  (`code/Transaction.c`, `code/Transaction.h`).

  `transactionNew` returns `none` where `TransactionNew` calls `abort()`. The cached
  `height` and the cached push sets are left out: nothing below reads them. An input is
  a pointer in C, so writes to it are seen by every later read; here the transaction is
  passed along and `modifyInput` is the write.
-/

import BitcoinSpoon.Util.Keys

namespace BitcoinSpoon

open Wire

structure TransactionOutput where
  script : Data
  value : UInt64
  deriving DecidableEq, Repr, Inhabited

structure TransactionInput where
  /-- Not serialized: the output this input spends, as far as it is known. -/
  fundingOutput : TransactionOutput
  previousTransactionHash : Data
  outputIndex : UInt32
  scriptData : Data
  sequence : UInt32
  witnessStack : Datas
  /-- A guess for display, an opcode or 0. -/
  witnessFlag : Nat
  deriving DecidableEq, Repr, Inhabited

@[ext] structure Transaction where
  version : UInt32
  inputs : List TransactionInput
  outputs : List TransactionOutput
  locktime : UInt32
  deriving DecidableEq, Repr, Inhabited

namespace Transaction

def modifyInput (tx : Transaction) (i : Nat) (f : TransactionInput → TransactionInput) : Transaction :=
  { tx with inputs := tx.inputs.modify i f }

def setScriptData (tx : Transaction) (i : Nat) (scriptData : Data) : Transaction :=
  tx.modifyInput i fun input => { input with scriptData }

def setWitnessStack (tx : Transaction) (i : Nat) (witnessStack : Datas) : Transaction :=
  tx.modifyInput i fun input => { input with witnessStack }

end Transaction

section

variable (tx : Transaction) (i j : Nat)

@[simp] theorem modifyInput_version (f) : (tx.modifyInput i f).version = tx.version := rfl
@[simp] theorem modifyInput_outputs (f) : (tx.modifyInput i f).outputs = tx.outputs := rfl
@[simp] theorem modifyInput_locktime (f) : (tx.modifyInput i f).locktime = tx.locktime := rfl
@[simp] theorem modifyInput_length (f) : (tx.modifyInput i f).inputs.length = tx.inputs.length := List.length_modify ..

theorem getElem?_modifyInput (f) :
    (tx.modifyInput i f).inputs[j]? = if i = j then tx.inputs[j]?.map f else tx.inputs[j]? := by
  rw [Transaction.modifyInput, List.getElem?_modify]
  split <;> simp

theorem modifyInput_modifyInput (f g) : (tx.modifyInput i f).modifyInput i g = tx.modifyInput i (g ∘ f) := by
  ext1
  · rfl
  · apply List.ext_getElem?
    intro k
    rw [getElem?_modifyInput, getElem?_modifyInput, getElem?_modifyInput]
    split <;> simp
  · rfl
  · rfl

theorem modifyInput_self {tx : Transaction} {i : Nat} {f : TransactionInput → TransactionInput}
    (h : ∀ input, tx.inputs[i]? = some input → f input = input) : tx.modifyInput i f = tx := by
  ext1
  · rfl
  · apply List.ext_getElem?
    intro k
    rw [getElem?_modifyInput]
    split
    · rename_i hk
      subst hk
      cases hi : tx.inputs[i]? with
      | none => rfl
      | some input => rw [Option.map_some, h input hi]
    · rfl
  · rfl
  · rfl

@[simp] theorem setScriptData_length (d) : (tx.setScriptData i d).inputs.length = tx.inputs.length :=
  modifyInput_length ..

/-- Only the last write counts. -/
@[simp] theorem setScriptData_setScriptData (d e) : (tx.setScriptData i d).setScriptData i e = tx.setScriptData i e :=
  modifyInput_modifyInput ..

/-- Writing back what was there. -/
theorem setScriptData_self {tx : Transaction} {i : Nat} {input : TransactionInput} (h : tx.inputs[i]? = some input) :
    tx.setScriptData i input.scriptData = tx := by
  apply modifyInput_self
  intro x hx
  obtain rfl := Option.some.inj (h.symm.trans hx)
  rfl

end

/-! ## Parsing -/

/-- `readBytes(readVarInt(&ptr, end), &ptr, end)`. -/
def readVarBytes : Reader Data := do
  let length ← readVarInt
  readBytes length

/-- `for(uint64_t i = 0, count = readVarInt(&ptr, end); i < count; i++)`. -/
def readCounted {α : Type} (r : Reader α) : Reader (List α) := do
  let count ← readVarInt
  many r count

def readInput : Reader TransactionInput := do
  let previousTransactionHash ← readBytes 32
  let outputIndex ← uint32readP
  let scriptData ← readVarBytes
  let sequence ← uint32readP
  pure { fundingOutput := ⟨none, 0⟩, previousTransactionHash, outputIndex := UInt32.ofNat outputIndex, scriptData
         sequence := UInt32.ofNat sequence, witnessStack := [], witnessFlag := 0 }

def readOutput : Reader TransactionOutput := do
  let value ← uint64readP
  let script ← readVarBytes
  pure { script, value := UInt64.ofNat value }

/-- The display flag `TransactionNew` guesses from the script sig and the stack. -/
def guessWitnessFlag (scriptData : Data) (witnessStack : Datas) : Nat :=
  match scriptData.toBytes with
  | [] => if witnessStack.length = 2 then OP_P2WPKH else OP_P2WSH
  | length :: witnessVersion :: pushSize :: _ :: _ =>
    if 2 < length.toNat ∧ length.toNat < 40 ∧ witnessVersion = 0 then
      if pushSize = 0x20 then OP_P2WSH else if pushSize = 0x14 then OP_P2WPKH else OP_ERROR
    else 0
  | _ => 0

def readWitness (input : TransactionInput) : Reader TransactionInput := do
  let witnessStack ← readCounted readVarBytes
  pure { input with witnessStack, witnessFlag := guessWitnessFlag input.scriptData witnessStack }

def readWitnesses : List TransactionInput → Reader (List TransactionInput)
  | [] => pure []
  | input :: inputs => do
    let input ← readWitness input
    let inputs ← readWitnesses inputs
    pure (input :: inputs)

def readWitnessSection (hasWitness : Bool) (inputs : List TransactionInput) : Reader (List TransactionInput) :=
  if hasWitness then readWitnesses inputs else pure inputs

/-- `end - ptr > 1 && !ptr[0] && ptr[1]`. -/
def hasWitnessMarker (b : Bytes) : Bool :=
  match b with
  | marker :: flag :: _ => marker = 0 && flag ≠ 0
  | _ => false

/-- What follows the version and the marker. -/
def readBody (version : UInt32) (hasWitness : Bool) : Reader Transaction := do
  let inputs ← readCounted readInput
  let outputs ← readCounted readOutput
  let inputs ← readWitnessSection hasWitness inputs
  let locktime ← uint32readP
  pure { version, inputs, outputs, locktime := UInt32.ofNat locktime }

def readMarkedBody (version : UInt32) : Reader Transaction := fun b =>
  if hasWitnessMarker b then readBody version true (b.drop 2) else readBody version false b

def readTransaction : Reader Transaction := do
  let version ← uint32readP
  readMarkedBody (UInt32.ofNat version)

/-- Aborts when bytes are left over. -/
def transactionNew (data : Data) : Option Transaction :=
  let (inst, rest) := readTransaction data.toBytes
  if rest ≠ [] then none else some inst

/-! ## Serializing -/

def transactionInputData (input : TransactionInput) : Bytes :=
  input.previousTransactionHash.toBytes ++ uint32D input.outputIndex.toNat ++ varIntD input.scriptData.length ++
    input.scriptData.toBytes ++ uint32D input.sequence.toNat

def transactionOutputData (output : TransactionOutput) : Bytes :=
  uint64D output.value.toNat ++ varIntD output.script.length ++ output.script.toBytes

def witnessItemData (item : Data) : Bytes := varIntD item.length ++ item.toBytes

def transactionInputWitnessData (input : TransactionInput) : Bytes :=
  varIntD input.witnessStack.length ++ input.witnessStack.flatMap witnessItemData

def transactionHasWitnessData (tx : Transaction) : Bool := tx.inputs.any fun input => input.witnessStack.length ≠ 0

def transactionData (tx : Transaction) : Bytes :=
  uint32D tx.version.toNat ++
    (if transactionHasWitnessData tx then uint16D 0x0100 else []) ++
    varIntD tx.inputs.length ++ tx.inputs.flatMap transactionInputData ++
    varIntD tx.outputs.length ++ tx.outputs.flatMap transactionOutputData ++
    (if transactionHasWitnessData tx then tx.inputs.flatMap transactionInputWitnessData else []) ++
    uint32D tx.locktime.toNat

def transactionTx (tx : Transaction) : Bytes :=
  uint32D tx.version.toNat ++ varIntD tx.inputs.length ++ tx.inputs.flatMap transactionInputData ++
    varIntD tx.outputs.length ++ tx.outputs.flatMap transactionOutputData ++ uint32D tx.locktime.toNat

def transactionWtx (tx : Transaction) : Bytes :=
  uint32D tx.version.toNat ++
    (if transactionHasWitnessData tx then uint8D 0x00 ++ uint8D 0x01 else []) ++
    varIntD tx.inputs.length ++ tx.inputs.flatMap transactionInputData ++
    varIntD tx.outputs.length ++ tx.outputs.flatMap transactionOutputData ++
    (if transactionHasWitnessData tx then tx.inputs.flatMap transactionInputWitnessData else []) ++
    uint32D tx.locktime.toNat

variable (c : Crypto)

def transactionTxid (tx : Transaction) : Data := hash256 c (some (transactionTx tx))

def transactionWtxid (tx : Transaction) : Data := hash256 c (some (transactionWtx tx))

/-! ## Digests -/

/-- The hash type is SIGHASH_ALL. -/
def transactionDigest (tx : Transaction) : Data := some (transactionTx tx ++ uint32D 0x00000001)

def prevOuts (tx : Transaction) : Bytes :=
  tx.inputs.flatMap fun input => input.previousTransactionHash.toBytes ++ uint32D input.outputIndex.toNat

def sequences (tx : Transaction) : Bytes := tx.inputs.flatMap fun input => uint32D input.sequence.toNat

def outputsData (tx : Transaction) : Bytes := tx.outputs.flatMap transactionOutputData

/-- NULL without an input at `index` or without a script code. -/
def transactionWitnessDigestFlexible (tx : Transaction) (index : Nat) (value : UInt64) : Data :=
  match tx.inputs[index]? with
  | none => none
  | some activeInput =>
    if activeInput.scriptData.length = 0 then none
    else
      some <|
        uint32D tx.version.toNat ++ (hash256 c (some (prevOuts tx))).toBytes ++
          (hash256 c (some (sequences tx))).toBytes ++
          activeInput.previousTransactionHash.toBytes ++ uint32D activeInput.outputIndex.toNat ++
          varIntD activeInput.scriptData.length ++ activeInput.scriptData.toBytes ++ uint64D value.toNat ++
          uint32D activeInput.sequence.toNat ++ (hash256 c (some (outputsData tx))).toBytes ++
          uint32D tx.locktime.toNat ++ uint32D 0x00000001

/-- NULL without a funding script. -/
def transactionWitnessDigest (tx : Transaction) (index : Nat) : Data :=
  match tx.inputs[index]? with
  | none => none
  | some input =>
    if input.fundingOutput.script = none then none
    else transactionWitnessDigestFlexible c tx index input.fundingOutput.value

/-! ## Input types -/

inductive TransactionInputType where
  | unknown
  | payToPubkey
  | payToPubkeyHash
  | payToScriptHash
  | payToPubkeyWitness
  | payToScriptWitness
  deriving DecidableEq, Repr

/-- `TransactionInputTypeLegacyMask`. -/
def TransactionInputType.isLegacy : TransactionInputType → Bool
  | .payToPubkey | .payToPubkeyHash | .payToScriptHash => true
  | .unknown | .payToPubkeyWitness | .payToScriptWitness => false

def transactionInputType (input : TransactionInput) : TransactionInputType :=
  let script := input.fundingOutput.script.toBytes
  let at_ (k : Nat) : Nat := (script.getD k 0).toNat
  let length := script.length
  if length = 0 then .unknown
  else if length = 23 ∧ at_ 0 = OP_HASH160 ∧ at_ 1 = 20 ∧ at_ 22 = OP_EQUAL then .payToScriptHash
  else if at_ 0 = 0 ∧ length = 22 ∧ at_ 1 = 20 then .payToPubkeyWitness
  else if at_ 0 = 0 ∧ length = 34 ∧ at_ 1 = 32 then .payToScriptWitness
  else if at_ 0 = OP_DUP ∧ length = 25 ∧ at_ 1 = OP_HASH160 ∧ at_ 2 = 20 ∧ at_ 23 = OP_EQUALVERIFY ∧
      at_ 24 = OP_CHECKSIG then .payToPubkeyHash
  else .payToPubkey

def transactionInputScriptStack (input : TransactionInput) : Datas :=
  scriptStackFrom input.scriptData.length input.scriptData.toBytes

end BitcoinSpoon
