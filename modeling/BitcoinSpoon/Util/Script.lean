/-
  BitcoinSpoon.Util.Script — numbers, pushes and script tokens (`code/BTCUtil.c`,
  `code/ScriptToken.c`, `code/BTCConstants.h`).

  The C readers take `const uint8_t **ptr` and `end`; here they are readers on the bytes
  from `*ptr` to `end` (`Wire.Cursor`). A read that does not fit moves the cursor to the
  end and gives 0 or NULL.
-/

import BitcoinSpoon.Util.Data

namespace BitcoinSpoon

open Wire

/-! ## Opcodes -/

def OP_PUSHDATA1 : Nat := 0x4c
def OP_PUSHDATA2 : Nat := 0x4d
def OP_PUSHDATA4 : Nat := 0x4e
def OP_1 : Nat := 0x51
def OP_16 : Nat := 0x60
def OP_DUP : Nat := 0x76
def OP_EQUAL : Nat := 0x87
def OP_EQUALVERIFY : Nat := 0x88
def OP_HASH160 : Nat := 0xa9
def OP_CHECKSIG : Nat := 0xac
def OP_CHECKSIGVERIFY : Nat := 0xad
def OP_CHECKMULTISIG : Nat := 0xae
def OP_CHECKMULTISIGVERIFY : Nat := 0xaf
def OP_P2WPKH : Nat := 0xe2
def OP_P2WSH : Nat := 0xe3
def OP_ERROR : Nat := 0xf0

/-! ## Numbers -/

def uint8D (number : Nat) : Bytes := leBytes 1 number
def uint16D (number : Nat) : Bytes := leBytes 2 number
def uint32D (number : Nat) : Bytes := leBytes 4 number
def uint64D (number : Nat) : Bytes := leBytes 8 number

def uint8readP : Reader Nat := readLE 1
def uint16readP : Reader Nat := readLE 2
def uint32readP : Reader Nat := readLE 4
def uint64readP : Reader Nat := readLE 8

/-- `number` is a `uint64_t`; the tests are the source's masks. -/
def varIntD (number : Nat) : Bytes :=
  if number &&& 0xFFFFFFFF00000000 ≠ 0 then uint8D 0xff ++ uint64D number
  else if number &&& 0xFFFF0000 ≠ 0 then uint8D 0xfe ++ uint32D number
  else if number &&& 0xFF00 ≠ 0 then uint8D 0xfd ++ uint16D number
  else uint8D number

def readVarInt : Reader Nat := do
  let result ← uint8readP
  if result < 253 then pure result
  else if result < 254 then uint16readP
  else if result < 255 then uint32readP
  else uint64readP

/-- A pointer into the data, NULL past the end. -/
def readBytesUnsafe (bytes : Nat) : Reader Data := readRaw bytes

def readBytes (bytes : Nat) : Reader Data := readBytesUnsafe bytes

/-! ## Pushes -/

/-- The size of the push and its opcode. -/
def readPushDataWithOp : Reader (Nat × Nat) := do
  let result ← uint8readP
  if result < OP_PUSHDATA1 then pure (result, result)
  else if result = OP_PUSHDATA1 then do let size ← uint8readP; pure (size, result)
  else if result = OP_PUSHDATA2 then do let size ← uint16readP; pure (size, result)
  -- the assertion that the opcode is OP_PUSHDATA4 is compiled out
  else do let size ← uint32readP; pure (size, result)

def readPushData : Reader Nat := do
  let (size, _) ← readPushDataWithOp
  pure size

/-- `amount` is a `uint32_t`. -/
def pushData (amount : Nat) : Bytes :=
  if amount &&& 0xFFFF0000 ≠ 0 then uint8D OP_PUSHDATA4 ++ uint32D amount
  else if amount &&& 0xFF00 ≠ 0 then uint8D OP_PUSHDATA2 ++ uint16D amount
  else if OP_PUSHDATA1 ≤ amount then uint8D OP_PUSHDATA1 ++ uint8D amount
  else uint8D amount

def scriptPush (data : Data) : Bytes := pushData data.length ++ data.toBytes

def isPushData (script : Bytes) : Bool :=
  match script with
  | [] => false
  | op :: _ => 0 < op.toNat && op.toNat ≤ OP_PUSHDATA4

/-- The loop of `readPushes`; every round consumes a byte, so `script.length` rounds are
    enough. -/
def readPushesFrom : Nat → Bytes → Datas
  | 0, _ => []
  | rounds + 1, script =>
    if isPushData script then
      let (length, script) := readPushData script
      let (item, script) := readBytes length script
      item :: readPushesFrom rounds script
    else []

def readPushes (script : Data) : Datas := readPushesFrom script.length script.toBytes

def writePushes (items : Datas) : Bytes := items.flatMap scriptPush

/-- The loop of `TransactionInputScriptStack`: it does not stop at an opcode that is not
    a push. -/
def scriptStackFrom : Nat → Bytes → Datas
  | 0, _ => []
  | rounds + 1, script =>
    if script = [] then []
    else
      let (length, script) := readPushData script
      let (item, script) := readBytes length script
      item :: scriptStackFrom rounds script

/-! ## Tokens -/

structure ScriptToken where
  op : Nat
  data : Data
  neededSigs : Int
  pubKeys : Datas
  error : Option String
  deriving DecidableEq, Repr

instance : Inhabited ScriptToken := ⟨⟨0, none, 0, [], none⟩⟩

abbrev ScriptTokens := List ScriptToken

/-- Only called with an index inside the list. -/
def scriptTokenI (tokens : ScriptTokens) (index : Nat) : ScriptToken := tokens.getD index default

/-- One round of the loop of `scriptToTokensUnsafe`. -/
def readToken : Reader ScriptToken := fun script =>
  if isPushData script then
    let ((size, op), script) := readPushDataWithOp script
    let (data, script) := readBytesUnsafe size script
    let error := if data.length ≠ size then some "script ended before push data count was reached" else none
    ({ op, data, neededSigs := 0, pubKeys := [], error }, script)
  else
    let (op, script) := uint8readP script
    ({ op, data := none, neededSigs := 0, pubKeys := [], error := none }, script)

def scriptToTokensFrom : Nat → Bytes → ScriptTokens
  | 0, _ => []
  | rounds + 1, script =>
    if script = [] then []
    else
      let (token, script) := readToken script
      token :: scriptToTokensFrom rounds script

def scriptToTokens (script : Data) : ScriptTokens := scriptToTokensFrom script.length script.toBytes

def isCheckSig (op : Nat) : Bool := op = OP_CHECKSIG || op = OP_CHECKSIGVERIFY

def isCheckMultisig (op : Nat) : Bool := op = OP_CHECKMULTISIG || op = OP_CHECKMULTISIGVERIFY

/-- The key in front of the CHECKSIG at `i`, if that is one. -/
def checkSigPubKeys (tokens : ScriptTokens) (i : Nat) : Datas :=
  if isCheckSig (scriptTokenI tokens i).op && 0 < i && (scriptTokenI tokens (i - 1)).data.isSome then
    [(scriptTokenI tokens (i - 1)).data]
  else []

/-- The token in front of the CHECKMULTISIG at `i` is one of OP_1 to OP_16. -/
def hasPubKeyCount (tokens : ScriptTokens) (i : Nat) : Bool :=
  isCheckMultisig (scriptTokenI tokens i).op && 0 < i &&
    OP_1 ≤ (scriptTokenI tokens (i - 1)).op && (scriptTokenI tokens (i - 1)).op ≤ OP_16

/-- `1 + op - OP_1`. -/
def numPubKeysAt (tokens : ScriptTokens) (i : Nat) : Nat := 1 + (scriptTokenI tokens (i - 1)).op - OP_1

/-- Keys are added to the front one by one, walking back from the CHECKMULTISIG. -/
def multisigPubKeys (tokens : ScriptTokens) (i : Nat) (array : Datas) : Datas :=
  (List.range (numPubKeysAt tokens i)).foldl
    (fun array j => if j + 2 ≤ i then (scriptTokenI tokens (i - j - 2)).data :: array else array) array

def allPubKeys (script : Data) : Datas :=
  let tokens := scriptToTokens script
  (List.range tokens.length).foldl
    (fun array i =>
      let array := checkSigPubKeys tokens i ++ array
      if hasPubKeyCount tokens i then multisigPubKeys tokens i array else array) []

/-- The entry `allCheckSigs` makes of a CHECKSIG. -/
def checkSigEntry (tokens : ScriptTokens) (i : Nat) : ScriptToken :=
  { op := (scriptTokenI tokens i).op, data := none, neededSigs := 1, pubKeys := checkSigPubKeys tokens i, error := none }

/-- The entry `allCheckSigs` makes of a CHECKMULTISIG; keys without data are left out. -/
def checkMultisigEntry (tokens : ScriptTokens) (i : Nat) : ScriptToken :=
  let numPubKeys := numPubKeysAt tokens i
  { op := (scriptTokenI tokens i).op, data := none
    neededSigs := 1 + (scriptTokenI tokens (i - numPubKeys - 2)).op - OP_1
    pubKeys := (List.range numPubKeys).foldl
      (fun pubs j =>
        if j + 2 ≤ i && (scriptTokenI tokens (i - j - 2)).data.isSome then (scriptTokenI tokens (i - j - 2)).data :: pubs
        else pubs) []
    error := none }

def allCheckSigs (script : Data) : ScriptTokens :=
  let tokens := scriptToTokens script
  (List.range tokens.length).foldl
    (fun array i =>
      let array := if checkSigPubKeys tokens i ≠ [] then checkSigEntry tokens i :: array else array
      if hasPubKeyCount tokens i && numPubKeysAt tokens i + 2 ≤ i then checkMultisigEntry tokens i :: array else array) []

/-! ## Scripts the library writes -/

/-- `pubKeys.count * 2 / 3`, at least 1. -/
def neededOf (pubKeys : Datas) : Nat := max 1 (pubKeys.length * 2 / 3)

def multisigScript (pubKeys : Datas) : Bytes :=
  let pubKeys := datasSort pubKeys
  uint8D (OP_1 - 1 + neededOf pubKeys) ++ pubKeys.flatMap scriptPush ++ uint8D (OP_1 - 1 + pubKeys.length) ++
    uint8D OP_CHECKMULTISIG

def vaultScript (masterPubKey : Data) (pubKeys : Datas) : Bytes :=
  let pubKeys := datasSort pubKeys
  scriptPush masterPubKey ++ uint8D OP_CHECKSIGVERIFY ++ uint8D (OP_1 - 1 + neededOf pubKeys) ++
    pubKeys.flatMap scriptPush ++ uint8D (OP_1 - 1 + pubKeys.length) ++ uint8D OP_CHECKMULTISIG

end BitcoinSpoon
