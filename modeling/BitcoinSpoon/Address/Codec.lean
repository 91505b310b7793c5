/-
  BitcoinSpoon.Address.Codec — addresses and the scripts they stand for
  (`code/BTCUtil.c`).

  The two encodings (`code/base58C.cpp`, `libraries/base58`, `libraries/segwit_addr`) are a
  parameter. A `String` is its characters, without the closing NUL; NULL is `none`.
-/

import BitcoinSpoon.Util.Keys

namespace BitcoinSpoon

open Wire

/-- The vendored encodings. -/
structure Codec where
  Base58Encode : Bytes → Bytes
  Base58Decode : Bytes → Data
  /-- The human-readable part, the witness version and the program. -/
  segwit_addr_encode : Bytes → Nat → Bytes → Data
  segwit_addr_decode : Bytes → Option (Bytes × Nat × Bytes)

/-- "bc" -/
def mainPrefix : Bytes := [0x62, 0x63]
/-- "tb" -/
def testPrefix : Bytes := [0x74, 0x62]

/-- What the encodings promise, of them the texts the library makes: a payload or a program
    of version 0 decodes to itself, the Base58 text of an address starts with neither prefix
    and a segwit address with its own. -/
structure Codec.Lawful (codec : Codec) : Prop where
  base58_decode : ∀ b, codec.Base58Decode (codec.Base58Encode b) = some b
  base58_apart : ∀ version ∈ [0x00, 0x6f, 0x05, 0xc4], ∀ b : Bytes, b.length = 24 →
    ¬ mainPrefix <+: codec.Base58Encode (version :: b) ∧ ¬ testPrefix <+: codec.Base58Encode (version :: b)
  segwit_decode : ∀ hrp ∈ [mainPrefix, testPrefix], ∀ program : Bytes, program.length = 20 ∨ program.length = 32 →
    ∃ text, codec.segwit_addr_encode hrp 0 program = some text ∧ hrp <+: text ∧
      codec.segwit_addr_decode text = some (hrp, 0, program)
  /-- `witver == 0 && witprog_len != 20 && witprog_len != 32` -/
  segwit_sizes : ∀ hrp, ∀ program : Bytes, program.length ≠ 20 → program.length ≠ 32 →
    codec.segwit_addr_encode hrp 0 program = none

variable (c : Crypto) (codec : Codec)

/-! ## Encoding -/

def base58Checksum (data : Bytes) : Bytes := (c.sha256 (c.sha256 data)).take 4

def base58AddressPayloadHash (hash : Data) (version : UInt8) : Data :=
  let data := version :: hash.toBytes
  some (codec.Base58Encode (data ++ base58Checksum c data))

def base58Address (payload : Data) (version : UInt8) : Data := base58AddressPayloadHash c codec (hash160 c payload) version

def toSegwit (program : Data) (hrp : Bytes) : Data := codec.segwit_addr_encode hrp 0 program.toBytes

/-- The prefix and the version are not looked at. -/
def fromSegwit (text : Bytes) : Data := (codec.segwit_addr_decode text).map fun address => address.2.2

/-! ## From an address to its script and back -/

def isTestOrMain (text : Bytes) : Bool := testPrefix.isPrefixOf text || mainPrefix.isPrefixOf text

def addressToPubScript (address : Data) : Data :=
  match address with
  | none => none
  | some text =>
    let data := if isTestOrMain text then fromSegwit codec text else codec.Base58Decode text
    -- witness pay to public key hash
    if data.length = 20 then p2wpkhPubScript data
    -- witness pay to witness script hash
    else if data.length = 32 then some (p2wshPubScript data)
    -- original hash method
    else if data.length = 25 then
      let bytes := data.toBytes
      if (bytes.drop 21).take 4 ≠ base58Checksum c (bytes.take 21) then none
      else
        let version := bytes.headD 0
        if version = 0x00 ∨ version = 0x6f then some (p2pkhPubScript (some ((bytes.drop 1).take 20)))
        else if version = 0x05 ∨ version = 0xc4 then some (p2shPubScript (some ((bytes.drop 1).take 20)))
        else none
    else none

def pubScriptToAddress (pubScript : Data) : Data :=
  if pubScript.length < 1 then none
  else
    let tokens := scriptToTokens pubScript
    let op := fun i => (scriptTokenI tokens i).op
    let data := fun i => (scriptTokenI tokens i).data
    -- pay to public key is not supported
    if tokens.length = 2 ∧ op 0 = 65 ∧ (data 0).length = 65 ∧ op 1 = OP_CHECKSIG then none
    else if tokens.length = 5 ∧ op 0 = OP_DUP ∧ op 1 = OP_HASH160 ∧ op 2 = 0x14 ∧ op 3 = OP_EQUALVERIFY ∧ op 4 = OP_CHECKSIG then
      base58AddressPayloadHash c codec (data 2) 0x00
    else if tokens.length = 3 ∧ op 0 = OP_HASH160 ∧ op 1 = 20 ∧ op 2 = OP_EQUAL then
      base58AddressPayloadHash c codec (data 1) 0x05
    else if tokens.length = 2 ∧ op 0 = 0 ∧ op 1 = 20 then toSegwit codec (data 1) mainPrefix
    else if tokens.length = 2 ∧ op 0 = 0 ∧ op 1 = 32 then toSegwit codec (data 1) mainPrefix
    else none

/-! ## Addresses of keys and scripts -/

def p2pkhAddress (publicKey : Data) : Data := base58Address c codec (publicKeyCompress c (publicKeyParse c publicKey)) 0x00

def p2pkhAddressTestNet (publicKey : Data) : Data :=
  base58Address c codec (publicKeyCompress c (publicKeyParse c publicKey)) 0x6f

def p2shAddress (scriptData : Data) : Data := base58Address c codec scriptData 0x05

def p2shAddressTestNet (scriptData : Data) : Data := base58Address c codec scriptData 0xc4

def p2wpkhAddress (publicKey : Data) : Data :=
  toSegwit codec (hash160 c (publicKeyCompress c (publicKeyParse c publicKey))) mainPrefix

def p2wpkhAddressTestNet (publicKey : Data) : Data :=
  toSegwit codec (hash160 c (publicKeyCompress c (publicKeyParse c publicKey))) testPrefix

def p2wshAddress (scriptData : Data) : Data := toSegwit codec (sha256 c scriptData) mainPrefix

def p2wshAddressTestNet (scriptData : Data) : Data := toSegwit codec (sha256 c scriptData) testPrefix

end BitcoinSpoon
