/-
  BitcoinSpoon.Hd.Wallet — extended keys and their derivation (`code/BTCUtil.c`).

  An HD wallet is 82 bytes: version (4), depth (1), fingerprint of the parent (4), child
  index (4), chain code (32), key (33), checksum (4). A function that would read or copy
  through a NULL pointer, or not return, gives `none`; the `Data` inside is what the source
  returns. A path is the characters of the C string, a NULL path is the empty one.
-/

import BitcoinSpoon.Util.Keys

namespace BitcoinSpoon

open Wire

/-- The rest of the vendored libraries (`libraries/hmacsha512`, `pbkdf`, `mnemonic` and the
    arithmetic of `secp256k1`). -/
structure HdCrypto extends Crypto where
  /-- HMAC-SHA512 of a key and a message. -/
  CCHmac : Bytes → Bytes → Bytes
  /-- A sentence and a salt. -/
  CCKeyDerivationPBKDF : Bytes → Bytes → Data
  mnemonic_from_bytes : Bytes → Data
  /-- A key and a tweak. -/
  ecPrivkeyTweakAdd : Bytes → Bytes → Option Bytes
  ecPubkeyCombine : Bytes → Bytes → Option Bytes
  CCHmac_length : ∀ k b, (CCHmac k b).length = 64
  ecPrivkeyTweakAdd_length : ∀ k t b, ecPrivkeyTweakAdd k t = some b → b.length = 32
  /-- The sum is reduced and not 0. -/
  ecPrivkeyTweakAdd_create : ∀ k t b, ecPrivkeyTweakAdd k t = some b → ∃ p, ecPubkeyCreate b = some p
  ecPubkeyCombine_length : ∀ p q b, ecPubkeyCombine p q = some b → b.length = 64
  /-- SECP256K1_TAG_PUBKEY_EVEN or SECP256K1_TAG_PUBKEY_ODD. -/
  ecPubkeySerialize_tag : ∀ p b, ecPubkeySerialize p true = some b → b.head? = some 0x02 ∨ b.head? = some 0x03

/-! ## Buffers -/

/-- `DataCopyDataPart`. -/
def dataCopyDataPart (data : Bytes) (start length : Nat) : Bytes := (data.drop start).take length

/-- `memcpy` into the buffer. -/
def patch (buffer : Bytes) (start : Nat) (bytes : Bytes) : Bytes :=
  buffer.take start ++ bytes ++ buffer.drop (start + bytes.length)

def dataFlipEndianCopy (data : Bytes) : Bytes := data.reverse

def uint8read (data : Data) : UInt8 := data.toBytes.headD 0

def uint32read (data : Bytes) : Nat := (readLE 4 data).1

variable (c : HdCrypto)

/-! ## Keys -/

def hmacSha512 (key data : Bytes) : Bytes := c.CCHmac key data

def addToPrivKey (tweak privKey : Data) : Data :=
  if tweak.length ≠ 32 then none
  else if privKey.length ≠ 32 then none
  else c.ecPrivkeyTweakAdd privKey.toBytes tweak.toBytes

def addPubKeys (keyA keyB : Data) : Data :=
  let keyA := publicKeyParse c.toCrypto keyA
  let keyB := publicKeyParse c.toCrypto keyB
  if keyA.length ≠ 64 then none
  else if keyB.length ≠ 64 then none
  else c.ecPubkeyCombine keyA.toBytes keyB.toBytes

/-! ## New wallets -/

def HD_WALLET_PRIV : Nat := 0x0488ADE4
def HD_WALLET_PUB : Nat := 0x0488B21E
def HD_WALLET_PRIV_TESTNET : Nat := 0x04358394
def HD_WALLET_PUB_TESTNET : Nat := 0x043587CF

/-- The four bytes the library appends or compares. -/
def hdChecksum (data : Bytes) : Bytes := (hash256 c.toCrypto (some data)).toBytes.take 4

def hdWalletVerify (hdWallet : Data) : Bool :=
  if hdWallet.length ≠ 82 then false
  else dataCopyDataPart hdWallet.toBytes 78 4 = hdChecksum c (dataCopyDataPart hdWallet.toBytes 0 78)

/-- The fields before the chain code. -/
def hdRoot (version : Nat) : Bytes := dataFlipEndianCopy (uint32D version) ++ (uint8D 0 ++ uint32D 0 ++ uint32D 0)

/-- `hdWalletPriv` under either version. The source means `||`. -/
def hdWalletPrivVersion (version : Nat) (masterKey chainCode : Data) : Data :=
  if masterKey.length ≠ 32 ∧ chainCode.length ≠ 32 then none
  else
    let data := hdRoot version ++ chainCode.toBytes ++ uint8D 0 ++ masterKey.toBytes
    some (data ++ hdChecksum c data)

def hdWalletPriv (masterKey chainCode : Data) : Data := hdWalletPrivVersion c HD_WALLET_PRIV masterKey chainCode

def hdWalletPrivTestNet (masterKey chainCode : Data) : Data :=
  hdWalletPrivVersion c HD_WALLET_PRIV_TESTNET masterKey chainCode

/-- `hdWalletPub` under either version. -/
def hdWalletPubVersion (version : Nat) (masterKey chainCode : Data) : Data :=
  let masterKey := publicKeyCompress c.toCrypto (publicKeyParse c.toCrypto masterKey)
  if masterKey = none ∧ chainCode.length ≠ 32 then none
  else
    let data := hdRoot version ++ chainCode.toBytes ++ masterKey.toBytes
    some (data ++ hdChecksum c data)

def hdWalletPub (masterKey chainCode : Data) : Data := hdWalletPubVersion c HD_WALLET_PUB masterKey chainCode

def hdWalletPubTestNet (masterKey chainCode : Data) : Data := hdWalletPubVersion c HD_WALLET_PUB_TESTNET masterKey chainCode

/-- Writes the checksum of the first 78 bytes over the last 4. -/
def sealChecksum (data : Bytes) : Bytes := patch data 78 (hdChecksum c (dataCopyDataPart data 0 78))

def hdWalletSetDepth (hdWallet : Data) (depth : UInt8) : Data :=
  if hdWallet.length ≠ 82 then none else some (sealChecksum c (patch hdWallet.toBytes 4 [depth]))

/-! ## A seed -/

def lenToMask (len : Nat) : Nat :=
  if len = 16 then 0xf0
  else if len = 20 then 0xf8
  else if len = 24 then 0xfc
  else if len = 28 then 0xfe
  else if len = 32 then 0xff
  else if len = 36 then 0x80ff
  else if len = 40 then 0xC0ff
  else 0

def toMnemonic (data : Data) : Option Data :=
  match sha256 c.toCrypto data with
  | none => none
  | some hash =>
    let mask := lenToMask data.length
    -- a `char` has its sign extended
    let first := if 0x80 ≤ (hash.headD 0).toNat then 0xff00 + (hash.headD 0).toNat else (hash.headD 0).toNat
    let checksum := (first ||| first <<< 8) &&& mask
    let data := data.toBytes ++ uint8D (checksum &&& 0xff)
    some (c.mnemonic_from_bytes (if 0xff < mask then data ++ uint8D (checksum >>> 8 &&& 0xff) else data))

/-- "mnemonic" -/
def saltPrefix : Bytes := [0x6d, 0x6e, 0x65, 0x6d, 0x6f, 0x6e, 0x69, 0x63]

def PBKDF2 (sentence passphrase : Bytes) : Data := c.CCKeyDerivationPBKDF sentence (saltPrefix ++ passphrase)

/-- "Bitcoin seed" -/
def seedPhrase : Bytes := [0x42, 0x69, 0x74, 0x63, 0x6f, 0x69, 0x6e, 0x20, 0x73, 0x65, 0x65, 0x64]

def privKeyToHdWallet (privKey : Data) (passphrase : Bytes) : Option Data :=
  match toMnemonic c privKey with
  | none => none
  | some none => some none
  | some (some sentence) =>
    let hash := hmacSha512 c seedPhrase (PBKDF2 c sentence passphrase).toBytes
    if hash.length ≠ 64 then some none
    else some (hdWalletPriv c (some (dataCopyDataPart hash 0 32)) (some (dataCopyDataPart hash 32 32)))

/-! ## The parts of a wallet -/

def chainCodeFromHdWallet (hdWallet : Data) : Data :=
  if hdWallet.length ≠ 82 then none else some (dataCopyDataPart hdWallet.toBytes 13 32)

def keyFromHdWallet (hdWallet : Data) : Data :=
  if hdWallet.length ≠ 82 then none else some (dataCopyDataPart hdWallet.toBytes 45 33)

def pubKeyFromHdWallet (hdWallet : Data) : Data :=
  match keyFromHdWallet hdWallet with
  | none => none
  | some key => if key.headD 0 ≠ 0 then some key else pubKey c.toCrypto (some (dataCopyDataPart key 1 32))

def publicVersion (version : Nat) : Option Nat :=
  if version = HD_WALLET_PRIV then some HD_WALLET_PUB
  else if version = HD_WALLET_PRIV_TESTNET then some HD_WALLET_PUB_TESTNET
  else none

def publicHdWallet (privHdWallet : Data) : Option Data :=
  if privHdWallet.length ≠ 82 then some none
  else
    let result := privHdWallet.toBytes
    let version := uint32read (dataFlipEndianCopy (dataCopyDataPart result 0 4))
    match publicVersion version with
    | none => if version = HD_WALLET_PUB ∨ version = HD_WALLET_PUB_TESTNET then some privHdWallet else some none
    | some version =>
      let result := patch result 0 (dataFlipEndianCopy (uint32D version))
      let privKey := keyFromHdWallet privHdWallet
      if privKey.length ≠ 33 then some none
      else if privKey.toBytes.headD 0 ≠ 0 then some none
      else
        match pubKey c.toCrypto (some (dataCopyDataPart privKey.toBytes 1 32)) with
        | none => none
        | some pubKeyResult => some (some (sealChecksum c (patch result 45 pubKeyResult)))

/-! ## Derivation -/

/-- Counts the calls: after 2³² of them every index has failed and the source goes on. -/
def childKeyDerivationFrom (rounds : Nat) (hdWallet : Data) (index : Nat) : Option Data :=
  match rounds with
  | 0 => none
  | rounds + 1 =>
    if hdWallet.length ≠ 82 then some none
    else
      let result := hdWallet.toBytes
      let result := patch result 4 [result.getD 4 0 + 1]
      match hash160 c.toCrypto (pubKeyFromHdWallet c hdWallet) with
      | none => none
      | some fingerprint =>
        let result := patch result 5 (fingerprint.take 4)
        let childIndex := dataFlipEndianCopy (uint32D index)
        let result := patch result 9 childIndex
        let oldKey := (keyFromHdWallet hdWallet).toBytes
        let oldChainCode := (chainCodeFromHdWallet hdWallet).toBytes
        -- private key derivation
        if uint8read (some oldKey) = 0 then
          let oldKeyTrim := some (dataCopyDataPart oldKey 1 32)
          let hash :=
            if 0x80000000 ≤ index then hmacSha512 c oldChainCode (oldKey ++ childIndex)
            else hmacSha512 c oldChainCode ((pubKey c.toCrypto oldKeyTrim).toBytes ++ childIndex)
          match addToPrivKey c (some (dataCopyDataPart hash 0 32)) oldKeyTrim with
          | none => childKeyDerivationFrom rounds hdWallet ((index + 1) % 2 ^ 32)
          | some newKey =>
            some (some (sealChecksum c (patch (patch (patch result 13 (dataCopyDataPart hash 32 32)) 45 [0]) 46 newKey)))
        else if 0x80000000 ≤ index then some none
        else
          let hash := hmacSha512 c oldChainCode (oldKey ++ childIndex)
          let newKey := addPubKeys c (some oldKey) (pubKey c.toCrypto (some (dataCopyDataPart hash 0 32)))
          match publicKeyCompress c.toCrypto newKey with
          | none => childKeyDerivationFrom rounds hdWallet ((index + 1) % 2 ^ 32)
          | some newKey => some (some (sealChecksum c (patch (patch result 13 (dataCopyDataPart hash 32 32)) 45 newKey)))

def childKeyDerivation (hdWallet : Data) (index : Nat) : Option Data := childKeyDerivationFrom c (2 ^ 32) hdWallet index

/-! ## Paths -/

def tolower (x : UInt8) : UInt8 := if 0x41 ≤ x ∧ x ≤ 0x5a then x + 0x20 else x

def isspace (x : UInt8) : Bool := x = 0x20 || (0x09 ≤ x && x ≤ 0x0d)

def isdigit (x : UInt8) : Bool := 0x30 ≤ x && x ≤ 0x39

/-- Base 10, as far as the digits go, into 64 bits. -/
def strtoll (text : Bytes) : Int :=
  let value (digits : Bytes) : Int := (digits.takeWhile isdigit).foldl (fun n x => n * 10 + (x.toNat - 0x30)) 0
  match text.dropWhile isspace with
  | 0x2d :: digits => max (-2 ^ 63) (- value digits)
  | 0x2b :: digits => min (2 ^ 63 - 1) (value digits)
  | digits => min (2 ^ 63 - 1) (value digits)

/-- The scan goes on one byte after a separator it has found: a byte there is never one. -/
def stringComponentsFrom (separator : UInt8) (left : Bytes) (rest : Bytes) : List Bytes :=
  match rest with
  | [] => [left]
  | x :: rest =>
    if x = separator then
      match rest with
      | [] => [left, []]
      | y :: rest => left :: stringComponentsFrom separator [y] rest
    else stringComponentsFrom separator (left ++ [x]) rest

def stringComponents (string : Bytes) (separator : UInt8) : List Bytes := stringComponentsFrom separator [] string

/-- The low 32 bits; a `'` sets the last of them. -/
def componentIndex (component : Bytes) : Nat :=
  let index := (strtoll component % 2 ^ 32).toNat
  if 0x27 ∈ component then index ||| 0x80000000 else index

def ckdIndicesFromPath (path : Bytes) : List Nat :=
  let path := path.map tolower
  -- "", "m" and "/"
  if path = [] ∨ path = [0x6d] ∨ path = [0x2f] then []
  else
    let path := if path.head? = some 0x6d then path.tail else path
    let path := if path.head? = some 0x2f then path.tail else path
    (stringComponents path 0x2f).map componentIndex

def hdWallet (wallet : Data) (path : Bytes) : Option Data := (ckdIndicesFromPath path).foldlM (childKeyDerivation c) wallet

end BitcoinSpoon
