/-
  BitcoinSpoon.Util.Keys — hashes, keys, signatures and the standard scripts
  (`code/BTCUtil.c`).

  The vendored libraries (`libraries/sha256`, `rmd160`, `secp256k1`) are a parameter:
  `Crypto` holds the functions `BTCUtil.c` calls, with the sizes their sources fix. The
  wrappers around them, with their NULL and length checks, are the source's. The
  assertions `BTCUTILAssert` are compiled out.
-/

import BitcoinSpoon.Util.Script

namespace BitcoinSpoon

open Wire

/-- The vendored libraries. Keys, public keys and signatures are in the library's
    internal form (32, 64 and 64 bytes) between the calls. -/
structure Crypto where
  sha256 : Bytes → Bytes
  ripemd160 : Bytes → Bytes
  ecPubkeyCreate : Bytes → Option Bytes
  ecPubkeyParse : Bytes → Option Bytes
  /-- `true` for SECP256K1_EC_COMPRESSED. -/
  ecPubkeySerialize : Bytes → Bool → Option Bytes
  ecdsaSign : Bytes → Bytes → Option Bytes
  ecdsaSignatureParseDer : Bytes → Option Bytes
  ecdsaSignatureSerializeDer : Bytes → Option Bytes
  ecdsaVerify : Bytes → Bytes → Bytes → Bool
  sha256_length : ∀ b, (sha256 b).length = 32
  ripemd160_length : ∀ b, (ripemd160 b).length = 20
  ecPubkeyCreate_length : ∀ k p, ecPubkeyCreate k = some p → p.length = 64
  ecPubkeyParse_length : ∀ b p, ecPubkeyParse b = some p → p.length = 64
  /-- `secp256k1_eckey_pubkey_parse` takes 33 or 65 bytes. -/
  ecPubkeyParse_size : ∀ b p, ecPubkeyParse b = some p → b.length = 33 ∨ b.length = 65
  ecPubkeySerialize_length : ∀ p c b, ecPubkeySerialize p c = some b → b.length = if c then 33 else 65
  /-- Two numbers of at most 33 bytes and six bytes around them. -/
  ecdsaSignatureSerializeDer_length : ∀ s b, ecdsaSignatureSerializeDer s = some b → b.length ≤ 72
  /-- A key the library made survives serializing and parsing. -/
  ecPubkeyParse_serialize : ∀ k p c, ecPubkeyCreate k = some p →
    ∃ b, ecPubkeySerialize p c = some b ∧ ecPubkeyParse b = some p

variable (c : Crypto)

/-! ## Hashes -/

def sha256 (data : Data) : Data := data.map c.sha256

def ripemd160 (data : Data) : Data := data.map c.ripemd160

def hash160 (data : Data) : Data := ripemd160 c (sha256 c data)

def hash256 (data : Data) : Data := sha256 c (sha256 c data)

/-! ## Keys and signatures -/

def publicKeyFromPrivate (privateKey : Data) : Data :=
  if privateKey.length ≠ 32 then none else c.ecPubkeyCreate privateKey.toBytes

def publicKeyParse (keyData : Data) : Data := if keyData.length = 0 then none else c.ecPubkeyParse keyData.toBytes

def publicKeySerialize (publicKey : Data) (compressed : Bool) : Data :=
  match publicKey with
  | none => none
  | some p => if p.length ≠ 64 then none else c.ecPubkeySerialize p compressed

def publicKeyCompress (publicKey : Data) : Data := publicKeySerialize c publicKey true

def publicKeySerializeDefault (publicKey : Data) : Data := publicKeySerialize c publicKey false

def pubKey (privateKey : Data) : Data := publicKeyCompress c (publicKeyFromPrivate c privateKey)

def pubKeyFull (privateKey : Data) : Data := publicKeySerializeDefault c (publicKeyFromPrivate c privateKey)

def signatureCreate (message32 privateKey : Data) : Data :=
  if message32.length ≠ 32 then none
  else if privateKey.length ≠ 32 then none
  else c.ecdsaSign message32.toBytes privateKey.toBytes

def signatureDER (signature : Data) : Data :=
  if signature.length ≠ 64 then none else c.ecdsaSignatureSerializeDer signature.toBytes

/-- Drops the hash type byte. -/
def signatureParse (signatureData : Data) : Data :=
  if signatureData.length = 0 then none else c.ecdsaSignatureParseDer signatureData.toBytes.dropLast

def signatureVerify (signature message32 publicKey : Data) : Bool :=
  if publicKey = none then false
  else if signature.length ≠ 64 then false
  else if message32.length ≠ 32 then false
  else if publicKey.length ≠ 64 then false
  else c.ecdsaVerify signature.toBytes message32.toBytes publicKey.toBytes

def sign (unhashedMsg privateKey : Data) (typeFlag : Nat) : Data :=
  dataAdd (signatureDER c (signatureCreate c (hash256 c unhashedMsg) privateKey)) (some (uint8D typeFlag))

def signAll (unhashedMsg privateKey : Data) : Data := sign c unhashedMsg privateKey 0x01

def verify (derSignature unhashedMsg compressedPublicKey : Data) : Bool :=
  -- a signature of length 0 is the extra element of a CHECKMULTISIG
  if derSignature.length = 0 then false
  else
    let sigParam := if derSignature.length ≠ 64 then signatureParse c derSignature else derSignature
    signatureVerify c sigParam (hash256 c unhashedMsg) (publicKeyParse c compressedPublicKey)

/-! ## Scripts -/

def p2pkhPubScript (hash : Data) : Bytes :=
  [UInt8.ofNat OP_DUP, UInt8.ofNat OP_HASH160, 0x14] ++ hash.toBytes ++
    [UInt8.ofNat OP_EQUALVERIFY, UInt8.ofNat OP_CHECKSIG]

def p2pkhPubScriptFromPubKey (publicKey : Data) : Bytes :=
  p2pkhPubScript (hash160 c (publicKeyCompress c (publicKeyParse c publicKey)))

def p2shPubScript (scriptHash : Data) : Bytes := uint8D OP_HASH160 ++ scriptPush scriptHash ++ uint8D OP_EQUAL

def p2shPubScriptWithScript (scriptData : Data) : Bytes := p2shPubScript (hash160 c scriptData)

def p2wpkhPubScript (hash : Data) : Data := hash.map fun h => uint8D 0 ++ scriptPush (some h)

def p2wpkhPubScriptFromPubKey (publicKey : Data) : Data :=
  match publicKey with
  | none => none
  | some _ =>
    match publicKeyCompress c (publicKeyParse c publicKey) with
    | none => none
    | some compressedPublicKey => p2wpkhPubScript (hash160 c (some compressedPublicKey))

/-- The script code of a key hash input. -/
def p2wpkhImpliedScript (publicKey : Data) : Bytes :=
  p2pkhPubScript (hash160 c (publicKeyCompress c (publicKeyParse c publicKey)))

def p2wshPubScript (hash : Data) : Bytes := uint8D 0 ++ scriptPush hash

def p2wshPubScriptWithScript (scriptData : Data) : Bytes := p2wshPubScript (sha256 c scriptData)

def nestedP2wpkhScript (pubKey : Data) : Bytes :=
  uint8D 0 ++ scriptPush (hash160 c (publicKeyCompress c (publicKeyParse c pubKey)))

def nestedP2wshScript (script : Data) : Bytes := uint8D 0 ++ scriptPush (sha256 c script)

/-! ## A transparent instance

Functions with the libraries' interface to evaluate the model on: a key is its own public
key, a signature is the message and the key. -/

/-- `width` bytes that depend on every byte of `b`. -/
def plainHash (width : Nat) (b : Bytes) : Bytes :=
  leBytes width (b.foldl (fun h x => (h * 257 + x.toNat + 1) % 256 ^ width) 7)

def plainParse (b : Bytes) : Option Bytes :=
  match b with
  | [] => none
  | form :: p =>
    if form = 0x02 ∧ p.length = 32 then some (p ++ p) else if form = 0x04 ∧ p.length = 64 then some p else none

def plainSerialize (p : Bytes) (compressed : Bool) : Option Bytes :=
  if p.length ≠ 64 then none else if compressed then some (0x02 :: p.take 32) else some (0x04 :: p)

def plainCrypto : Crypto where
  sha256 := plainHash 32
  ripemd160 := plainHash 20
  ecPubkeyCreate k := if k.length = 32 then some (k ++ k) else none
  ecPubkeyParse := plainParse
  ecPubkeySerialize := plainSerialize
  ecdsaSign message key := if message.length = 32 ∧ key.length = 32 then some (message ++ key) else none
  ecdsaSignatureParseDer b := if b.head? = some 0x30 ∧ b.length = 65 then some b.tail else none
  ecdsaSignatureSerializeDer signature := if signature.length = 64 then some (0x30 :: signature) else none
  ecdsaVerify signature message key := signature = message ++ key.take 32
  sha256_length _ := leBytes_length 32 _
  ripemd160_length _ := leBytes_length 20 _
  ecPubkeyCreate_length := by
    intro k p h
    split at h
    · obtain rfl := Option.some.inj h
      rw [List.length_append]; omega
    · cases h
  ecPubkeyParse_length := by
    intro b p h
    unfold plainParse at h
    split at h
    · cases h
    split at h
    · obtain rfl := Option.some.inj h
      rw [List.length_append]; omega
    split at h
    · obtain rfl := Option.some.inj h
      rename_i h2
      exact h2.2
    · cases h
  ecPubkeyParse_size := by
    intro b p h
    unfold plainParse at h
    split at h
    · cases h
    split at h
    · rw [List.length_cons]; omega
    split at h
    · rw [List.length_cons]; omega
    · cases h
  ecPubkeySerialize_length := by
    intro p compressed b h
    unfold plainSerialize at h
    split at h
    · cases h
    rename_i hp
    split at h
    · obtain rfl := Option.some.inj h
      rename_i hc
      rw [hc, List.length_cons, List.length_take]
      simp only [if_true]
      omega
    · obtain rfl := Option.some.inj h
      rename_i hc
      rw [if_neg hc, List.length_cons]
      omega
  ecdsaSignatureSerializeDer_length := by
    intro s b h
    split at h
    · obtain rfl := Option.some.inj h
      rw [List.length_cons]; omega
    · cases h
  ecPubkeyParse_serialize := by
    intro k p compressed h
    split at h
    · obtain rfl := Option.some.inj h
      rename_i hk
      have ht : (k ++ k).take 32 = k := List.take_left' hk
      unfold plainSerialize plainParse
      cases compressed <;> simp [hk, ht]
    · cases h

end BitcoinSpoon
