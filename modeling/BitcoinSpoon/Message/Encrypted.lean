/-
  BitcoinSpoon.Message.Encrypted — messages between two holders of keys (`ecdhKey`,
  `ecdhKeyRotate`, `encryptAES`, `decryptAES`, `code/BTCUtil.c`).

  Over the group of the curve both sides come to the multiple of the generator by both
  private keys. A rotation hashes that secret into a tweak, which each side adds to its own
  private key and to the other's public one, so both come to the same point again
  (`rotate_agrees`). What is encrypted under a key and a nonce is padded, chained and comes
  back (`decrypt_encrypt`).
-/

import BitcoinSpoon.Hd.Curve
import BitcoinSpoon.Loop.Chaining
import BitcoinSpoon.Message.Padding

namespace BitcoinSpoon

open Wire Loop

/-! ## Shared keys -/

/-- The library with its ECDH module. -/
structure EcdhCrypto extends HdCrypto where
  /-- A public key and a private one. -/
  ecdh : Bytes → Bytes → Option Bytes
  /-- A public key and a tweak. -/
  ecPubkeyTweakAdd : Bytes → Bytes → Option Bytes

variable (c : EcdhCrypto)

def ecdhKey (privateKey publicKey : Data) : Data :=
  let parsedPubKey := publicKeyParse c.toCrypto publicKey
  if privateKey.length ≠ 32 then none
  else if parsedPubKey.length ≠ 64 then none
  else c.ecdh parsedPubKey.toBytes privateKey.toBytes

def addToPubKey (tweak pubKey : Data) : Data :=
  let parsedPubKey := publicKeyParse c.toCrypto pubKey
  if parsedPubKey.length ≠ 64 then none
  else if tweak.length ≠ 32 then none
  else publicKeySerializeDefault c.toCrypto (c.ecPubkeyTweakAdd parsedPubKey.toBytes tweak.toBytes)

def ecdhKeyRotate (privateKey publicKey : Data) (amount : UInt32) : Data :=
  let secretZero := ecdhKey c privateKey publicKey
  if amount = 0 then secretZero
  else
    let tweak := sha256 c.toCrypto (dataAdd secretZero (some (uint32D amount.toNat)))
    ecdhKey c (addToPrivKey c.toHdCrypto tweak privateKey) (addToPubKey c tweak publicKey)

/-- The two functions over the group. -/
structure EcdhCurve (Point : Type) [AddCommGroup Point] extends Curve c.toHdCrypto Point where
  /-- The hash of a point. -/
  shared : Point → Bytes
  ecdh : ∀ (p : Point) (k : Bytes), p ≠ 0 → k.length = 32 →
    c.ecdh (save p) k = if 0 < scalar k ∧ scalar k < order then some (shared (scalar k • p)) else none
  pubkey_tweak_add : ∀ (p : Point) (t b : Bytes), p ≠ 0 → t.length = 32 →
    (c.ecPubkeyTweakAdd (save p) t = some b ↔
      scalar t < order ∧ p + scalar t • generator ≠ 0 ∧ save (p + scalar t • generator) = b)

variable {c} {Point : Type} [AddCommGroup Point] {curve : EcdhCurve c Point}

/-- A public key of the scalar `m`, whichever way it is serialized. -/
structure IsPublicKey (curve : EcdhCurve c Point) (m : Bytes) (key : Data) : Prop where
  valid : curve.ValidScalar m
  parsed : publicKeyParse c.toCrypto key = some (curve.save (curve.point m))

theorem IsPublicKey.saved_length {m : Bytes} {key : Data} (h : IsPublicKey curve m key) :
    (curve.save (curve.point m)).length = 64 := by
  have hparsed := h.parsed
  unfold publicKeyParse at hparsed
  split at hparsed
  · cases hparsed
  · exact c.ecPubkeyParse_length _ _ hparsed

theorem ecdhKey_none (privateKey : Data) : ecdhKey c privateKey none = none := by
  unfold ecdhKey
  dsimp only
  split
  · rfl
  · rfl

variable (curve) in
theorem isPublicKey_pubKey {k : Bytes} (hk : k.length = 32) (hvalid : curve.ValidScalar k) :
    IsPublicKey curve k (pubKey c.toCrypto (some k)) := by
  obtain ⟨p, hp, hparse⟩ := curve.pubKey_valid hk hvalid
  rw [hp]
  exact ⟨hvalid, hparse⟩

variable (curve) in
/-- A key that has a public one is a scalar of the group. -/
theorem pubKey_some {key : Data} (h : pubKey c.toCrypto key ≠ none) :
    ∃ k, key = some k ∧ k.length = 32 ∧ curve.ValidScalar k := by
  cases key with
  | none => exact absurd rfl h
  | some k =>
    by_cases hk : k.length = 32
    · refine ⟨k, rfl, hk, ?_⟩
      by_contra hinvalid
      have hcreate : c.ecPubkeyCreate k = none := (curve.create k hk).trans (if_neg hinvalid)
      have hkey : publicKeyFromPrivate c.toCrypto (some k) = none := by
        rw [publicKeyFromPrivate, length_some, if_neg (not_not.2 hk), toBytes_some, hcreate]
      exact h (by rw [pubKey, hkey]; rfl)
    · have hkey : publicKeyFromPrivate c.toCrypto (some k) = none := if_pos hk
      exact absurd (by rw [pubKey, hkey]; rfl) h

/-- The secret is the hash of the point of both scalars. -/
theorem ecdhKey_eq {k m : Bytes} {key : Data} (hk : k.length = 32) (hvalid : curve.ValidScalar k) (hkey : IsPublicKey curve m key) :
    ecdhKey c (some k) key = some (curve.shared ((scalar k * scalar m) • curve.generator)) := by
  unfold ecdhKey
  dsimp only
  rw [hkey.parsed, length_some, length_some, if_neg (not_not.2 hk), if_neg (not_not.2 hkey.saved_length), toBytes_some, toBytes_some,
    curve.ecdh _ k (Curve.point_ne_zero hkey.valid) hk, Curve.point, mul_nsmul']
  exact if_pos hvalid

variable (curve) in
/-- Adding the tweak to a private key. -/
theorem addToPrivKey_sum {k t : Bytes} (hk : k.length = 32) (ht : t.length = 32)
    (h : addToPrivKey c.toHdCrypto (some t) (some k) ≠ none) :
    addToPrivKey c.toHdCrypto (some t) (some k) = some (curve.sum k t) ∧ curve.ValidScalar (curve.sum k t) := by
  have hadd : addToPrivKey c.toHdCrypto (some t) (some k) = c.ecPrivkeyTweakAdd k t := by
    rw [addToPrivKey, length_some, length_some, if_neg (not_not.2 ht), if_neg (not_not.2 hk), toBytes_some, toBytes_some]
  rw [hadd, curve.tweak_add k t hk ht] at h ⊢
  by_cases hsum : scalar t < curve.order ∧ (scalar k + scalar t) % curve.order ≠ 0
  · rw [if_pos hsum]
    refine ⟨rfl, ?_, ?_⟩
    · rw [scalar_sum]
      exact Nat.pos_of_ne_zero hsum.2
    · rw [scalar_sum]
      exact Nat.mod_lt _ curve.order_pos
  · exact absurd (if_neg hsum) h

/-- Adding the tweak to the public key of a scalar gives the public key of the sum. -/
theorem addToPubKey_sum {m t : Bytes} {key : Data} (ht : t.length = 32) (hkey : IsPublicKey curve m key)
    (h : addToPubKey c (some t) key ≠ none) : IsPublicKey curve (curve.sum m t) (addToPubKey c (some t) key) := by
  have hadd : addToPubKey c (some t) key =
      publicKeySerializeDefault c.toCrypto (c.ecPubkeyTweakAdd (curve.save (curve.point m)) t) := by
    unfold addToPubKey
    dsimp only
    rw [hkey.parsed, length_some, length_some, if_neg (not_not.2 hkey.saved_length), if_neg (not_not.2 ht), toBytes_some, toBytes_some]
  rw [hadd] at h ⊢
  cases htweak : c.ecPubkeyTweakAdd (curve.save (curve.point m)) t with
  | none =>
    rw [htweak] at h
    exact absurd rfl h
  | some saved =>
    obtain ⟨-, hne, rfl⟩ := (curve.pubkey_tweak_add _ t saved (Curve.point_ne_zero hkey.valid) ht).1 htweak
    have hpoint : curve.point m + scalar t • curve.generator = curve.point (curve.sum m t) := (point_sum m t).symm
    have hvalid : curve.ValidScalar (curve.sum m t) := by
      refine ⟨?_, ?_⟩
      · rw [scalar_sum]
        exact Nat.pos_of_ne_zero fun hzero => hne ((cancels_iff m t).1 hzero)
      · rw [scalar_sum]
        exact Nat.mod_lt _ curve.order_pos
    have hcreate : c.ecPubkeyCreate (curve.sum m t) = some (curve.save (curve.point (curve.sum m t))) :=
      (curve.create _ (scalarBytes_length _)).trans (if_pos hvalid)
    -- the sum has a public key of its own, which can be written and read
    obtain ⟨b, hserialize, hparse⟩ := c.ecPubkeyParse_serialize _ _ false hcreate
    have hsaved := c.ecPubkeyCreate_length _ _ hcreate
    have hb := c.ecPubkeySerialize_length _ _ _ hserialize
    have hdefault : publicKeySerializeDefault c.toCrypto (some (curve.save (curve.point (curve.sum m t)))) = some b := by
      rw [publicKeySerializeDefault, publicKeySerialize, if_neg (not_not.2 hsaved), hserialize]
    rw [hpoint, hdefault]
    refine ⟨hvalid, ?_⟩
    rw [publicKeyParse, length_some, if_neg (by rw [hb]; decide), toBytes_some, hparse]

/-- What a rotation by a tweak gives, where it gives anything. -/
theorem rotated_eq {k m t : Bytes} {key : Data} (hk : k.length = 32) (ht : t.length = 32) (hkey : IsPublicKey curve m key)
    (h : ecdhKey c (addToPrivKey c.toHdCrypto (some t) (some k)) (addToPubKey c (some t) key) ≠ none) :
    ecdhKey c (addToPrivKey c.toHdCrypto (some t) (some k)) (addToPubKey c (some t) key) =
      some (curve.shared ((scalar (curve.sum k t) * scalar (curve.sum m t)) • curve.generator)) := by
  have hpriv : addToPrivKey c.toHdCrypto (some t) (some k) ≠ none := by
    intro hnone
    rw [hnone] at h
    exact h (by unfold ecdhKey; exact if_pos (by decide))
  have hpub : addToPubKey c (some t) key ≠ none := by
    intro hnone
    rw [hnone] at h
    exact h (ecdhKey_none _)
  obtain ⟨hsum, hvalid⟩ := addToPrivKey_sum curve hk ht hpriv
  rw [hsum]
  exact ecdhKey_eq (scalarBytes_length _) hvalid (addToPubKey_sum ht hkey hpub)

/-- Both sides have the same key, as often as they rotate it. -/
theorem rotate_agrees (curve : EcdhCurve c Point) (a b : Data) (amount : UInt32)
    (ha : ecdhKeyRotate c a (pubKey c.toCrypto b) amount ≠ none)
    (hb : ecdhKeyRotate c b (pubKey c.toCrypto a) amount ≠ none) :
    ecdhKeyRotate c a (pubKey c.toCrypto b) amount = ecdhKeyRotate c b (pubKey c.toCrypto a) amount := by
  have hpublic : ∀ {key : Data} {other : Data}, ecdhKeyRotate c other (pubKey c.toCrypto key) amount ≠ none →
      pubKey c.toCrypto key ≠ none := by
    intro key other hrotate hnone
    refine hrotate ?_
    rw [hnone, ecdhKeyRotate]
    dsimp only
    split
    · exact ecdhKey_none _
    · exact ecdhKey_none _
  obtain ⟨j, rfl, hj, hjvalid⟩ := pubKey_some curve (hpublic hb)
  obtain ⟨k, rfl, hk, hkvalid⟩ := pubKey_some curve (hpublic ha)
  have hjkey := isPublicKey_pubKey curve hj hjvalid
  have hkkey := isPublicKey_pubKey curve hk hkvalid
  have hsecret : ecdhKey c (some j) (pubKey c.toCrypto (some k)) = ecdhKey c (some k) (pubKey c.toCrypto (some j)) := by
    rw [ecdhKey_eq hj hjvalid hkkey, ecdhKey_eq hk hkvalid hjkey, Nat.mul_comm]
  unfold ecdhKeyRotate at ha hb ⊢
  dsimp only at ha hb ⊢
  by_cases hamount : amount = 0
  · rw [if_pos hamount, if_pos hamount, hsecret]
  · rw [if_neg hamount] at ha hb ⊢
    rw [if_neg hamount]
    rw [hsecret] at ha ⊢
    have htweak : ∀ data : Data, ∃ t : Bytes, sha256 c.toCrypto (dataAdd data (some (uint32D amount.toNat))) = some t ∧ t.length = 32 :=
      fun data => ⟨_, rfl, c.sha256_length _⟩
    obtain ⟨t, htweak, ht⟩ := htweak (ecdhKey c (some k) (pubKey c.toCrypto (some j)))
    rw [htweak] at ha hb ⊢
    rw [rotated_eq hj ht hkkey ha, rotated_eq hk ht hjkey hb, Nat.mul_comm]

/-! ## Encryption -/

/-- `libraries/aes` with a key of 32 bytes. -/
structure Aes where
  /-- `Cipher` under the round keys of a key. -/
  cipher : Bytes → Bytes → Bytes
  invCipher : Bytes → Bytes → Bytes
  cipher_length : ∀ key block : Bytes, key.length = 32 → block.length = 16 → (cipher key block).length = 16
  invCipher_cipher : ∀ key block : Bytes, key.length = 32 → block.length = 16 → invCipher key (cipher key block) = block

def xorWithIv (buf iv : Bytes) : Bytes := List.zipWith (· ^^^ ·) buf iv

def Aes.blocks (aes : Aes) (key : Bytes) : BlockCipher UInt8 := ⟨16, xorWithIv, aes.cipher key, aes.invCipher key⟩

variable (c) (aes : Aes)

def nonceIv (nonce : UInt64) : Bytes := (c.sha256 (uint64D nonce.toNat)).take 16

def encryptAES (data privKey : Data) (nonce : UInt64) : Data :=
  let paddedData := padData16 data
  if paddedData.length % 16 ≠ 0 then none
  else if privKey.length ≠ 32 then none
  else some (chainEncrypt (aes.blocks privKey.toBytes) (paddedData.length / 16) (nonceIv c nonce) paddedData.toBytes)

def decryptAES (data privKey : Data) (nonce : UInt64) : Data :=
  if data.length % 16 ≠ 0 then none
  else if privKey.length ≠ 32 then none
  else unpadData16 (some (chainDecrypt (aes.blocks privKey.toBytes) (data.length / 16) (nonceIv c nonce) data.toBytes))

variable {c}

theorem xorWithIv_xorWithIv {x y : Bytes} (h : x.length = y.length) : xorWithIv (xorWithIv x y) y = x := by
  induction x generalizing y with
  | nil => rfl
  | cons a x ih =>
    cases y with
    | nil => cases h
    | cons b y =>
      show (a ^^^ b ^^^ b) :: xorWithIv (xorWithIv x y) y = a :: x
      rw [ih (Nat.succ.inj h), UInt8.xor_assoc, UInt8.xor_self, UInt8.xor_zero]

theorem Aes.blocks_invertible {key : Bytes} (hkey : key.length = 32) : (aes.blocks key).Invertible where
  mix_length x y hx hy := by
    show (List.zipWith _ x y).length = _
    rw [List.length_zipWith, hx, hy, Nat.min_self]
  mix_mix x y hx hy := xorWithIv_xorWithIv (hx.trans hy.symm)
  cipher_length x hx := aes.cipher_length key x hkey hx
  invCipher_cipher x hx := aes.invCipher_cipher key x hkey hx

theorem decrypt_encrypt (c : EcdhCrypto) (data : Data) {key : Bytes} (hkey : key.length = 32) (nonce : UInt64) :
    decryptAES c aes (encryptAES c aes data (some key) nonce) (some key) nonce = some data.toBytes := by
  have hwhole := padData16_whole data
  have hiv : (nonceIv c nonce).length = (aes.blocks key).width := by
    rw [nonceIv, List.length_take, c.sha256_length]
    rfl
  have hblocks : (padData16 data).toBytes.length = (padData16 data).length / 16 * (aes.blocks key).width :=
    (Nat.div_mul_cancel (Nat.dvd_of_mod_eq_zero hwhole)).symm
  have hlength := chainEncrypt_length (aes.blocks_invertible hkey) hiv hblocks
  have hback := chainDecrypt_chainEncrypt (aes.blocks_invertible hkey) hiv hblocks
  unfold encryptAES decryptAES
  dsimp only
  rw [if_neg (not_not.2 hwhole), length_some, if_neg (not_not.2 hkey), toBytes_some, length_some, hlength]
  show (if (padData16 data).length % 16 ≠ 0 then none else _) = _
  rw [if_neg (not_not.2 hwhole), if_neg (not_not.2 hkey), toBytes_some]
  refine (congrArg (fun bytes => unpadData16 (some bytes)) hback).trans ?_
  rw [padData16_eq, toBytes_some, ← padData16_eq, unpad_pad]

/-- What one side sends reaches the other: both have one key, and what is encrypted under it is
    decrypted. -/
theorem encrypted_messages (curve : EcdhCurve c Point) (aes : Aes) :
    (∀ (a b : Data) (amount : UInt32), ecdhKeyRotate c a (pubKey c.toCrypto b) amount ≠ none →
        ecdhKeyRotate c b (pubKey c.toCrypto a) amount ≠ none →
        ecdhKeyRotate c a (pubKey c.toCrypto b) amount = ecdhKeyRotate c b (pubKey c.toCrypto a) amount) ∧
      ∀ (message : Data) (key : Bytes) (nonce : UInt64), key.length = 32 →
        decryptAES c aes (encryptAES c aes message (some key) nonce) (some key) nonce = some message.toBytes :=
  ⟨rotate_agrees curve, fun message _ nonce hkey => decrypt_encrypt aes c message hkey nonce⟩

/-! ## A transparent instance -/

def logEcdhKey (p k : Bytes) : Option Bytes :=
  if 0 < scalar k ∧ scalar k < secp256k1Order then some (scalarBytes (scalar k * scalar (p.take 32) % secp256k1Order)) else none

def logPubkeyTweakAdd (p t : Bytes) : Option Bytes :=
  let sum := (scalar (p.take 32) + scalar t) % secp256k1Order
  if scalar t < secp256k1Order ∧ sum ≠ 0 then some (logPoint sum) else none

def logEcdh : EcdhCrypto := { logCrypto with ecdh := logEcdhKey, ecPubkeyTweakAdd := logPubkeyTweakAdd }

theorem scalar_save (p : ZMod secp256k1Order) : scalar ((logPoint p.val).take 32) = p.val :=
  scalar_logPoint (Nat.lt_of_lt_of_le (ZMod.val_lt p) order_le)

def logEcdhCurve : EcdhCurve logEcdh (ZMod secp256k1Order) where
  toCurve := logCurve
  shared p := scalarBytes p.val
  ecdh p k _ _ := by
    show (if _ then some (scalarBytes (scalar k * scalar ((logPoint p.val).take 32) % secp256k1Order)) else none) =
      (if _ then some (scalarBytes (scalar k • p).val) else none)
    rw [scalar_save, nsmul_eq_mul, ZMod.val_mul, ZMod.val_natCast, Nat.mod_mul_mod]
    rfl
  pubkey_tweak_add p t b _ _ := by
    have hsum : (p + scalar t • (1 : ZMod secp256k1Order)).val = (scalar ((logPoint p.val).take 32) + scalar t) % secp256k1Order := by
      rw [scalar_save, nsmul_one, ZMod.val_add, ZMod.val_natCast, Nat.add_mod_mod]
    show logPubkeyTweakAdd (logPoint p.val) t = some b ↔ _ ∧ p + scalar t • (1 : ZMod secp256k1Order) ≠ 0 ∧
      logPoint (p + scalar t • (1 : ZMod secp256k1Order)).val = b
    rw [Ne, ← ZMod.val_eq_zero, hsum, logPubkeyTweakAdd]
    by_cases hok : scalar t < secp256k1Order ∧ (scalar ((logPoint p.val).take 32) + scalar t) % secp256k1Order ≠ 0
    · rw [if_pos hok, Option.some.injEq]
      exact ⟨fun h => ⟨hok.1, hok.2, h⟩, fun h => h.2.2⟩
    · rw [if_neg hok]
      exact iff_of_false (by simp) fun h => hok ⟨h.1, h.2.1⟩

def plainAes : Aes where
  cipher _ block := block.reverse
  invCipher _ block := block.reverse
  cipher_length _ block _ h := by rw [List.length_reverse, h]
  invCipher_cipher _ block _ _ := List.reverse_reverse block

theorem encrypted_messages_three :
    ecdhKeyRotate logEcdh (some (scalarBytes 3)) (pubKey logEcdh.toCrypto (some (scalarBytes 5))) 1 =
        ecdhKeyRotate logEcdh (some (scalarBytes 5)) (pubKey logEcdh.toCrypto (some (scalarBytes 3))) 1 ∧
      decryptAES logEcdh plainAes (encryptAES logEcdh plainAes (some [1]) (some (scalarBytes 3)) 0) (some (scalarBytes 3)) 0 =
        some [1] :=
  ⟨(encrypted_messages logEcdhCurve plainAes).1 (some (scalarBytes 3)) (some (scalarBytes 5)) 1 (by decide +kernel) (by decide +kernel),
    (encrypted_messages logEcdhCurve plainAes).2 (some [1]) (scalarBytes 3) 0 (scalarBytes_length 3)⟩

end BitcoinSpoon
