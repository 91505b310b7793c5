/-
  BitcoinSpoon.Hd.Curve — the keys as a group (`libraries/secp256k1`).

  A private key is a scalar and its public key that multiple of the generator; the library
  adds keys in the group and refuses the neutral element. So adding to a private key and
  then taking the public one is adding the public keys (`neuter_child`), and both refuse
  the same tweaks.
-/

import BitcoinSpoon.Hd.Nodes
import Mathlib.GroupTheory.OrderOfElement
import Mathlib.Data.ZMod.Basic

namespace BitcoinSpoon

open Wire Loop

/-- `secp256k1_scalar_set_b32`, before the reduction. -/
def scalar (b : Bytes) : Nat := leNat b.reverse

/-- `secp256k1_scalar_get_b32`. -/
def scalarBytes (n : Nat) : Bytes := (leBytes 32 n).reverse

theorem scalarBytes_length (n : Nat) : (scalarBytes n).length = 32 := by simp [scalarBytes]

theorem scalar_scalarBytes {n : Nat} (h : n < 256 ^ 32) : scalar (scalarBytes n) = n := by
  rw [scalar, scalarBytes, List.reverse_reverse, leNat_leBytes 32 n h]

/-- The functions of `secp256k1.c` over the group of the curve. -/
structure Curve (c : HdCrypto) (Point : Type) [AddCommGroup Point] where
  generator : Point
  order : Nat
  order_pos : 0 < order
  order_le : order ≤ 256 ^ 32
  addOrderOf_generator : addOrderOf generator = order
  /-- `secp256k1_pubkey_save`. -/
  save : Point → Bytes
  create : ∀ k : Bytes, k.length = 32 →
    c.ecPubkeyCreate k = if 0 < scalar k ∧ scalar k < order then some (save (scalar k • generator)) else none
  tweak_add : ∀ k t : Bytes, k.length = 32 → t.length = 32 →
    c.ecPrivkeyTweakAdd k t =
      if scalar t < order ∧ (scalar k + scalar t) % order ≠ 0 then some (scalarBytes ((scalar k + scalar t) % order)) else none
  /-- Neither of the keys is the neutral element. -/
  combine : ∀ (p q : Point) (b : Bytes), p ≠ 0 → q ≠ 0 →
    (c.ecPubkeyCombine (save p) (save q) = some b ↔ p + q ≠ 0 ∧ save (p + q) = b)

variable {c : HdCrypto} {Point : Type} [AddCommGroup Point] (curve : Curve c Point)

namespace Curve

def ValidScalar (b : Bytes) : Prop := 0 < scalar b ∧ scalar b < curve.order

def point (b : Bytes) : Point := scalar b • curve.generator

variable {curve}

theorem nsmul_eq_zero {n : Nat} : n • curve.generator = 0 ↔ n % curve.order = 0 := by
  rw [← addOrderOf_dvd_iff_nsmul_eq_zero, curve.addOrderOf_generator, Nat.dvd_iff_mod_eq_zero]

theorem point_ne_zero {b : Bytes} (h : curve.ValidScalar b) : curve.point b ≠ 0 := by
  intro hzero
  have := nsmul_eq_zero.1 hzero
  rw [Nat.mod_eq_of_lt h.2] at this
  exact Nat.ne_of_gt h.1 this

theorem publicKeyFromPrivate_valid {k : Bytes} (hk : k.length = 32) (h : curve.ValidScalar k) :
    publicKeyFromPrivate c.toCrypto (some k) = some (curve.save (curve.point k)) := by
  have hk' : ¬ Data.length (some k) ≠ 32 := not_not.2 hk
  rw [publicKeyFromPrivate, if_neg hk', toBytes_some, curve.create k hk]
  exact if_pos h

/-- The serialized public key parses to the point. -/
theorem pubKey_valid {k : Bytes} (hk : k.length = 32) (h : curve.ValidScalar k) :
    ∃ p, pubKey c.toCrypto (some k) = some p ∧ publicKeyParse c.toCrypto (some p) = some (curve.save (curve.point k)) := by
  have hcreate : c.ecPubkeyCreate k = some (curve.save (curve.point k)) := (curve.create k hk).trans (if_pos h)
  obtain ⟨p, hserialize, hparse⟩ := c.ecPubkeyParse_serialize k _ true hcreate
  have hsize : (curve.save (curve.point k)).length = 64 := c.ecPubkeyCreate_length k _ hcreate
  have hp : p.length = 33 := c.ecPubkeySerialize_length _ true p hserialize
  refine ⟨p, ?_, ?_⟩
  · rw [pubKey, publicKeyFromPrivate_valid hk h]
    show (if (curve.save (curve.point k)).length ≠ 64 then none else _) = _
    rw [if_neg (not_not.2 hsize), hserialize]
  · rw [publicKeyParse, length_some, if_neg (by omega), toBytes_some, hparse]

end Curve

/-! ## The public side of a child -/

/-- A private node that has a public key. -/
structure HdNode.Valid (node : HdNode) (curve : Curve c Point) : Prop where
  isPrivate : node.IsPrivate
  scalar : curve.ValidScalar node.privKey

def HdNode.neuter (node : HdNode) (p : Bytes) (hp : p.length = 33) : HdNode := ⟨node.chainCode, p, node.chainCode_length, hp⟩

variable {curve} {node : HdNode}

theorem valid_pubKey (h : node.Valid curve) :
    ∃ p, node.pubKey c = some p ∧ publicKeyParse c.toCrypto (some p) = some (curve.save (curve.point node.privKey)) := by
  obtain ⟨p, hp, hparse⟩ := curve.pubKey_valid node.privKey_length h.scalar
  exact ⟨p, (if_pos h.isPrivate).trans hp, hparse⟩

theorem hash_neuter (hpriv : node.IsPrivate) {p : Bytes} (hp : node.pubKey c = some p) {index : Nat} (hi : index < 0x80000000) :
    (node.neuter p (nodePubKey_length hp)).hash c index = node.hash c index := by
  have hsoft : ¬ (node.IsPrivate ∧ 0x80000000 ≤ index) := fun h => by omega
  have hhead : ¬ (node.neuter p (nodePubKey_length hp)).IsPrivate := by
    rw [HdNode.pubKey, if_pos hpriv] at hp
    exact compressed_head hp
  rw [← hash_public hhead, HdNode.hash, if_neg hsoft, hp]
  rfl

/-! ### Adding -/

/-- The bytes of the sum of two scalars. -/
def Curve.sum (curve : Curve c Point) (k t : Bytes) : Bytes := scalarBytes ((scalar k + scalar t) % curve.order)

theorem scalar_sum (k t : Bytes) : scalar (curve.sum k t) = (scalar k + scalar t) % curve.order :=
  scalar_scalarBytes (Nat.lt_of_lt_of_le (Nat.mod_lt _ curve.order_pos) curve.order_le)

theorem point_sum (k t : Bytes) : curve.point (curve.sum k t) = curve.point k + curve.point t := by
  rw [Curve.point, scalar_sum, Curve.point, Curve.point, ← add_nsmul, ← curve.addOrderOf_generator, mod_addOrderOf_nsmul]

/-- The tweak takes the key to 0. -/
def Curve.Cancels (curve : Curve c Point) (k t : Bytes) : Prop := (scalar k + scalar t) % curve.order = 0

instance (k t : Bytes) : Decidable (curve.Cancels k t) := inferInstanceAs (Decidable (_ = _))

theorem cancels_iff (k t : Bytes) : curve.Cancels k t ↔ curve.point k + curve.point t = 0 := by
  rw [Curve.point, Curve.point, ← add_nsmul, Curve.nsmul_eq_zero, Curve.Cancels]

theorem addToPrivKey_curve {k t : Bytes} (hk : k.length = 32) (ht : t.length = 32) (hvalid : curve.ValidScalar t) :
    addToPrivKey c (some t) (some k) = if curve.Cancels k t then none else some (curve.sum k t) := by
  have hk' : ¬ Data.length (some k) ≠ 32 := not_not.2 hk
  have ht' : ¬ Data.length (some t) ≠ 32 := not_not.2 ht
  rw [addToPrivKey, if_neg ht', if_neg hk', toBytes_some, toBytes_some, curve.tweak_add k t hk ht]
  by_cases hcancels : curve.Cancels k t
  · rw [if_pos hcancels, if_neg fun h => h.2 hcancels]
  · rw [if_neg hcancels, if_pos ⟨hvalid.2, hcancels⟩]
    rfl

theorem addPubKeys_curve {k t p q : Bytes} (hk : curve.ValidScalar k) (ht : curve.ValidScalar t)
    (hp : publicKeyParse c.toCrypto (some p) = some (curve.save (curve.point k)))
    (hq : publicKeyParse c.toCrypto (some q) = some (curve.save (curve.point t))) :
    addPubKeys c (some p) (some q) =
      if curve.Cancels k t then none else some (curve.save (curve.point (curve.sum k t))) := by
  have hsize : ∀ {b : Bytes} {d : Bytes}, publicKeyParse c.toCrypto (some b) = some d → ¬ Data.length (some d) ≠ 64 := by
    intro b d hd
    unfold publicKeyParse at hd
    split at hd
    · cases hd
    · exact not_not.2 (c.ecPubkeyParse_length _ _ hd)
  have hcombine := curve.combine (curve.point k) (curve.point t)
  rw [addPubKeys, hp, hq]
  simp only [if_neg (hsize hp), if_neg (hsize hq), toBytes_some]
  by_cases hcancels : curve.Cancels k t
  · rw [if_pos hcancels, Option.eq_none_iff_forall_ne_some]
    intro b hb
    exact ((hcombine b (Curve.point_ne_zero hk) (Curve.point_ne_zero ht)).1 hb).1 ((cancels_iff k t).1 hcancels)
  · rw [if_neg hcancels, point_sum]
    exact (hcombine _ (Curve.point_ne_zero hk) (Curve.point_ne_zero ht)).2 ⟨fun h => hcancels ((cancels_iff k t).2 h), rfl⟩

theorem childKey_private (h : node.Valid curve) {index : Nat} (hleft : curve.ValidScalar (node.leftHalf c index)) :
    node.childKey c index = if curve.Cancels node.privKey (node.leftHalf c index) then none
      else some (0 :: curve.sum node.privKey (node.leftHalf c index)) := by
  rw [HdNode.childKey, if_pos h.isPrivate, addToPrivKey_curve node.privKey_length (node.leftHalf_length c index) hleft]
  split
  · rfl
  · rfl

theorem childKey_public (h : node.Valid curve) {p : Bytes} (hp : node.pubKey c = some p) {index : Nat} (hi : index < 0x80000000)
    (hleft : curve.ValidScalar (node.leftHalf c index)) :
    (node.neuter p (nodePubKey_length hp)).childKey c index = if curve.Cancels node.privKey (node.leftHalf c index) then none
      else publicKeyCompress c.toCrypto (some (curve.save (curve.point (curve.sum node.privKey (node.leftHalf c index))))) := by
  have hpublic : ¬ (node.neuter p (nodePubKey_length hp)).IsPrivate := by
    rw [HdNode.pubKey, if_pos h.isPrivate] at hp
    exact compressed_head hp
  obtain ⟨p', hp', hparse⟩ := valid_pubKey h
  obtain rfl : p' = p := Option.some.inj (hp'.symm.trans hp)
  obtain ⟨q, hq, hqparse⟩ := curve.pubKey_valid (node.leftHalf_length c index) hleft
  have hkey : (node.neuter p' (nodePubKey_length hp)).childKey c index = publicKeyCompress c.toCrypto (addPubKeys c (some p') (some q)) := by
    rw [HdNode.childKey, if_neg hpublic, HdNode.leftHalf, hash_neuter h.isPrivate hp hi, ← hq]
    rfl
  rw [hkey, addPubKeys_curve h.scalar hleft hparse hqparse]
  split
  · rfl
  · rfl

/-- A node whose key is the sum. -/
theorem valid_of_sum {child : HdNode} {t : Bytes} (hkey : child.key = 0 :: curve.sum node.privKey t)
    (hkeeps : ¬ curve.Cancels node.privKey t) :
    child.Valid curve ∧ child.privKey = curve.sum node.privKey t := by
  have hpriv : child.privKey = curve.sum node.privKey t := by
    rw [HdNode.privKey, hkey]
    rfl
  refine ⟨⟨by rw [HdNode.IsPrivate, hkey]; rfl, ?_, ?_⟩, hpriv⟩
  · rw [hpriv, scalar_sum]
    exact Nat.pos_of_ne_zero hkeeps
  · rw [hpriv, scalar_sum]
    exact Nat.mod_lt _ curve.order_pos

/-- The public side of the node has the public side of its child, and no child where it has none. -/
theorem neuter_child (h : node.Valid curve) {p : Bytes} (hp : node.pubKey c = some p) {index : Nat} (hi : index < 0x80000000)
    (hleft : curve.ValidScalar (node.leftHalf c index)) :
    (node.child c index = none → (node.neuter p (nodePubKey_length hp)).child c index = none) ∧
      ∀ child, node.child c index = some child → child.Valid curve ∧ ∃ q, ∃ hq : child.pubKey c = some q,
        (node.neuter p (nodePubKey_length hp)).child c index = some (child.neuter q (nodePubKey_length hq)) := by
  have hkey := childKey_private h hleft
  have hkey' := childKey_public h hp hi hleft
  by_cases hcancels : curve.Cancels node.privKey (node.leftHalf c index)
  · rw [if_pos hcancels] at hkey hkey'
    refine ⟨fun _ => child_eq_none.2 hkey', fun child hchild => ?_⟩
    rw [child_eq_none.2 hkey] at hchild
    cases hchild
  · rw [if_neg hcancels] at hkey hkey'
    refine ⟨fun hnone => ?_, fun child hchild => ?_⟩
    · rw [child_eq_none.1 hnone] at hkey
      cases hkey
    · obtain ⟨hchildkey, hchain⟩ := child_eq_some.1 hchild
      obtain ⟨hvalid, hpriv⟩ := valid_of_sum (Option.some.inj (hchildkey.symm.trans hkey)) hcancels
      obtain ⟨q, hq, -⟩ := valid_pubKey hvalid
      refine ⟨hvalid, q, hq, child_eq_some.2 ⟨?_, ?_⟩⟩
      · have hcompress : pubKey c.toCrypto (some child.privKey) = some q := (if_pos hvalid.isPrivate).symm.trans hq
        rw [pubKey, Curve.publicKeyFromPrivate_valid child.privKey_length hvalid.scalar] at hcompress
        rw [hkey', ← hpriv]
        exact hcompress
      · show child.chainCode = _
        rw [hchain, hash_neuter h.isPrivate hp hi]

/-! ## A transparent instance

The integers modulo the order of the curve, a point being its own logarithm. The left half
of its HMAC is always a valid scalar: 2 for a hardened index and 1 for another. -/

def secp256k1Order : Nat := 0xFFFFFFFFFFFFFFFFFFFFFFFFFFFFFFFEBAAEDCE6AF48A03BBFD25E8CD0364141

instance : NeZero secp256k1Order := ⟨by decide⟩

theorem scalarBytes_scalar {k : Bytes} (h : k.length = 32) : scalarBytes (scalar k) = k := by
  have := leBytes_leNat k.reverse
  rw [List.length_reverse, h] at this
  rw [scalarBytes, scalar, this, List.reverse_reverse]

theorem order_le : secp256k1Order ≤ 256 ^ 32 := by decide

def logPoint (n : Nat) : Bytes := scalarBytes n ++ scalarBytes n

theorem logPoint_length (n : Nat) : (logPoint n).length = 64 := by
  rw [logPoint, List.length_append, scalarBytes_length]

theorem scalar_logPoint {n : Nat} (h : n < 256 ^ 32) : scalar ((logPoint n).take 32) = n := by
  rw [logPoint, List.take_left' (scalarBytes_length n), scalar_scalarBytes h]

def logCreate (k : Bytes) : Option Bytes :=
  if k.length = 32 ∧ 0 < scalar k ∧ scalar k < secp256k1Order then some (k ++ k) else none

theorem logCreate_plain {k p : Bytes} (h : logCreate k = some p) : plainCrypto.ecPubkeyCreate k = some p := by
  unfold logCreate at h
  split at h
  · rename_i hk
    rw [← h]
    exact if_pos hk.1
  · cases h

def logTweakAdd (k t : Bytes) : Option Bytes :=
  if scalar t < secp256k1Order ∧ (scalar k + scalar t) % secp256k1Order ≠ 0 then
    some (scalarBytes ((scalar k + scalar t) % secp256k1Order))
  else none

def logCombine (p q : Bytes) : Option Bytes :=
  let sum := (scalar (p.take 32) + scalar (q.take 32)) % secp256k1Order
  if sum = 0 then none else some (logPoint sum)

def logHmac (key message : Bytes) : Bytes :=
  scalarBytes (if message.head? = some 0 then 2 else 1) ++ plainHash 32 (key ++ message)

theorem logCreate_scalarBytes {n : Nat} (h0 : n ≠ 0) (h : n < secp256k1Order) :
    logCreate (scalarBytes n) = some (scalarBytes n ++ scalarBytes n) := by
  have hn : scalar (scalarBytes n) = n := scalar_scalarBytes (Nat.lt_of_lt_of_le h order_le)
  rw [logCreate, hn, if_pos ⟨scalarBytes_length n, Nat.pos_of_ne_zero h0, h⟩]

theorem logTweakAdd_some {k t b : Bytes} (h : logTweakAdd k t = some b) :
    ∃ n, n ≠ 0 ∧ n < secp256k1Order ∧ b = scalarBytes n := by
  unfold logTweakAdd at h
  split at h
  · rename_i hsum
    exact ⟨_, hsum.2, Nat.mod_lt _ (by decide), (Option.some.inj h).symm⟩
  · cases h

def logKeys : Crypto :=
  { plainCrypto with
    ecPubkeyCreate := logCreate
    ecPubkeyCreate_length := fun k p h => plainCrypto.ecPubkeyCreate_length k p (logCreate_plain h)
    ecPubkeyParse_serialize := fun k p compressed h => plainCrypto.ecPubkeyParse_serialize k p compressed (logCreate_plain h) }

theorem logKeys_create : logKeys.ecPubkeyCreate = logCreate := rfl

def logCrypto : HdCrypto where
  toCrypto := logKeys
  CCHmac := logHmac
  CCKeyDerivationPBKDF sentence salt := some (plainHash 64 (sentence ++ salt))
  mnemonic_from_bytes b := some b
  ecPrivkeyTweakAdd := logTweakAdd
  ecPubkeyCombine := logCombine
  CCHmac_length key message := by
    rw [logHmac, List.length_append, scalarBytes_length]
    show 32 + (leBytes 32 _).length = 64
    rw [leBytes_length]
  ecPrivkeyTweakAdd_length k t b h := by
    obtain ⟨n, -, -, rfl⟩ := logTweakAdd_some h
    exact scalarBytes_length n
  ecPrivkeyTweakAdd_create k t b h := by
    obtain ⟨n, h0, hn, rfl⟩ := logTweakAdd_some h
    rw [logKeys_create, logCreate_scalarBytes h0 hn]
    exact ⟨_, rfl⟩
  ecPubkeyCombine_length p q b h := by
    unfold logCombine at h
    dsimp only at h
    split at h
    · cases h
    · rw [← Option.some.inj h, logPoint_length]
  ecPubkeySerialize_tag p b h := by
    change plainSerialize p true = some b at h
    unfold plainSerialize at h
    split at h
    · cases h
    · rw [← Option.some.inj h]
      exact .inl rfl

theorem logCrypto_create : logCrypto.ecPubkeyCreate = logCreate := rfl
theorem logCrypto_tweakAdd : logCrypto.ecPrivkeyTweakAdd = logTweakAdd := rfl
theorem logCrypto_combine : logCrypto.ecPubkeyCombine = logCombine := rfl

theorem logCreate_eq {k : Bytes} (hk : k.length = 32) :
    logCreate k = if 0 < scalar k ∧ scalar k < secp256k1Order
      then some (logPoint (scalar k • (1 : ZMod secp256k1Order)).val) else none := by
  rw [logCreate]
  by_cases hvalid : 0 < scalar k ∧ scalar k < secp256k1Order
  · rw [if_pos ⟨hk, hvalid⟩, if_pos hvalid, nsmul_one, ZMod.val_natCast_of_lt hvalid.2, logPoint, scalarBytes_scalar hk]
  · rw [if_neg fun h => hvalid h.2, if_neg hvalid]

theorem logCombine_eq (p q : ZMod secp256k1Order) (b : Bytes) :
    logCombine (logPoint p.val) (logPoint q.val) = some b ↔ p + q ≠ 0 ∧ logPoint (p + q).val = b := by
  have hval : ∀ p : ZMod secp256k1Order, scalar ((logPoint p.val).take 32) = p.val := fun p =>
    scalar_logPoint (Nat.lt_of_lt_of_le (ZMod.val_lt p) order_le)
  rw [logCombine, hval p, hval q, ← ZMod.val_add, Ne, ← ZMod.val_eq_zero]
  by_cases hzero : (p + q).val = 0
  · rw [if_pos hzero]
    simp [hzero]
  · rw [if_neg hzero]
    simp [hzero]

def logCurve : Curve logCrypto (ZMod secp256k1Order) where
  generator := 1
  order := secp256k1Order
  order_pos := by decide
  order_le := order_le
  addOrderOf_generator := ZMod.addOrderOf_one secp256k1Order
  save p := logPoint p.val
  create k hk := by rw [logCrypto_create, logCreate_eq hk]
  tweak_add k t _ _ := by rw [logCrypto_tweakAdd, logTweakAdd]
  combine p q b _ _ := by rw [logCrypto_combine, logCombine_eq]

end BitcoinSpoon
