/-
  BitcoinSpoon.Hd.Sound — what the library returns as a wallet.

  Null or 82 bytes with their checksum and a key, exactly where `HdCall.Meets` says
  (`hdCall_sound_iff`). The constructors mean to refuse a key or a chain code of another length and
  refuse only both together; a wallet that is none is copied, and a private key that has no
  public one is copied from NULL.
-/

import BitcoinSpoon.Hd.Curve
import BitcoinSpoon.Loop.Runs

namespace BitcoinSpoon

open Wire Loop

open HdRecord (Carries)

variable (c : HdCrypto)

/-! ## The calls -/

/-- A zero byte and 32 of a private key, or a compressed public key. -/
def HdKeyBytes (key : Bytes) : Prop :=
  (∃ k : Bytes, k.length = 32 ∧ key = 0 :: k) ∨ ∃ p, c.ecPubkeySerialize p true = some key

def HdWellFormed (d : Data) : Prop :=
  d.length = 82 ∧ hdWalletVerify c d = true ∧ HdKeyBytes c (dataCopyDataPart d.toBytes 45 33)

/-- It returns, and null or a wallet. -/
def HdSound (result : Option Data) : Prop := ∃ d, result = some d ∧ (d = none ∨ HdWellFormed c d)

inductive HdCall where
  | hdWalletPriv (masterKey chainCode : Data)
  | hdWalletPub (masterKey chainCode : Data)
  | hdWalletPrivTestNet (masterKey chainCode : Data)
  | hdWalletPubTestNet (masterKey chainCode : Data)
  | hdWalletSetDepth (hdWallet : Data) (depth : UInt8)
  | privKeyToHdWallet (privKey : Data) (passphrase : Bytes)
  | publicHdWallet (privHdWallet : Data)
  | childKeyDerivation (hdWallet : Data) (index : UInt32)
  | hdWallet (wallet : Data) (path : Bytes)

namespace HdCall

def run : HdCall → Option Data
  | hdWalletPriv masterKey chainCode => some (BitcoinSpoon.hdWalletPriv c masterKey chainCode)
  | hdWalletPub masterKey chainCode => some (BitcoinSpoon.hdWalletPub c masterKey chainCode)
  | hdWalletPrivTestNet masterKey chainCode => some (BitcoinSpoon.hdWalletPrivTestNet c masterKey chainCode)
  | hdWalletPubTestNet masterKey chainCode => some (BitcoinSpoon.hdWalletPubTestNet c masterKey chainCode)
  | hdWalletSetDepth wallet depth => some (BitcoinSpoon.hdWalletSetDepth c wallet depth)
  | privKeyToHdWallet privKey passphrase => BitcoinSpoon.privKeyToHdWallet c privKey passphrase
  | publicHdWallet wallet => BitcoinSpoon.publicHdWallet c wallet
  | childKeyDerivation wallet index => BitcoinSpoon.childKeyDerivation c wallet index.toNat
  | hdWallet wallet path => BitcoinSpoon.hdWallet c wallet path

/-- The last three are applied to a verified wallet. -/
def Admitted : HdCall → Prop
  | publicHdWallet wallet => hdWalletVerify c wallet = true
  | childKeyDerivation wallet _ => hdWalletVerify c wallet = true
  | hdWallet wallet _ => hdWalletVerify c wallet = true
  | _ => True

end HdCall

namespace HdNode

/-- One of the indices has a child: its half is a scalar and does not cancel the key. -/
def HasChild (node : HdNode) (index : Nat) : Prop := ∃ tried < 2 ^ 32, node.child c ((index + tried) % 2 ^ 32) ≠ none

def follow (node : HdNode) (index : Nat) : Option HdNode := (node.next c index).map Prod.snd

/-- Every node on the path. -/
def HasChildren (node : HdNode) (path : List Nat) : Prop := Along (follow c) (HasChild c) node path

end HdNode

namespace HdRecord

/-- A private key has its public one, a public wallet a compressed key. -/
def MeetsPublic (r : HdRecord) : Prop :=
  (publicVersion r.versionNumber ≠ none → r.IsPrivate → r.pubKey c ≠ none) ∧
    (r.versionNumber = HD_WALLET_PUB ∨ r.versionNumber = HD_WALLET_PUB_TESTNET → HdKeyBytes c r.key)

def MeetsChild (index : Nat) (r : HdRecord) : Prop := r.IsPrivate → r.pubKey c ≠ none ∧ r.HasChild c index

def MeetsPath (path : Bytes) (r : HdRecord) : Prop :=
  if ckdIndicesFromPath path = [] then HdKeyBytes c r.key
  else r.IsPrivate → r.pubKey c ≠ none ∧ r.HasChildren c (ckdIndicesFromPath path)

end HdRecord

/-- What each call asks of its arguments. -/
def HdCall.Meets : HdCall → Prop
  | hdWalletPriv masterKey chainCode => masterKey.length = 32 ↔ chainCode.length = 32
  | hdWalletPrivTestNet masterKey chainCode => masterKey.length = 32 ↔ chainCode.length = 32
  | hdWalletPub masterKey chainCode =>
    publicKeyCompress c.toCrypto (publicKeyParse c.toCrypto masterKey) ≠ none ↔ chainCode.length = 32
  | hdWalletPubTestNet masterKey chainCode =>
    publicKeyCompress c.toCrypto (publicKeyParse c.toCrypto masterKey) ≠ none ↔ chainCode.length = 32
  | hdWalletSetDepth wallet _ => ∀ r : HdRecord, r.Carries wallet.toBytes → HdKeyBytes c r.key
  | privKeyToHdWallet privKey _ => privKey ≠ none
  | publicHdWallet wallet => ∀ r : HdRecord, r.Carries wallet.toBytes → r.MeetsPublic c
  | childKeyDerivation wallet index => ∀ r : HdRecord, r.Carries wallet.toBytes → r.MeetsChild c index.toNat
  | hdWallet wallet path => ∀ r : HdRecord, r.Carries wallet.toBytes → r.MeetsPath c path

variable {c} {r : HdRecord}

/-! ## Sealed records -/

theorem keyBytes_private {node : HdNode} (h : node.IsPrivate) : HdKeyBytes c node.key := by
  obtain ⟨first, k, hkey⟩ := List.exists_cons_of_length_eq_add_one node.key_length
  have hlen := node.key_length
  rw [hkey, List.length_cons] at hlen
  rw [HdNode.IsPrivate, hkey, List.headD_cons] at h
  exact .inl ⟨k, by omega, by rw [hkey, h]⟩

theorem wellFormed_sealed : HdWellFormed c (some (r.sealed c)) ↔ HdKeyBytes c r.key := by
  rw [HdWellFormed, toBytes_some, (carries_sealed c r).key]
  constructor
  · rintro ⟨-, -, hkey⟩
    exact hkey
  · intro hkey
    exact ⟨sealed_length c r, hdWalletVerify_iff.2 ⟨r, rfl⟩, hkey⟩

theorem sound_sealed : HdSound c (some (some (r.sealed c))) ↔ HdKeyBytes c r.key := by
  rw [← wellFormed_sealed]
  constructor
  · rintro ⟨d, hd, h⟩
    obtain rfl := Option.some.inj hd
    exact h.resolve_left (by simp)
  · intro h
    exact ⟨_, rfl, .inr h⟩

theorem sound_null : HdSound c (some none) := ⟨none, rfl, .inl rfl⟩

theorem not_sound_none : ¬ HdSound c none := by
  rintro ⟨d, hd, -⟩
  cases hd

theorem not_sound_length {b : Bytes} (h : b.length ≠ 82) : ¬ HdSound c (some (some b)) := by
  rintro ⟨d, hd, hnone | hform⟩
  · rw [hnone] at hd
    cases hd
  · obtain rfl := Option.some.inj hd
    exact h hform.1

/-! ## The constructors -/

def HdRecord.root (version : Nat) (node : HdNode) : HdRecord :=
  { node with
    version := dataFlipEndianCopy (uint32D version)
    depth := 0
    fingerprint := uint32D 0
    childIndex := uint32D 0
    version_length := versionBytes_length version
    fingerprint_length := by simp [uint32D]
    childIndex_length := by simp [uint32D] }

theorem hdRoot_payload (version : Nat) (node : HdNode) :
    hdRoot version ++ (node.chainCode ++ node.key) = (HdRecord.root version node).payload := by
  have hzero : uint8D 0 = [0] := rfl
  simp [hdRoot, HdRecord.payload, HdRecord.root, hzero]

theorem hdRoot_length (version : Nat) : (hdRoot version).length = 13 := by
  simp [hdRoot, dataFlipEndianCopy, uint32D, uint8D]

theorem hdWalletPrivVersion_sound (version : Nat) (masterKey chainCode : Data) :
    HdSound c (some (hdWalletPrivVersion c version masterKey chainCode)) ↔ (masterKey.length = 32 ↔ chainCode.length = 32) := by
  unfold hdWalletPrivVersion
  split
  · rename_i hboth
    exact iff_of_true sound_null (iff_of_false hboth.1 hboth.2)
  · rename_i hone
    dsimp only
    by_cases hlen : masterKey.length = 32 ∧ chainCode.length = 32
    · let node : HdNode := ⟨chainCode.toBytes, 0 :: masterKey.toBytes, hlen.2, by rw [List.length_cons]; exact congrArg (· + 1) hlen.1⟩
      have hdata : hdRoot version ++ chainCode.toBytes ++ uint8D 0 ++ masterKey.toBytes = (HdRecord.root version node).payload := by
        rw [← hdRoot_payload, List.append_assoc, List.append_assoc]
        rfl
      rw [hdata]
      exact iff_of_true (sound_sealed.2 (keyBytes_private rfl)) (iff_of_true hlen.1 hlen.2)
    · refine iff_of_false (not_sound_length ?_) (by tauto)
      unfold Data.length at hone hlen
      rw [List.length_append, hdChecksum_length]
      simp only [List.length_append, hdRoot_length, uint8D, leBytes_length]
      omega

theorem hdWalletPubVersion_sound (version : Nat) (masterKey chainCode : Data) :
    HdSound c (some (hdWalletPubVersion c version masterKey chainCode)) ↔
      (publicKeyCompress c.toCrypto (publicKeyParse c.toCrypto masterKey) ≠ none ↔ chainCode.length = 32) := by
  unfold hdWalletPubVersion
  dsimp only
  cases hkey : publicKeyCompress c.toCrypto (publicKeyParse c.toCrypto masterKey) with
  | none =>
    by_cases hlen : chainCode.length = 32
    · rw [if_neg fun h => h.2 hlen]
      refine iff_of_false (not_sound_length ?_) (by simp [hlen])
      unfold Data.length at hlen
      rw [List.length_append, hdChecksum_length]
      simp only [List.length_append, hdRoot_length, toBytes_none, List.length_nil]
      omega
    · rw [if_pos ⟨rfl, hlen⟩]
      exact iff_of_true sound_null (iff_of_false (by simp) hlen)
  | some key =>
    have hkeylen := compressed_length hkey
    rw [if_neg fun h => by cases h.1]
    by_cases hlen : chainCode.length = 32
    · let node : HdNode := ⟨chainCode.toBytes, key, hlen, hkeylen⟩
      have hdata : hdRoot version ++ chainCode.toBytes ++ Data.toBytes (some key) = (HdRecord.root version node).payload := by
        rw [← hdRoot_payload, List.append_assoc]
        rfl
      rw [hdata]
      obtain ⟨p, -, hp⟩ := publicKeyCompress_some hkey
      exact iff_of_true (sound_sealed.2 (.inr ⟨p, hp⟩)) (iff_of_true (by simp) hlen)
    · refine iff_of_false (not_sound_length ?_) (by simp [hlen])
      unfold Data.length at hlen
      rw [List.length_append, hdChecksum_length]
      simp only [List.length_append, hdRoot_length, toBytes_some, hkeylen]
      omega

theorem hdWalletSetDepth_sound (wallet : Data) (depth : UInt8) :
    HdSound c (some (hdWalletSetDepth c wallet depth)) ↔ ∀ r : HdRecord, r.Carries wallet.toBytes → HdKeyBytes c r.key := by
  by_cases hlen : wallet.length = 82
  · obtain ⟨r, hr⟩ := exists_carries hlen
    rw [hdWalletSetDepth, if_neg (not_not.2 hlen), (hr.setDepth depth).sealChecksum_eq, sound_sealed]
    constructor
    · intro hkey r' hr'
      rwa [hr.unique hr']
    · intro hall
      exact hall r hr
  · rw [hdWalletSetDepth, if_pos hlen]
    exact iff_of_true sound_null fun r hr => absurd hr.length hlen

theorem privKeyToHdWallet_sound (privKey : Data) (passphrase : Bytes) :
    HdSound c (privKeyToHdWallet c privKey passphrase) ↔ privKey ≠ none := by
  cases privKey with
  | none => exact iff_of_false not_sound_none (by simp)
  | some b =>
    refine iff_of_true ?_ (by simp)
    unfold privKeyToHdWallet
    split
    · rename_i hcrash
      cases hcrash
    · exact sound_null
    · rename_i sentence _
      have hlen : (hmacSha512 c seedPhrase (PBKDF2 c sentence passphrase).toBytes).length = 64 := c.CCHmac_length _ _
      have hleft := part_length (show 0 + 32 ≤ (hmacSha512 c seedPhrase (PBKDF2 c sentence passphrase).toBytes).length by omega)
      have hright := part_length (show 32 + 32 ≤ (hmacSha512 c seedPhrase (PBKDF2 c sentence passphrase).toBytes).length by omega)
      dsimp only
      rw [if_neg (not_not.2 hlen)]
      exact (hdWalletPrivVersion_sound _ _ _).2 (iff_of_true hleft hright)

theorem publicHdWallet_sound (r : HdRecord) :
    HdSound c (publicHdWallet c (some (r.sealed c))) ↔ r.MeetsPublic c := by
  unfold HdRecord.MeetsPublic
  have hr := carries_sealed c r
  cases hversion : publicVersion r.versionNumber with
  | none =>
    rw [publicHdWallet_carries hr, hversion]
    by_cases hpub : r.versionNumber = HD_WALLET_PUB ∨ r.versionNumber = HD_WALLET_PUB_TESTNET
    · simp only [if_pos hpub, sound_sealed]
      simp [hpub]
    · simp only [if_neg hpub]
      exact iff_of_true sound_null ⟨fun h => absurd rfl h, fun h => absurd h hpub⟩
  | some version =>
    have hother : ¬ (r.versionNumber = HD_WALLET_PUB ∨ r.versionNumber = HD_WALLET_PUB_TESTNET) := by
      rintro (h | h)
      · rw [h] at hversion
        cases hversion
      · rw [h] at hversion
        cases hversion
    by_cases hpriv : r.IsPrivate
    · cases hp : r.pubKey c with
      | none =>
        have hkey : pubKey c.toCrypto (some r.privKey) = none := (if_pos hpriv).symm.trans hp
        rw [publicHdWallet_carries hr, hversion]
        simp only [if_neg (not_not.2 hpriv), hkey]
        exact iff_of_false not_sound_none fun h => h.1 (by simp) hpriv rfl
      | some p =>
        have hkey : pubKey c.toCrypto (some r.privKey) = some p := (if_pos hpriv).symm.trans hp
        obtain ⟨q, -, hq⟩ := publicKeyCompress_some hkey
        rw [publicHdWallet_private hr hversion hpriv hp, sound_sealed]
        exact iff_of_true (.inr ⟨q, hq⟩) ⟨fun _ _ => by simp, fun h => absurd h hother⟩
    · rw [publicHdWallet_carries hr, hversion]
      simp only [if_pos hpriv]
      exact iff_of_true sound_null ⟨fun _ h => absurd h hpriv, fun h => absurd h hother⟩

/-! ## Derivation -/

theorem child_keyBytes {node child : HdNode} {index : Nat} (h : node.child c index = some child) : HdKeyBytes c child.key := by
  obtain ⟨hkey, -⟩ := child_eq_some.1 h
  unfold HdNode.childKey at hkey
  split at hkey
  · obtain ⟨k, hk, hcons⟩ := Option.map_eq_some_iff.1 hkey
    exact .inl ⟨k, c.ecPrivkeyTweakAdd_length _ _ _ (addToPrivKey_some hk), hcons.symm⟩
  · obtain ⟨p, -, hp⟩ := publicKeyCompress_some hkey
    exact .inr ⟨p, hp⟩

/-- A child is on the side of its parent, and a private one has a public key. -/
theorem child_side {node child : HdNode} {index : Nat} (h : node.child c index = some child) :
    (node.IsPrivate → child.IsPrivate ∧ ∃ p, child.pubKey c = some p) ∧ (¬ node.IsPrivate → ¬ child.IsPrivate) := by
  obtain ⟨hkey, -⟩ := child_eq_some.1 h
  unfold HdNode.childKey at hkey
  split at hkey
  · rename_i hpriv
    obtain ⟨k, hk, hcons⟩ := Option.map_eq_some_iff.1 hkey
    have hadd := addToPrivKey_some hk
    have hklen := c.ecPrivkeyTweakAdd_length _ _ _ hadd
    have hside : child.IsPrivate := by rw [HdNode.IsPrivate, ← hcons]; rfl
    have hchild : child.privKey = k := by rw [HdNode.privKey, ← hcons]; rfl
    refine ⟨fun _ => ⟨hside, ?_⟩, fun hpub => absurd hpriv hpub⟩
    obtain ⟨p, hp⟩ := c.ecPrivkeyTweakAdd_create _ _ _ hadd
    obtain ⟨b, hb, -⟩ := c.ecPubkeyParse_serialize k p true hp
    have hsize : ¬ p.length ≠ 64 := not_not.2 (c.ecPubkeyCreate_length k p hp)
    have hk' : ¬ Data.length (some k) ≠ 32 := not_not.2 hklen
    refine ⟨b, (if_pos hside).trans ?_⟩
    rw [hchild, pubKey, publicKeyFromPrivate, if_neg hk', toBytes_some, hp]
    exact (if_neg hsize).trans hb
  · rename_i hpub
    exact ⟨fun hpriv => absurd hpriv hpub, fun _ => compressed_head hkey⟩

theorem child_of_next {node : HdNode} {index : Nat} {found : Nat × HdNode} (h : node.next c index = some found) :
    ∃ i, node.child c i = some found.2 := by
  unfold HdNode.next at h
  split at h
  · obtain ⟨first, hfirst, rfl⟩ := Option.map_eq_some_iff.1 h
    exact ⟨_, (firstFrom_eq_some.1 hfirst).2.2.1⟩
  · exact ⟨_, (firstFrom_eq_some.1 h).2.2.1⟩

theorem next_private {node : HdNode} (h : node.IsPrivate) (index : Nat) : node.next c index ≠ none ↔ node.HasChild c index := by
  rw [HdNode.next, if_pos h, Ne, Option.map_eq_none_iff, firstFrom_eq_none]
  constructor
  · intro hsome
    by_contra hnone
    refine hsome fun j hj hlt => ?_
    by_contra hchild
    refine hnone ⟨j - index, by omega, ?_⟩
    rwa [Nat.add_sub_cancel' hj]
  · rintro ⟨tried, hlt, hchild⟩ hnone
    exact hchild (hnone (index + tried) (by omega) (by omega))

theorem follow_of_next {node : HdNode} {index : Nat} {found : Nat × HdNode} (h : node.next c index = some found) :
    node.follow c index = some found.2 := by
  rw [HdNode.follow, h]
  rfl

/-- The private side of a path. -/
theorem derive_private_sound {path : List Nat} (hpath : ∀ i ∈ path, i < 2 ^ 32) {b : Bytes} (h : Carries r b) {p : Bytes}
    (hp : r.pubKey c = some p) (hpriv : r.IsPrivate) (hempty : path = [] → b = r.sealed c) :
    HdSound c (path.foldlM (childKeyDerivation c) (some b)) ↔ r.HasChildren c path := by
  induction path generalizing r b p with
  | nil =>
    rw [hempty rfl]
    exact iff_of_true (sound_sealed.2 (keyBytes_private hpriv)) trivial
  | cons index path ih =>
    have hchildren := @next_private c _ hpriv index
    rw [List.foldlM_cons, childKeyDerivation_private h hp hpriv (hpath index (List.mem_cons_self ..))]
    cases hnext : r.next c index with
    | none =>
      rw [hnext] at hchildren
      refine iff_of_false not_sound_none fun hall => hchildren.2 hall.1 rfl
    | some found =>
      rw [hnext] at hchildren
      obtain ⟨i, hchild⟩ := child_of_next hnext
      obtain ⟨hside, q, hq⟩ := (child_side hchild).1 hpriv
      have hrest := @ih (r.descend c p found.1 found.2) (fun i hi => hpath i (List.mem_cons_of_mem _ hi)) _
        (carries_sealed c _) q hq hside fun _ => rfl
      show HdSound c (path.foldlM (childKeyDerivation c) (some ((r.descend c p found.1 found.2).sealed c))) ↔ _
      rw [hrest]
      constructor
      · intro hall
        refine ⟨hchildren.1 (by simp), fun node hnode => ?_⟩
        rw [follow_of_next hnext] at hnode
        obtain rfl := Option.some.inj hnode
        exact hall
      · intro hall
        exact hall.2 found.2 (follow_of_next hnext)

theorem derive_none (path : List Nat) : path.foldlM (childKeyDerivation c) none = some none := by
  induction path with
  | nil => rfl
  | cons index path ih =>
    rw [List.foldlM_cons, childKeyDerivation_none]
    exact ih

/-- The public side returns always. -/
theorem derive_public_sound {path : List Nat} {b : Bytes} (h : Carries r b) (hpub : ¬ r.IsPrivate)
    (hempty : path = [] → b = r.sealed c ∧ HdKeyBytes c r.key) : HdSound c (path.foldlM (childKeyDerivation c) (some b)) := by
  induction path generalizing r b with
  | nil =>
    obtain ⟨rfl, hkey⟩ := hempty rfl
    exact sound_sealed.2 hkey
  | cons index path ih =>
    rw [List.foldlM_cons, childKeyDerivation_public h hpub]
    cases hnext : r.next c index with
    | none =>
      show HdSound c (path.foldlM (childKeyDerivation c) none)
      rw [derive_none]
      exact sound_null
    | some found =>
      obtain ⟨i, hchild⟩ := child_of_next hnext
      exact ih (carries_sealed c _) ((child_side hchild).2 hpub) fun _ => ⟨rfl, child_keyBytes hchild⟩

theorem childKeyDerivation_sound (r : HdRecord) {index : Nat} (hi : index < 2 ^ 32) :
    HdSound c (childKeyDerivation c (some (r.sealed c)) index) ↔ r.MeetsChild c index := by
  unfold HdRecord.MeetsChild
  have hr := carries_sealed c r
  by_cases hpriv : r.IsPrivate
  · cases hp : r.pubKey c with
    | none =>
      rw [childKeyDerivation_crash hr hp]
      exact iff_of_false not_sound_none fun h => (h hpriv).1 rfl
    | some p =>
      have hchild := @next_private c _ hpriv index
      rw [childKeyDerivation_private hr hp hpriv hi]
      cases hnext : r.next c index with
      | none =>
        rw [hnext] at hchild
        exact iff_of_false not_sound_none fun h => hchild.2 (h hpriv).2 rfl
      | some found =>
        rw [hnext] at hchild
        obtain ⟨i, hfound⟩ := child_of_next hnext
        exact iff_of_true (sound_sealed.2 (child_keyBytes hfound)) fun _ => ⟨by simp, hchild.1 (by simp)⟩
  · rw [childKeyDerivation_public hr hpriv]
    refine iff_of_true ?_ fun h => absurd h hpriv
    cases hnext : r.next c index with
    | none => exact sound_null
    | some found =>
      obtain ⟨i, hfound⟩ := child_of_next hnext
      exact sound_sealed.2 (child_keyBytes hfound)

theorem ckdIndicesFromPath_lt (path : Bytes) : ∀ i ∈ ckdIndicesFromPath path, i < 2 ^ 32 := by
  intro i hi
  unfold ckdIndicesFromPath at hi
  dsimp only at hi
  split at hi
  · cases hi
  · obtain ⟨component, -, rfl⟩ := List.mem_map.1 hi
    have hlow : (strtoll component % 2 ^ 32).toNat < 2 ^ 32 := by omega
    unfold componentIndex
    dsimp only
    split
    · exact Nat.or_lt_two_pow hlow (by decide)
    · exact hlow

theorem hdWallet_sound (r : HdRecord) (path : Bytes) :
    HdSound c (hdWallet c (some (r.sealed c)) path) ↔ r.MeetsPath c path := by
  have hr := carries_sealed c r
  have hpath := ckdIndicesFromPath_lt path
  unfold hdWallet HdRecord.MeetsPath
  split
  · rename_i hempty
    rw [hempty]
    exact sound_sealed
  · rename_i hne
    by_cases hpriv : r.IsPrivate
    · cases hp : r.pubKey c with
      | none =>
        obtain ⟨index, rest, hcons⟩ := List.exists_cons_of_ne_nil hne
        rw [hcons, List.foldlM_cons, childKeyDerivation_crash hr hp]
        exact iff_of_false not_sound_none fun h => (h hpriv).1 rfl
      | some p =>
        rw [derive_private_sound hpath hr hp hpriv fun _ => rfl]
        exact ⟨fun h _ => ⟨by simp, h⟩, fun h => (h hpriv).2⟩
    · exact iff_of_true (derive_public_sound hr hpriv fun h => absurd h hne) fun h => absurd h hpriv

/-! ## Every call -/

/-- A condition on the record of a verified wallet. -/
theorem forall_carries (r : HdRecord) (condition : HdRecord → Prop) :
    (∀ r' : HdRecord, r'.Carries (Data.toBytes (some (r.sealed c))) → condition r') ↔ condition r := by
  constructor
  · intro h
    exact h r (carries_sealed c r)
  · intro h r' hr'
    rwa [(carries_sealed c r).unique hr']

theorem hdCall_sound_iff (call : HdCall) (h : call.Admitted c) : HdSound c (call.run c) ↔ call.Meets c := by
  cases call with
  | hdWalletPriv masterKey chainCode => exact hdWalletPrivVersion_sound _ masterKey chainCode
  | hdWalletPub masterKey chainCode => exact hdWalletPubVersion_sound _ masterKey chainCode
  | hdWalletPrivTestNet masterKey chainCode => exact hdWalletPrivVersion_sound _ masterKey chainCode
  | hdWalletPubTestNet masterKey chainCode => exact hdWalletPubVersion_sound _ masterKey chainCode
  | hdWalletSetDepth wallet depth => exact hdWalletSetDepth_sound wallet depth
  | privKeyToHdWallet privKey passphrase => exact privKeyToHdWallet_sound privKey passphrase
  | publicHdWallet wallet =>
    obtain ⟨r, rfl⟩ := hdWalletVerify_iff.1 h
    exact (publicHdWallet_sound r).trans (forall_carries r (HdRecord.MeetsPublic c)).symm
  | childKeyDerivation wallet index =>
    obtain ⟨r, rfl⟩ := hdWalletVerify_iff.1 h
    exact (childKeyDerivation_sound r index.toNat_lt).trans (forall_carries r (HdRecord.MeetsChild c index.toNat)).symm
  | hdWallet wallet path =>
    obtain ⟨r, rfl⟩ := hdWalletVerify_iff.1 h
    exact (hdWallet_sound r path).trans (forall_carries r (HdRecord.MeetsPath c path)).symm

def oneWallet : Data := hdWalletPriv logCrypto (some (scalarBytes 1)) (some (scalarBytes 0))

theorem hdCall_sound_one :
    hdWalletVerify logCrypto oneWallet = true ∧
      (HdSound logCrypto (HdCall.run logCrypto (.publicHdWallet oneWallet)) ↔ HdCall.Meets logCrypto (.publicHdWallet oneWallet)) := by
  have hverified : hdWalletVerify logCrypto oneWallet = true := by decide +kernel
  exact ⟨hverified, hdCall_sound_iff (.publicHdWallet oneWallet) hverified⟩

/-- 31 bytes of a key and 32 of a chain code make 81. -/
theorem not_hdCall_sound : ¬ ∀ call : HdCall, call.Admitted logCrypto → HdSound logCrypto (call.run logCrypto) := by
  intro hall
  have hpriv := hall (.hdWalletPriv (some ((scalarBytes 1).drop 1)) (some (scalarBytes 0))) trivial
  have hlengths := (hdWalletPrivVersion_sound _ _ _).1 hpriv
  exact absurd (hlengths.2 (by decide)) (by decide)

end BitcoinSpoon
