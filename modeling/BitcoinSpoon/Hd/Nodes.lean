/-
  BitcoinSpoon.Hd.Nodes — derivation on records.

  `HdNode.child` is one attempt at one index; an index without a child sends the source to
  the next one. So a derivation is a search (`childKeyDerivation_private`,
  `childKeyDerivation_public`): a private node takes the first of all 2³² indices, counted
  around, a public one stops where the indices become hardened.
-/

import BitcoinSpoon.Hd.Record
import BitcoinSpoon.Loop.Search

namespace BitcoinSpoon

open Wire Loop

open HdRecord (Carries)

variable (c : HdCrypto)

/-! ## One child -/

namespace HdNode

variable (node : HdNode)

def IsPrivate : Prop := node.key.headD 0 = 0

instance : Decidable node.IsPrivate := inferInstanceAs (Decidable (_ = _))

def privKey : Bytes := node.key.drop 1

@[simp] theorem privKey_length : node.privKey.length = 32 := by rw [privKey, List.length_drop, node.key_length]

theorem privKey_eq : dataCopyDataPart node.key 1 32 = node.privKey :=
  List.take_of_length_le (Nat.le_of_eq node.privKey_length)

def pubKey : Data := if node.IsPrivate then BitcoinSpoon.pubKey c.toCrypto (some node.privKey) else some node.key

/-- The index as the source writes it into the record and into the hash. -/
def indexBytes (index : Nat) : Bytes := dataFlipEndianCopy (uint32D index)

@[simp] theorem indexBytes_length (index : Nat) : (indexBytes index).length = 4 := by
  simp [indexBytes, dataFlipEndianCopy, uint32D]

def hash (index : Nat) : Bytes :=
  hmacSha512 c node.chainCode
    ((if node.IsPrivate ∧ 0x80000000 ≤ index then node.key else (node.pubKey c).toBytes) ++ indexBytes index)

@[simp] theorem hash_length (index : Nat) : (node.hash c index).length = 64 := c.CCHmac_length _ _

/-- The half that is added to the key. -/
def leftHalf (index : Nat) : Bytes := dataCopyDataPart (node.hash c index) 0 32

@[simp] theorem leftHalf_length (index : Nat) : (node.leftHalf c index).length = 32 := part_length (by simp)

def childKey (index : Nat) : Data :=
  if node.IsPrivate then (addToPrivKey c (some (node.leftHalf c index)) (some node.privKey)).map (0 :: ·)
  else publicKeyCompress c.toCrypto
    (addPubKeys c (some node.key) (BitcoinSpoon.pubKey c.toCrypto (some (node.leftHalf c index))))

end HdNode

variable {c}

theorem publicKeyCompress_some {p : Data} {k : Bytes} (h : publicKeyCompress c.toCrypto p = some k) :
    ∃ q, p = some q ∧ c.ecPubkeySerialize q true = some k := by
  unfold publicKeyCompress publicKeySerialize at h
  split at h
  · cases h
  split at h
  · cases h
  exact ⟨_, rfl, h⟩

theorem compressed_length {p : Data} {k : Bytes} (h : publicKeyCompress c.toCrypto p = some k) : k.length = 33 := by
  obtain ⟨q, -, hq⟩ := publicKeyCompress_some h
  exact c.ecPubkeySerialize_length q true k hq

/-- A compressed public key is no private one. -/
theorem compressed_head {p : Data} {k : Bytes} (h : publicKeyCompress c.toCrypto p = some k) : k.headD 0 ≠ 0 := by
  obtain ⟨q, -, hq⟩ := publicKeyCompress_some h
  rcases c.ecPubkeySerialize_tag q k hq with htag | htag
  · rw [List.headD_eq_head?_getD, htag]
    decide
  · rw [List.headD_eq_head?_getD, htag]
    decide

theorem addToPrivKey_some {t k key : Bytes} (h : addToPrivKey c (some t) (some k) = some key) :
    c.ecPrivkeyTweakAdd k t = some key := by
  unfold addToPrivKey at h
  split at h
  · cases h
  split at h
  · cases h
  exact h

theorem childKey_length {node : HdNode} {index : Nat} {key : Bytes} (h : node.childKey c index = some key) : key.length = 33 := by
  unfold HdNode.childKey at h
  split at h
  · obtain ⟨k, hk, rfl⟩ := Option.map_eq_some_iff.1 h
    rw [List.length_cons, c.ecPrivkeyTweakAdd_length _ _ _ (addToPrivKey_some hk)]
  · exact compressed_length h

/-- The child at this index, if it has one. -/
def HdNode.child (c : HdCrypto) (node : HdNode) (index : Nat) : Option HdNode :=
  match h : node.childKey c index with
  | none => none
  | some key => some ⟨dataCopyDataPart (node.hash c index) 32 32, key, part_length (by simp), childKey_length h⟩

theorem child_eq_none {node : HdNode} {index : Nat} : node.child c index = none ↔ node.childKey c index = none := by
  unfold HdNode.child
  split
  · rename_i h
    simp [h]
  · rename_i key h
    simp [h]

theorem child_eq_some {node child : HdNode} {index : Nat} :
    node.child c index = some child ↔
      node.childKey c index = some child.key ∧ child.chainCode = dataCopyDataPart (node.hash c index) 32 32 := by
  unfold HdNode.child
  split
  · rename_i h
    simp [h]
  · rename_i key h
    constructor
    · rintro hchild
      cases hchild
      exact ⟨h, rfl⟩
    · rintro ⟨hkey, hchain⟩
      obtain rfl := Option.some.inj (h.symm.trans hkey)
      cases child
      subst hchain
      rfl

variable (c) in
/-- The child a derivation takes, and its index: counted around for a private node, up to the
    hardened indices for a public one. -/
def HdNode.next (node : HdNode) (index : Nat) : Option (Nat × HdNode) :=
  if node.IsPrivate then
    (firstFrom (fun i => node.child c (i % 2 ^ 32)) (2 ^ 32) index).map fun found => (found.1 % 2 ^ 32, found.2)
  else firstFrom (node.child c) (0x80000000 - index) index

/-! ## Its record -/

theorem fingerprint_length (c : HdCrypto) (p : Bytes) : ((c.ripemd160 (c.sha256 p)).take 4).length = 4 := by
  rw [List.length_take, c.ripemd160_length]
  rfl

/-- The record of a child of `r`, whose public key is `p`. -/
def HdRecord.descend (c : HdCrypto) (r : HdRecord) (p : Bytes) (index : Nat) (child : HdNode) : HdRecord :=
  { child with
    version := r.version
    depth := r.depth + 1
    fingerprint := (c.ripemd160 (c.sha256 p)).take 4
    childIndex := HdNode.indexBytes index
    version_length := r.version_length
    fingerprint_length := BitcoinSpoon.fingerprint_length c p
    childIndex_length := HdNode.indexBytes_length index }

variable {r : HdRecord} {b : Bytes}

theorem keyFromHdWallet_carries (h : Carries r b) : keyFromHdWallet (some b) = some r.key := by
  rw [keyFromHdWallet, if_neg h.sized, toBytes_some, h.key]

theorem chainCodeFromHdWallet_carries (h : Carries r b) : chainCodeFromHdWallet (some b) = some r.chainCode := by
  rw [chainCodeFromHdWallet, if_neg h.sized, toBytes_some, h.chainCode]

theorem pubKeyFromHdWallet_carries (h : Carries r b) : pubKeyFromHdWallet c (some b) = r.pubKey c := by
  rw [pubKeyFromHdWallet, keyFromHdWallet_carries h]
  show (if r.key.headD 0 ≠ 0 then some r.key else _) = _
  rw [r.privKey_eq, HdNode.pubKey]
  by_cases hpriv : r.key.headD 0 = 0
  · rw [if_neg (not_not.2 hpriv)]
    exact (if_pos hpriv).symm
  · rw [if_pos hpriv]
    exact (if_neg hpriv).symm

/-! ## The search -/

/-- A private key without a public one: the source copies from NULL. -/
theorem childKeyDerivationFrom_crash (h : Carries r b) (hp : r.pubKey c = none) (rounds index : Nat) :
    childKeyDerivationFrom c rounds (some b) index = none := by
  cases rounds with
  | zero => rfl
  | succ rounds =>
    rw [childKeyDerivationFrom, if_neg h.sized, pubKeyFromHdWallet_carries h, hp]
    rfl

theorem childKeyDerivationFrom_hardened (h : Carries r b) (hpub : ¬ r.IsPrivate) {index : Nat} (hi : 0x80000000 ≤ index)
    (rounds : Nat) : childKeyDerivationFrom c (rounds + 1) (some b) index = some none := by
  have hp : r.pubKey c = some r.key := if_neg hpub
  rw [childKeyDerivationFrom, if_neg h.sized, pubKeyFromHdWallet_carries h, hp]
  simp only [keyFromHdWallet_carries h, toBytes_some]
  have hkey : ¬ uint8read (some r.key) = 0 := hpub
  show (if uint8read (some r.key) = 0 then _ else if 0x80000000 ≤ index then some none else _) = _
  rw [if_neg hkey, if_pos hi]

theorem hash_private {node : HdNode} (h : node.IsPrivate) (index : Nat) :
    (if 0x80000000 ≤ index then hmacSha512 c node.chainCode (node.key ++ HdNode.indexBytes index)
      else hmacSha512 c node.chainCode ((pubKey c.toCrypto (some node.privKey)).toBytes ++ HdNode.indexBytes index)) =
      node.hash c index := by
  unfold HdNode.hash HdNode.pubKey
  by_cases hi : 0x80000000 ≤ index
  · rw [if_pos hi, if_pos ⟨h, hi⟩]
  · rw [if_neg hi, if_neg fun hboth => hi hboth.2, if_pos h]

theorem hash_public {node : HdNode} (h : ¬ node.IsPrivate) (index : Nat) :
    hmacSha512 c node.chainCode (node.key ++ HdNode.indexBytes index) = node.hash c index := by
  unfold HdNode.hash HdNode.pubKey
  rw [if_neg fun hboth => h hboth.1, if_neg h, toBytes_some]

theorem childKeyDerivationFrom_succ (h : Carries r b) {p : Bytes} (hp : r.pubKey c = some p) {index : Nat}
    (hsoft : r.IsPrivate ∨ index < 0x80000000) (rounds : Nat) :
    childKeyDerivationFrom c (rounds + 1) (some b) index =
      match r.child c index with
      | none => childKeyDerivationFrom c rounds (some b) ((index + 1) % 2 ^ 32)
      | some child => some (some ((r.descend c p index child).sealed c)) := by
  have hhalf : (dataCopyDataPart (r.hash c index) 32 32).length = 32 := part_length (by simp)
  -- depth, fingerprint, index and chain code, whichever branch writes the key
  have hfields := (((h.setDepth (r.depth + 1)).setFingerprint (fingerprint_length c p)).setChildIndex
    (HdNode.indexBytes_length index)).setChainCode hhalf
  rw [childKeyDerivationFrom, if_neg h.sized, pubKeyFromHdWallet_carries h, hp]
  simp only [keyFromHdWallet_carries h, chainCodeFromHdWallet_carries h, toBytes_some, h.depth]
  show (if r.key.headD 0 = 0 then _ else _) = _
  by_cases hpriv : r.key.headD 0 = 0
  · rw [if_pos hpriv, r.privKey_eq]
    have hhash := @hash_private c r.toHdNode hpriv index
    unfold HdNode.indexBytes at hhash
    simp only [hhash]
    have hkey : r.childKey c index = (addToPrivKey c (some (r.leftHalf c index)) (some r.privKey)).map (0 :: ·) := if_pos hpriv
    unfold HdNode.leftHalf at hkey
    cases hadd : addToPrivKey c (some (dataCopyDataPart (r.hash c index) 0 32)) (some r.privKey) with
    | none =>
      rw [hadd] at hkey
      rw [child_eq_none.2 hkey]
    | some k =>
      rw [hadd] at hkey
      have hk : k.length = 32 := c.ecPrivkeyTweakAdd_length _ _ _ (addToPrivKey_some hadd)
      have hchild : r.child c index = some ⟨dataCopyDataPart (r.hash c index) 32 32, 0 :: k, hhalf, by rw [List.length_cons, hk]⟩ :=
        child_eq_some.2 ⟨hkey, rfl⟩
      rw [hchild]
      exact congrArg (fun d => some (some d)) (hfields.setPrivKey hk).sealChecksum_eq
  · have hindex : ¬ 0x80000000 ≤ index := Nat.not_le.2 (hsoft.resolve_left hpriv)
    rw [if_neg hpriv, if_neg hindex]
    have hhash := @hash_public c r.toHdNode hpriv index
    unfold HdNode.indexBytes at hhash
    simp only [hhash]
    have hkey : r.childKey c index =
        publicKeyCompress c.toCrypto (addPubKeys c (some r.key) (pubKey c.toCrypto (some (r.leftHalf c index)))) := if_neg hpriv
    unfold HdNode.leftHalf at hkey
    cases hadd : publicKeyCompress c.toCrypto
        (addPubKeys c (some r.key) (pubKey c.toCrypto (some (dataCopyDataPart (r.hash c index) 0 32)))) with
    | none =>
      rw [hadd] at hkey
      rw [child_eq_none.2 hkey]
    | some k =>
      rw [hadd] at hkey
      have hchild : r.child c index = some ⟨dataCopyDataPart (r.hash c index) 32 32, k, hhalf, compressed_length hadd⟩ :=
        child_eq_some.2 ⟨hkey, rfl⟩
      rw [hchild]
      exact congrArg (fun d => some (some d)) (hfields.setKey (compressed_length hadd)).sealChecksum_eq

theorem childKeyDerivationFrom_private (h : Carries r b) {p : Bytes} (hp : r.pubKey c = some p) (hpriv : r.IsPrivate)
    (rounds index : Nat) :
    childKeyDerivationFrom c rounds (some b) (index % 2 ^ 32) =
      (firstFrom (fun i => r.child c (i % 2 ^ 32)) rounds index).map fun found =>
        some ((r.descend c p (found.1 % 2 ^ 32) found.2).sealed c) := by
  induction rounds generalizing index with
  | zero => rfl
  | succ rounds ih =>
    have hnext : (index % 2 ^ 32 + 1) % 2 ^ 32 = (index + 1) % 2 ^ 32 := by omega
    rw [childKeyDerivationFrom_succ h hp (.inl hpriv), firstFrom, hnext, ih (index + 1)]
    cases r.child c (index % 2 ^ 32) with
    | none => rfl
    | some child => rfl

theorem childKeyDerivationFrom_public (h : Carries r b) (hpub : ¬ r.IsPrivate) {left rounds index : Nat}
    (hleft : index + left = 0x80000000) (hrounds : left < rounds) :
    childKeyDerivationFrom c rounds (some b) index =
      some ((firstFrom (r.child c) left index).map fun found => (r.descend c r.key found.1 found.2).sealed c) := by
  induction left generalizing rounds index with
  | zero =>
    obtain ⟨rounds, rfl⟩ : ∃ n, rounds = n + 1 := ⟨rounds - 1, by omega⟩
    rw [childKeyDerivationFrom_hardened h hpub (by omega)]
    rfl
  | succ left ih =>
    obtain ⟨rounds, rfl⟩ : ∃ n, rounds = n + 1 := ⟨rounds - 1, by omega⟩
    have hnext : (index + 1) % 2 ^ 32 = index + 1 := Nat.mod_eq_of_lt (by omega)
    have hp : r.pubKey c = some r.key := if_neg hpub
    rw [childKeyDerivationFrom_succ h hp (.inr (by omega)), firstFrom, hnext, ih (by omega) (by omega)]
    cases r.child c index with
    | none => rfl
    | some child => rfl

/-- It returns exactly when one of the indices has a child. -/
theorem childKeyDerivation_private (h : Carries r b) {p : Bytes} (hp : r.pubKey c = some p) (hpriv : r.IsPrivate) {index : Nat}
    (hi : index < 2 ^ 32) :
    childKeyDerivation c (some b) index =
      (r.next c index).map fun found => some ((r.descend c p found.1 found.2).sealed c) := by
  have hsearch := childKeyDerivationFrom_private h hp hpriv (2 ^ 32) index
  rw [Nat.mod_eq_of_lt hi] at hsearch
  rw [childKeyDerivation, hsearch, HdNode.next, if_pos hpriv, Option.map_map]
  rfl

/-- It returns always. -/
theorem childKeyDerivation_public (h : Carries r b) (hpub : ¬ r.IsPrivate) (index : Nat) :
    childKeyDerivation c (some b) index =
      some ((r.next c index).map fun found => (r.descend c r.key found.1 found.2).sealed c) := by
  rw [childKeyDerivation, HdNode.next, if_neg hpub]
  by_cases hi : index < 0x80000000
  · exact childKeyDerivationFrom_public h hpub (by omega) (by omega)
  · have hnone : 0x80000000 - index = 0 := by omega
    rw [hnone]
    exact childKeyDerivationFrom_hardened h hpub (by omega) _

/-- There is no child of nothing. -/
theorem childKeyDerivation_none (index : Nat) : childKeyDerivation c none index = some none := by
  show childKeyDerivationFrom c (4294967295 + 1) none index = some none
  rw [childKeyDerivationFrom]
  rfl

theorem childKeyDerivation_crash (h : Carries r b) (hp : r.pubKey c = none) (index : Nat) :
    childKeyDerivation c (some b) index = none :=
  childKeyDerivationFrom_crash h hp _ index

/-! ## The public wallet -/

theorem nodePubKey_length {node : HdNode} {p : Bytes} (h : node.pubKey c = some p) : p.length = 33 := by
  unfold HdNode.pubKey at h
  split at h
  · exact compressed_length h
  · rw [← Option.some.inj h, node.key_length]

def HdRecord.versionNumber (r : HdRecord) : Nat := uint32read (dataFlipEndianCopy r.version)

theorem versionBytes_length (version : Nat) : (dataFlipEndianCopy (uint32D version)).length = 4 := by
  simp [dataFlipEndianCopy, uint32D]

/-- The same place in the tree, under another version and with the public key. -/
def HdRecord.neuter (r : HdRecord) (version : Nat) (p : Bytes) (hp : p.length = 33) : HdRecord :=
  { r with
    version := dataFlipEndianCopy (uint32D version)
    key := p
    version_length := versionBytes_length version
    key_length := hp }

theorem publicHdWallet_carries (h : Carries r b) :
    publicHdWallet c (some b) =
      match publicVersion r.versionNumber with
      | none => if r.versionNumber = HD_WALLET_PUB ∨ r.versionNumber = HD_WALLET_PUB_TESTNET then some (some b) else some none
      | some version =>
        if ¬ r.IsPrivate then some none
        else
          match pubKey c.toCrypto (some r.privKey) with
          | none => none
          | some p => some (some (sealChecksum c (patch (patch b 0 (dataFlipEndianCopy (uint32D version))) 45 p))) := by
  have hkey : ¬ Data.length (some r.key) ≠ 33 := not_not.2 r.key_length
  rw [publicHdWallet, if_neg h.sized]
  simp only [toBytes_some, h.version, keyFromHdWallet_carries h, if_neg hkey, r.privKey_eq]
  rfl

theorem publicHdWallet_private (h : Carries r b) {version : Nat} (hv : publicVersion r.versionNumber = some version)
    (hpriv : r.IsPrivate) {p : Bytes} (hp : r.pubKey c = some p) :
    publicHdWallet c (some b) = some (some ((r.neuter version p (nodePubKey_length hp)).sealed c)) := by
  have hkey : pubKey c.toCrypto (some r.privKey) = some p := (if_pos hpriv).symm.trans hp
  rw [publicHdWallet_carries h, hv]
  simp only [if_neg (not_not.2 hpriv), hkey]
  have hpatched := (h.setVersion (r.neuter version p (nodePubKey_length hp)).version_length).setKey (nodePubKey_length hp)
  exact congrArg (fun d => some (some d)) hpatched.sealChecksum_eq

end BitcoinSpoon
