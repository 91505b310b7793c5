/-
  BitcoinSpoon.Hd.Commute — a watch-only wallet follows the private one.

  Both sides of a node try the same indices and refuse the same ones, as long as the indices
  are not hardened (`neuter_next`); so the public wallet of a descendant is the descendant of
  the public wallet (`publicHdWallet_hdWallet`). A private node whose last index is cancelled
  goes on with a hardened one, where the public side ends.
-/

import BitcoinSpoon.Hd.Sound

namespace BitcoinSpoon

open Wire Loop

open HdRecord (Carries)

variable {c : HdCrypto} {Point : Type} [AddCommGroup Point]

/-! ## Along the path -/

namespace HdNode

/-- Every half that is tried from `index` on: those before it gave no child. -/
def HalvesValid (curve : Curve c Point) (node : HdNode) (index : Nat) : Prop :=
  ∀ i, index ≤ i → i < 0x80000000 → (∀ j, index ≤ j → j < i → node.child c j = none) → curve.ValidScalar (node.leftHalf c i)

/-- A child is found before the indices become hardened. -/
def HasSoftChild (c : HdCrypto) (node : HdNode) (index : Nat) : Prop := ∃ i, index ≤ i ∧ i < 0x80000000 ∧ node.child c i ≠ none

end HdNode

/-- An extended private key, of either network. -/
structure HdRecord.ValidPrivate (r : HdRecord) (curve : Curve c Point) : Prop where
  version : r.versionNumber = HD_WALLET_PRIV ∨ r.versionNumber = HD_WALLET_PRIV_TESTNET
  valid : r.Valid curve

variable {curve : Curve c Point} {node : HdNode} {r : HdRecord}

/-- Both sides take the child at the same index. -/
theorem neuter_next (h : node.Valid curve) {p : Bytes} (hp : node.pubKey c = some p) {index : Nat} (hhalves : node.HalvesValid curve index)
    (hsoft : node.HasSoftChild c index) :
    ∃ i child, child.Valid curve ∧ node.next c index = some (i, child) ∧ ∃ q, ∃ hq : child.pubKey c = some q,
      (node.neuter p (nodePubKey_length hp)).next c index = some (i, child.neuter q (nodePubKey_length hq)) := by
  obtain ⟨first, hle, hlt, hfirst⟩ := hsoft
  have hsearch : firstFrom (node.child c) (0x80000000 - index) index ≠ none := fun hnone =>
    hfirst (firstFrom_eq_none.1 hnone first hle (by omega))
  obtain ⟨⟨i, child⟩, hfound⟩ := Option.ne_none_iff_exists'.1 hsearch
  obtain ⟨hindex, hi, hchild, hbefore⟩ := firstFrom_eq_some.1 hfound
  have hhalf : ∀ j, index ≤ j → j ≤ i → curve.ValidScalar (node.leftHalf c j) := fun j hj hji =>
    hhalves j hj (by omega) fun k hk hkj => hbefore k hk (by omega)
  obtain ⟨hvalid, q, hq, hpublic⟩ := (neuter_child h hp (by omega) (hhalf i hindex (Nat.le_refl _))).2 child hchild
  have hpriv : firstFrom (fun i => node.child c (i % 2 ^ 32)) (2 ^ 32) index = some (i, child) := by
    refine firstFrom_congr hfound (by omega) ?_ fun j _ hji hnone => ?_
    · rw [Nat.mod_eq_of_lt (by omega), hchild]
    · rw [Nat.mod_eq_of_lt (by omega), hnone]
  have hpub : firstFrom ((node.neuter p (nodePubKey_length hp)).child c) (0x80000000 - index) index =
      some (i, child.neuter q (nodePubKey_length hq)) :=
    firstFrom_congr hfound hi hpublic fun j hj hji hnone => (neuter_child h hp (by omega) (hhalf j hj (by omega))).1 hnone
  have hside : ¬ (node.neuter p (nodePubKey_length hp)).IsPrivate := by
    rw [HdNode.pubKey, if_pos h.isPrivate] at hp
    exact compressed_head hp
  refine ⟨i, child, hvalid, ?_, q, hq, ?_⟩
  · rw [HdNode.next, if_pos h.isPrivate, hpriv, Option.map_some, Nat.mod_eq_of_lt (by omega)]
  · rw [HdNode.next, if_neg hside, hpub]

/-- The record a private wallet reaches, and the one its public wallet reaches. -/
theorem neuter_derive {path : List Nat} (hpath : ∀ i ∈ path, i < 0x80000000) {b : Bytes} (hr : Carries r b) (h : r.Valid curve)
    {version : Nat} (hv : publicVersion r.versionNumber = some version) {p : Bytes} (hp : r.pubKey c = some p)
    (hhalves : Along (HdNode.follow c) (HdNode.HalvesValid curve) r.toHdNode path)
    (hsoft : Along (HdNode.follow c) (HdNode.HasSoftChild c) r.toHdNode path) :
    ∃ d : Bytes, ((path.foldlM (childKeyDerivation c) (some b)).bind (publicHdWallet c) = some (some d)) ∧
      path.foldlM (childKeyDerivation c) (some ((r.neuter version p (nodePubKey_length hp)).sealed c)) = some (some d) := by
  induction path generalizing r b p with
  | nil => exact ⟨_, publicHdWallet_private hr hv h.isPrivate hp, rfl⟩
  | cons index path ih =>
    have hindex := hpath index (List.mem_cons_self ..)
    obtain ⟨i, child, hvalid, hnext, q, hq, hnext'⟩ := neuter_next h hp hhalves.1 hsoft.1
    have hpub : ¬ (r.neuter version p (nodePubKey_length hp)).IsPrivate := by
      rw [HdNode.pubKey, if_pos h.isPrivate] at hp
      exact compressed_head hp
    have hstep := childKeyDerivation_private hr hp h.isPrivate (show index < 2 ^ 32 by omega)
    have hstep' := @childKeyDerivation_public c _ _ (carries_sealed c (r.neuter version p (nodePubKey_length hp))) hpub index
    rw [hnext] at hstep
    rw [show (r.neuter version p (nodePubKey_length hp)).next c index = _ from hnext'] at hstep'
    rw [List.foldlM_cons, List.foldlM_cons, hstep, hstep']
    exact @ih (r.descend c p i child) (fun i hi => hpath i (List.mem_cons_of_mem _ hi)) _ (carries_sealed c _) hvalid hv q hq
      (hhalves.2 child (follow_of_next hnext)) (hsoft.2 child (follow_of_next hnext))

theorem publicHdWallet_hdWallet {w path : Bytes} (hr : Carries r w) (h : r.ValidPrivate curve)
    (hpath : ∀ i ∈ ckdIndicesFromPath path, i < 0x80000000)
    (hhalves : Along (HdNode.follow c) (HdNode.HalvesValid curve) r.toHdNode (ckdIndicesFromPath path))
    (hsoft : Along (HdNode.follow c) (HdNode.HasSoftChild c) r.toHdNode (ckdIndicesFromPath path)) :
    ∃ d : Bytes, (hdWallet c (some w) path).bind (publicHdWallet c) = some (some d) ∧
      (publicHdWallet c (some w)).bind (fun publicWallet => hdWallet c publicWallet path) = some (some d) := by
  obtain ⟨p, hp, -⟩ := valid_pubKey h.valid
  obtain ⟨version, hv⟩ : ∃ version, publicVersion r.versionNumber = some version := by
    rcases h.version with hversion | hversion
    · exact ⟨HD_WALLET_PUB, by rw [hversion]; rfl⟩
    · exact ⟨HD_WALLET_PUB_TESTNET, by rw [hversion]; rfl⟩
  rw [publicHdWallet_private hr hv h.valid.isPrivate hp]
  exact neuter_derive hpath hr h.valid hv hp hhalves hsoft

/-! ## The last index that is not hardened -/

def masterRecord (key : Nat) : HdRecord :=
  .root HD_WALLET_PRIV ⟨scalarBytes 0, 0 :: scalarBytes key, scalarBytes_length 0, by rw [List.length_cons, scalarBytes_length]⟩

theorem masterRecord_version (key : Nat) : (masterRecord key).versionNumber = HD_WALLET_PRIV := by
  show uint32read (dataFlipEndianCopy (dataFlipEndianCopy (uint32D HD_WALLET_PRIV))) = HD_WALLET_PRIV
  decide

theorem masterRecord_valid {key : Nat} (h0 : 0 < key) (h : key < secp256k1Order) : (masterRecord key).ValidPrivate logCurve := by
  have hscalar : scalar (scalarBytes key) = key := scalar_scalarBytes (Nat.lt_of_lt_of_le h order_le)
  refine ⟨.inl (masterRecord_version key), rfl, ?_, ?_⟩
  · show 0 < scalar (scalarBytes key)
    rw [hscalar]
    exact h0
  · show scalar (scalarBytes key) < secp256k1Order
    rw [hscalar]
    exact h

theorem logHalf_valid (node : HdNode) (index : Nat) : logCurve.ValidScalar (node.leftHalf logCrypto index) := by
  have hscalar : ∀ n, 0 < n → n < secp256k1Order → logCurve.ValidScalar (scalarBytes n) := by
    intro n h0 hn
    have hback : scalar (scalarBytes n) = n := scalar_scalarBytes (Nat.lt_of_lt_of_le hn order_le)
    exact ⟨by rw [hback]; exact h0, by rw [hback]; exact hn⟩
  have hhalf : ∀ key message : Bytes, logCurve.ValidScalar (dataCopyDataPart (logHmac key message) 0 32) := by
    intro key message
    have hcut : dataCopyDataPart (logHmac key message) 0 32 = scalarBytes (if message.head? = some 0 then 2 else 1) :=
      List.take_left' (scalarBytes_length _)
    rw [hcut]
    split
    · exact hscalar 2 (by decide) (by decide)
    · exact hscalar 1 (by decide) (by decide)
  exact hhalf _ _

theorem publicHdWallet_hdWallet_master :
    ∃ d : Bytes, (hdWallet logCrypto (some ((masterRecord 1).sealed logCrypto)) [0x6d, 0x2f, 0x30]).bind (publicHdWallet logCrypto) =
        some (some d) ∧
      (publicHdWallet logCrypto (some ((masterRecord 1).sealed logCrypto))).bind
        (fun publicWallet => hdWallet logCrypto publicWallet [0x6d, 0x2f, 0x30]) = some (some d) := by
  have hpath : ckdIndicesFromPath [0x6d, 0x2f, 0x30] = [0] := by decide
  have hchild : (masterRecord 1).childKey logCrypto 0 ≠ none := by decide +kernel
  refine publicHdWallet_hdWallet (carries_sealed logCrypto _) (masterRecord_valid (by decide) (by decide)) ?_ ?_ ?_
  · rw [hpath]
    decide
  · rw [hpath]
    exact ⟨fun i _ _ _ => logHalf_valid _ i, fun _ _ => trivial⟩
  · rw [hpath]
    exact ⟨⟨0, Nat.le_refl _, by decide, fun hnone => hchild (child_eq_none.1 hnone)⟩, fun _ _ => trivial⟩

/-- The half of the last soft index cancels its key. -/
def lastRecord : HdRecord := masterRecord (secp256k1Order - 1)

theorem lastRecord_valid : lastRecord.ValidPrivate logCurve := masterRecord_valid (by decide) (by decide)

theorem lastRecord_cancelled : lastRecord.child logCrypto 2147483647 = none := by
  have hkey : lastRecord.childKey logCrypto 2147483647 = none := by decide +kernel
  exact child_eq_none.2 hkey

theorem lastRecord_hardened : ∃ child, lastRecord.next logCrypto 2147483647 = some (2147483648, child) ∧
    lastRecord.child logCrypto 2147483648 = some child := by
  have hkey : lastRecord.childKey logCrypto 2147483648 ≠ none := by decide +kernel
  obtain ⟨child, hchild⟩ := Option.ne_none_iff_exists'.1 fun h => hkey (child_eq_none.1 h)
  have hfirst : firstFrom (fun i => lastRecord.child logCrypto (i % 2 ^ 32)) (2 ^ 32) 2147483647 = some (2147483648, child) := by
    refine firstFrom_eq_some.2 ⟨by decide, by decide, hchild, fun j hj hlt => ?_⟩
    obtain rfl : j = 2147483647 := by omega
    exact lastRecord_cancelled
  refine ⟨child, ?_, hchild⟩
  rw [HdNode.next, if_pos lastRecord_valid.valid.isPrivate, hfirst]
  rfl

theorem lastRecord_public {p : Bytes} (hp : lastRecord.pubKey logCrypto = some p) :
    ¬ (lastRecord.neuter HD_WALLET_PUB p (nodePubKey_length hp)).IsPrivate ∧
      (lastRecord.neuter HD_WALLET_PUB p (nodePubKey_length hp)).next logCrypto 2147483647 = none := by
  have hside : ¬ (lastRecord.neuter HD_WALLET_PUB p (nodePubKey_length hp)).IsPrivate := by
    rw [HdNode.pubKey, if_pos lastRecord_valid.valid.isPrivate] at hp
    exact compressed_head hp
  refine ⟨hside, ?_⟩
  rw [HdNode.next, if_neg hside]
  refine firstFrom_eq_none.2 fun j hj hlt => ?_
  obtain rfl : j = 2147483647 := by omega
  exact (neuter_child lastRecord_valid.valid hp (by decide) (logHalf_valid _ _)).1 lastRecord_cancelled

/-- "2147483647" -/
def lastPath : Bytes := [0x32, 0x31, 0x34, 0x37, 0x34, 0x38, 0x33, 0x36, 0x34, 0x37]

theorem lastPath_indices : ckdIndicesFromPath lastPath = [2147483647] := by decide

/-- The private wallet goes on with the first hardened index, the public one gives null. -/
theorem not_publicHdWallet_hdWallet :
    ¬ ∀ (r : HdRecord) (w path : Bytes), Carries r w → r.ValidPrivate logCurve →
      (∀ i ∈ ckdIndicesFromPath path, i < 0x80000000) →
      Along (HdNode.follow logCrypto) (HdNode.HalvesValid logCurve) r.toHdNode (ckdIndicesFromPath path) →
      (hdWallet logCrypto (some w) path).bind (publicHdWallet logCrypto) =
        (publicHdWallet logCrypto (some w)).bind fun publicWallet => hdWallet logCrypto publicWallet path := by
  intro hall
  have hr := carries_sealed logCrypto lastRecord
  have hpriv := lastRecord_valid.valid.isPrivate
  have hv : publicVersion lastRecord.versionNumber = some HD_WALLET_PUB := by
    rw [lastRecord, masterRecord_version]
    rfl
  obtain ⟨p, hp, -⟩ := valid_pubKey lastRecord_valid.valid
  obtain ⟨child, hnext, hchild⟩ := lastRecord_hardened
  obtain ⟨hside, q, hq⟩ := (child_side hchild).1 hpriv
  obtain ⟨hpub, hend⟩ := lastRecord_public hp
  have heq := hall lastRecord _ lastPath hr lastRecord_valid (by rw [lastPath_indices]; decide)
    (by rw [lastPath_indices]; exact ⟨fun i _ _ _ => logHalf_valid _ i, fun _ _ => trivial⟩)
  have hprivate : hdWallet logCrypto (some (lastRecord.sealed logCrypto)) lastPath =
      some (some ((lastRecord.descend logCrypto p 2147483648 child).sealed logCrypto)) := by
    rw [hdWallet, lastPath_indices, List.foldlM_cons, childKeyDerivation_private hr hp hpriv (by decide), hnext]
    rfl
  have hpublic : hdWallet logCrypto (some ((lastRecord.neuter HD_WALLET_PUB p (nodePubKey_length hp)).sealed logCrypto)) lastPath = some none := by
    rw [hdWallet, lastPath_indices, List.foldlM_cons, childKeyDerivation_public (carries_sealed _ _) hpub, hend]
    rfl
  have hchildpub := @publicHdWallet_private logCrypto (lastRecord.descend logCrypto p 2147483648 child) _
    (carries_sealed logCrypto _) HD_WALLET_PUB hv hside q hq
  rw [hprivate, publicHdWallet_private hr hv hpriv hp, Option.bind_some, Option.bind_some, hpublic, hchildpub] at heq
  cases heq

end BitcoinSpoon
