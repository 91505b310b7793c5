/-
  BitcoinSpoon.Tracking.Wallets — the scopes of the wallet functions (`DataTrackPush`,
  `DataTrackPop`, `code/Data.c`; `code/BTCUtil.c`).

  Each function is written with its pushes and pops; the bodies are those of `Hd.Wallet`, and
  the values are the same. All of them pop what they push on every path
  (`childKeyDerivation_shifts`, `hdWallet_shifts`) but `publicHdWallet`, which returns a
  wallet that is public already from between the two (`publicHdWallet_shifts`).

  Every function of the library that is not here pushes nothing.
-/

import BitcoinSpoon.Hd.Wallet
import BitcoinSpoon.Loop.Scopes

namespace BitcoinSpoon.Tracking

open Wire Loop

variable {α : Type}

/-- The value is untracked before and tracked again behind; `DTPopNull` is this for NULL. -/
def DTPop (value : α) : Scoped α := do
  pop
  pure value

theorem dtPop_shifts (value : α) {i : Nat} : Shifts (DTPop value) (some value) (i + 1) i := shifts_pop.bind (shifts_pure value)

/-! ## Hashes -/

section

variable (c : Crypto)

def ripemd160 (data : Data) : Scoped Data := do
  push
  match data with
  | none => DTPop none
  | some bytes => DTPop (some (c.ripemd160 bytes))

def hash160 (data : Data) : Scoped Data := do
  push
  let hash ← ripemd160 c (sha256 c data)
  DTPop hash

def hash256 (data : Data) : Scoped Data := do
  push
  DTPop (sha256 c (sha256 c data))

theorem ripemd160_shifts (data : Data) : Shifts (ripemd160 c data) (some (BitcoinSpoon.ripemd160 c data)) 0 0 := by
  refine shifts_push.bind ?_
  cases data <;> exact dtPop_shifts _

theorem hash160_shifts (data : Data) : Shifts (hash160 c data) (some (BitcoinSpoon.hash160 c data)) 0 0 :=
  shifts_push.bind ((ripemd160_shifts c _).above.bind (dtPop_shifts _))

theorem hash256_shifts (data : Data) : Shifts (hash256 c data) (some (BitcoinSpoon.hash256 c data)) 0 0 :=
  shifts_push.bind (dtPop_shifts _)

end

variable (c : HdCrypto)

/-! ## Keys -/

def pubKeyFromHdWallet (hdWallet : Data) : Scoped Data := do
  push
  match keyFromHdWallet hdWallet with
  | none => DTPop none
  | some key => if key.headD 0 ≠ 0 then DTPop (some key) else DTPop (pubKey c.toCrypto (some (dataCopyDataPart key 1 32)))

def addPubKeys (keyA keyB : Data) : Scoped Data := do
  push
  let keyA := publicKeyParse c.toCrypto keyA
  let keyB := publicKeyParse c.toCrypto keyB
  if keyA.length ≠ 64 then DTPop none
  else if keyB.length ≠ 64 then DTPop none
  else
    match c.ecPubkeyCombine keyA.toBytes keyB.toBytes with
    | none => DTPop none
    | some result => DTPop (some result)

def sealChecksum (data : Bytes) : Scoped Bytes := do
  let checksum ← hash256 c.toCrypto (some (dataCopyDataPart data 0 78))
  pure (patch data 78 (checksum.toBytes.take 4))

theorem pubKeyFromHdWallet_shifts (hdWallet : Data) :
    Shifts (pubKeyFromHdWallet c hdWallet) (some (BitcoinSpoon.pubKeyFromHdWallet c hdWallet)) 0 0 := by
  refine shifts_push.bind ?_
  rw [BitcoinSpoon.pubKeyFromHdWallet]
  cases keyFromHdWallet hdWallet with
  | none => exact dtPop_shifts none
  | some key =>
    by_cases hpublic : key.headD 0 ≠ 0
    · simpa only [if_pos hpublic] using dtPop_shifts _
    · simpa only [if_neg hpublic] using dtPop_shifts _

theorem addPubKeys_shifts (keyA keyB : Data) :
    Shifts (addPubKeys c keyA keyB) (some (BitcoinSpoon.addPubKeys c keyA keyB)) 0 0 := by
  refine shifts_push.bind ?_
  rw [BitcoinSpoon.addPubKeys]
  dsimp only
  by_cases hA : (publicKeyParse c.toCrypto keyA).length ≠ 64
  · simpa only [if_pos hA] using dtPop_shifts _
  by_cases hB : (publicKeyParse c.toCrypto keyB).length ≠ 64
  · simpa only [if_neg hA, if_pos hB] using dtPop_shifts _
  simp only [if_neg hA, if_neg hB]
  cases c.ecPubkeyCombine (publicKeyParse c.toCrypto keyA).toBytes (publicKeyParse c.toCrypto keyB).toBytes <;>
    exact dtPop_shifts _

theorem sealChecksum_shifts (data : Bytes) : Shifts (sealChecksum c data) (some (BitcoinSpoon.sealChecksum c data)) 0 0 :=
  (hash256_shifts c.toCrypto _).bind (shifts_pure _)

/-! ## Derivation -/

def childKeyDerivationFrom (rounds : Nat) (hdWallet : Data) (index : Nat) : Scoped Data :=
  match rounds with
  | 0 => unscoped none
  | rounds + 1 => do
    push
    if hdWallet.length ≠ 82 then DTPop none
    else
      let result := hdWallet.toBytes
      let result := patch result 4 [result.getD 4 0 + 1]
      let key ← pubKeyFromHdWallet c hdWallet
      let hash ← hash160 c.toCrypto key
      match hash with
      -- `memcpy` from NULL
      | none => unscoped none
      | some fingerprint =>
        let result := patch result 5 (fingerprint.take 4)
        let childIndex := dataFlipEndianCopy (uint32D index)
        let result := patch result 9 childIndex
        let oldKey := (keyFromHdWallet hdWallet).toBytes
        let oldChainCode := (chainCodeFromHdWallet hdWallet).toBytes
        if uint8read (some oldKey) = 0 then
          let oldKeyTrim := some (dataCopyDataPart oldKey 1 32)
          let hash :=
            if 0x80000000 ≤ index then hmacSha512 c oldChainCode (oldKey ++ childIndex)
            else hmacSha512 c oldChainCode ((pubKey c.toCrypto oldKeyTrim).toBytes ++ childIndex)
          match addToPrivKey c (some (dataCopyDataPart hash 0 32)) oldKeyTrim with
          | none => do
            let next ← childKeyDerivationFrom rounds hdWallet ((index + 1) % 2 ^ 32)
            DTPop next
          | some newKey => do
            let result ← sealChecksum c (patch (patch (patch result 13 (dataCopyDataPart hash 32 32)) 45 [0]) 46 newKey)
            DTPop (some result)
        else if 0x80000000 ≤ index then DTPop none
        else
          let hash := hmacSha512 c oldChainCode (oldKey ++ childIndex)
          let newKey ← addPubKeys c (some oldKey) (pubKey c.toCrypto (some (dataCopyDataPart hash 0 32)))
          match publicKeyCompress c.toCrypto newKey with
          | none => do
            let next ← childKeyDerivationFrom rounds hdWallet ((index + 1) % 2 ^ 32)
            DTPop next
          | some newKey => do
            let result ← sealChecksum c (patch (patch result 13 (dataCopyDataPart hash 32 32)) 45 newKey)
            DTPop (some result)

def childKeyDerivation (hdWallet : Data) (index : Nat) : Scoped Data := childKeyDerivationFrom c (2 ^ 32) hdWallet index

/-- `DTPopDatas` -/
def ckdIndicesFromPath (path : Bytes) : Scoped (List Nat) := do
  push
  let path := path.map tolower
  if path = [] ∨ path = [0x6d] ∨ path = [0x2f] then DTPop []
  else
    let path := if path.head? = some 0x6d then path.tail else path
    let path := if path.head? = some 0x2f then path.tail else path
    DTPop ((stringComponents path 0x2f).map componentIndex)

def hdWallet (wallet : Data) (path : Bytes) : Scoped Data := do
  push
  let indices ← ckdIndicesFromPath path
  let wallet ← indices.foldlM (childKeyDerivation c) wallet
  DTPop wallet

/-- What is returned from behind another call. -/
theorem dtPop_bind_shifts {m : Scoped Data} {value : Option Data} {i : Nat} (h : Shifts m value 0 0) :
    Shifts (m >>= fun result => DTPop result) value (i + 1) i := by
  refine h.above.bind_some id fun a ha => ?_
  rw [ha]
  exact dtPop_shifts a

theorem childKeyDerivationFrom_shifts (rounds : Nat) (hdWallet : Data) (index : Nat) :
    Shifts (childKeyDerivationFrom c rounds hdWallet index) (BitcoinSpoon.childKeyDerivationFrom c rounds hdWallet index) 0 0 := by
  induction rounds generalizing index with
  | zero => exact shifts_none
  | succ rounds ih =>
    rw [childKeyDerivationFrom, BitcoinSpoon.childKeyDerivationFrom]
    refine shifts_push.bind ?_
    by_cases hlen : hdWallet.length ≠ 82
    · simpa only [if_pos hlen] using dtPop_shifts _
    simp only [if_neg hlen]
    refine (pubKeyFromHdWallet_shifts c hdWallet).above.bind ((hash160_shifts c.toCrypto _).above.bind ?_)
    cases BitcoinSpoon.hash160 c.toCrypto (BitcoinSpoon.pubKeyFromHdWallet c hdWallet) with
    | none => exact shifts_none
    | some fingerprint =>
      dsimp only
      by_cases hprivate : uint8read (some (keyFromHdWallet hdWallet).toBytes) = 0
      · simp only [if_pos hprivate]
        generalize addToPrivKey c _ _ = newKey
        cases newKey with
        | none => exact dtPop_bind_shifts (ih _)
        | some newKey => exact (sealChecksum_shifts c _).above.bind (dtPop_shifts _)
      simp only [if_neg hprivate]
      by_cases hhardened : 0x80000000 ≤ index
      · simpa only [if_pos hhardened] using dtPop_shifts _
      simp only [if_neg hhardened]
      refine (addPubKeys_shifts c _ _).above.bind ?_
      generalize publicKeyCompress c.toCrypto _ = newKey
      cases newKey with
      | none => exact dtPop_bind_shifts (ih _)
      | some newKey => exact (sealChecksum_shifts c _).above.bind (dtPop_shifts _)

theorem childKeyDerivation_shifts (hdWallet : Data) (index : Nat) :
    Shifts (childKeyDerivation c hdWallet index) (BitcoinSpoon.childKeyDerivation c hdWallet index) 0 0 :=
  childKeyDerivationFrom_shifts c (2 ^ 32) hdWallet index

theorem ckdIndicesFromPath_shifts (path : Bytes) :
    Shifts (ckdIndicesFromPath path) (some (BitcoinSpoon.ckdIndicesFromPath path)) 0 0 := by
  refine shifts_push.bind ?_
  rw [BitcoinSpoon.ckdIndicesFromPath]
  dsimp only
  by_cases hroot : path.map tolower = [] ∨ path.map tolower = [0x6d] ∨ path.map tolower = [0x2f]
  · simpa only [if_pos hroot] using dtPop_shifts _
  · simpa only [if_neg hroot] using dtPop_shifts _

/-- One derivation after the other. -/
theorem foldlM_shifts (indices : List Nat) (wallet : Data) :
    Shifts (indices.foldlM (childKeyDerivation c) wallet) (indices.foldlM (BitcoinSpoon.childKeyDerivation c) wallet) 0 0 := by
  induction indices generalizing wallet with
  | nil => exact shifts_pure wallet
  | cons index indices ih =>
    rw [List.foldlM_cons, List.foldlM_cons]
    refine (childKeyDerivation_shifts c wallet index).bind_some (fun hnone => ?_) fun next hnext => ?_
    · rw [hnone]
      rfl
    · rw [hnext]
      exact ih next

theorem hdWallet_shifts (wallet : Data) (path : Bytes) : Shifts (hdWallet c wallet path) (BitcoinSpoon.hdWallet c wallet path) 0 0 :=
  shifts_push.bind ((ckdIndicesFromPath_shifts path).above.bind (dtPop_bind_shifts (foldlM_shifts c _ wallet)))

/-! ## A public wallet -/

def publicHdWallet (privHdWallet : Data) : Scoped Data := do
  push
  if privHdWallet.length ≠ 82 then DTPop none
  else
    let result := privHdWallet.toBytes
    let version := uint32read (dataFlipEndianCopy (dataCopyDataPart result 0 4))
    match publicVersion version with
    | none => if version = HD_WALLET_PUB ∨ version = HD_WALLET_PUB_TESTNET then pure privHdWallet else DTPop none
    | some version =>
      let result := patch result 0 (dataFlipEndianCopy (uint32D version))
      let privKey := keyFromHdWallet privHdWallet
      if privKey.length ≠ 33 then DTPop none
      else if privKey.toBytes.headD 0 ≠ 0 then DTPop none
      else
        match pubKey c.toCrypto (some (dataCopyDataPart privKey.toBytes 1 32)) with
        -- `memcpy` from NULL
        | none => unscoped none
        | some pubKeyResult => do
          let result ← sealChecksum c (patch result 45 pubKeyResult)
          DTPop (some result)

def versionOf (hdWallet : Data) : Nat := uint32read (dataFlipEndianCopy (dataCopyDataPart hdWallet.toBytes 0 4))

def IsPublicWallet (hdWallet : Data) : Prop :=
  hdWallet.length = 82 ∧ (versionOf hdWallet = HD_WALLET_PUB ∨ versionOf hdWallet = HD_WALLET_PUB_TESTNET)

instance (hdWallet : Data) : Decidable (IsPublicWallet hdWallet) := inferInstanceAs (Decidable (_ ∧ _))

theorem publicVersion_private {version next : Nat} (h : publicVersion version = some next) :
    ¬(version = HD_WALLET_PUB ∨ version = HD_WALLET_PUB_TESTNET) := by
  rintro (rfl | rfl) <;> cases h

theorem publicHdWallet_public {hdWallet : Data} (h : IsPublicWallet hdWallet) :
    BitcoinSpoon.publicHdWallet c hdWallet = some hdWallet := by
  obtain ⟨hlen, hversion⟩ := h
  have hnone : publicVersion (versionOf hdWallet) = none := by
    cases hnext : publicVersion (versionOf hdWallet) with
    | none => rfl
    | some next => exact absurd hversion (publicVersion_private hnext)
  rw [versionOf] at hversion hnone
  simp only [BitcoinSpoon.publicHdWallet, hlen, ne_eq, not_true, if_false, hnone, if_pos hversion]

/-- A public wallet is returned with a scope that nobody pops. -/
theorem publicHdWallet_shifts (hdWallet : Data) :
    Shifts (publicHdWallet c hdWallet) (BitcoinSpoon.publicHdWallet c hdWallet) 0 (if IsPublicWallet hdWallet then 1 else 0) := by
  refine shifts_push.bind ?_
  rw [BitcoinSpoon.publicHdWallet]
  by_cases hlen : hdWallet.length ≠ 82
  · have hprivate : ¬IsPublicWallet hdWallet := fun h => hlen h.1
    simpa only [if_pos hlen, if_neg hprivate] using dtPop_shifts _
  simp only [if_neg hlen]
  cases hversion : publicVersion (uint32read (dataFlipEndianCopy (dataCopyDataPart hdWallet.toBytes 0 4))) with
  | none =>
    by_cases hpublic : versionOf hdWallet = HD_WALLET_PUB ∨ versionOf hdWallet = HD_WALLET_PUB_TESTNET
    · rw [if_pos (show IsPublicWallet hdWallet from ⟨not_not.1 hlen, hpublic⟩)]
      rw [versionOf] at hpublic
      simpa only [if_pos hpublic] using shifts_pure _
    · rw [if_neg (show ¬IsPublicWallet hdWallet from fun h => hpublic h.2)]
      rw [versionOf] at hpublic
      simpa only [if_neg hpublic] using dtPop_shifts _
  | some version =>
    rw [if_neg (show ¬IsPublicWallet hdWallet from fun h => publicVersion_private hversion h.2)]
    dsimp only
    by_cases hkey : (keyFromHdWallet hdWallet).length ≠ 33
    · simpa only [if_pos hkey] using dtPop_shifts _
    by_cases hzero : (keyFromHdWallet hdWallet).toBytes.headD 0 ≠ 0
    · simpa only [if_neg hkey, if_pos hzero] using dtPop_shifts _
    simp only [if_neg hkey, if_neg hzero]
    cases pubKey c.toCrypto (some (dataCopyDataPart (keyFromHdWallet hdWallet).toBytes 1 32)) with
    | none => exact shifts_none
    | some pubKeyResult => exact (sealChecksum_shifts c _).above.bind (dtPop_shifts _)

end BitcoinSpoon.Tracking
