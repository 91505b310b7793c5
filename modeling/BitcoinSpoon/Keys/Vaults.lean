/-
  BitcoinSpoon.Keys.Vaults — the vaults of the key manager and the three lists of them
  (`code/KeyManager.c`).

  A vault is a serialized dictionary in one list of the basic store: its name, its members
  and, if it is only observed, its master. `KMVaultNames` and `KMVaultHdWallets` have an entry
  for every vault. `KMVaultMasterHdWallets` goes over the vaults twice, first for the masters
  that are found through the keys of the device and then for those that are stored, and adds
  an entry only where there is one. So a place in the three lists is one vault as long as the
  vaults with a master of their own stand before the observed ones and none is without
  (`lists_consistent`); every call that keeps them so is in `Fitting`, and a run of such calls
  keeps the places (`vault_indices_consistent`).

  `none` is a crash or `abort()`.
-/

import BitcoinSpoon.Keys.Caches
import BitcoinSpoon.Loop.Rules
import BitcoinSpoon.Tracker.Scripts
import BitcoinSpoon.Tracker.Stored

namespace BitcoinSpoon.Keys

open Wire Loop KeysAndValues Storage

variable (c : HdCrypto) (search : BinarySearch)

/-! ## Devices -/

def kmKnownHDWallets (file : File) (testnet : Bool) : Option Elements :=
  dictDeserialize (bsLoad search file (knownHDWalletsKey testnet))

/-- It compares the whole record with the wallet. -/
def kmUuidFromHDWallet (file : File) (testnet : Bool) (hdWalletData : Data) : Option Data := do
  let dict ← kmKnownHDWallets search file testnet
  some ((dict.find? fun item => dataEqual item.2 hdWalletData).map Prod.fst)

/-! ## The stored vaults -/

def vaultObjectsKey (testnet : Bool) : String := if testnet then "vaultObjectsKeyTestNet" else "vaultObjectsKey"

def vaultObjectNameKey : String := "vaultObjectNameKey"

def vaultObjectWalletsKey : String := "vaultObjectWalletsKey"

def vaultObjectMasterKey : String := "vaultObjectMasterKey"

def vaultObjects (self : KeyManager) : Datas := datasDeserialize (bsLoad search self.store (vaultObjectsKey self.testnet))

def saveVaultObjects (self : KeyManager) (array : Datas) : Option KeyManager :=
  (bsSave search self.store (vaultObjectsKey self.testnet) (datasSerialize array)).map fun store => { self with store := store }

def vaultInfo (hdWallets : Datas) (name : Data) : Elements :=
  dictAdd search (dictAdd search [] (stringNew vaultObjectNameKey) name) (stringNew vaultObjectWalletsKey) (datasSerialize hdWallets)

def kmAddVaultObserver (self : KeyManager) (masterHdWallet : Data) (hdWallets : Datas) (name : Data) : Option KeyManager :=
  let info := dictAdd search (vaultInfo search hdWallets name) (stringNew vaultObjectMasterKey) masterHdWallet
  saveVaultObjects search self (vaultObjects search self ++ [dictionarySerialize info])

def kmAddVault (self : KeyManager) (hdWallets : Datas) (name : Data) : Option KeyManager :=
  saveVaultObjects search self (vaultObjects search self ++ [dictionarySerialize (vaultInfo search hdWallets name)])

def kmRemoveVault (self : KeyManager) (index : UInt32) : Option KeyManager :=
  let array := vaultObjects search self
  saveVaultObjects search self (if index.toNat < array.length then array.eraseIdx index.toNat else array)

/-! ## The lists -/

/-- `DictGetS(DictDeserialize(info), key)` -/
def infoGet (info : Data) (key : String) : Option Data := do
  let dict ← dictDeserialize info
  some (dictGet search dict (stringNew key))

def vaultMembers (info : Data) : Option Datas := (infoGet search info vaultObjectWalletsKey).map datasDeserialize

/-- `MIN`, with `UINT32_MAX` where there is no index. -/
def smaller : Option Nat → Option Nat → Option Nat
  | some a, some b => some (min a b)
  | none, b => b
  | a, none => a

/-- The loop over the members: the smallest index of a key of the device among theirs. -/
def smallestIndex (self : KeyManager) (allPrivKeyHashes hdWallets : Datas) : Option (Option Nat) :=
  hdWallets.foldlM (fun smallestIndex hdWalletData => do
    let uuid ← kmUuidFromHDWallet search self.store self.testnet hdWalletData
    let hash ← kmPrivKeyHashForDevice search self.store uuid
    some (smaller smallestIndex (datasMatchingDataIndex allPrivKeyHashes hash))) none

/-- The master of a vault that is found through its members; NULL if none is. -/
def foundMaster (allPrivKeyHashes : Datas) (self : KeyManager) (hdWallets : Datas) : Option (Data × KeyManager) := do
  let smallestIndex ← smallestIndex search self allPrivKeyHashes hdWallets
  match smallestIndex with
  | none => some (none, self)
  | some index => kmVaultMasterHdWalletAtIndex c search self index

/-- The first loop of `KMVaultMasterHdWallets`, before what is NULL is left out. -/
def foundMasters (allPrivKeyHashes : Datas) : KeyManager → Datas → Option (Datas × KeyManager)
  | self, [] => some ([], self)
  | self, info :: array => do
    let hdWallets ← vaultMembers search info
    let (data, self) ← foundMaster c search allPrivKeyHashes self hdWallets
    let (result, self) ← foundMasters allPrivKeyHashes self array
    some (data :: result, self)

/-- `if(data.length)` -/
def listed (datas : Datas) : Datas := datas.filter fun data => data.length ≠ 0

def kmVaultMasterHdWallets (self : KeyManager) : Option (Datas × KeyManager) := do
  let array := vaultObjects search self
  let (allPrivKeyHashes, self) := kmAllPrivKeyHashes c self
  let (found, self) ← foundMasters c search allPrivKeyHashes self array
  let stored ← (vaultObjects search self).mapM fun info => infoGet search info vaultObjectMasterKey
  some (listed found ++ listed stored, self)

def kmVaultHdWallets (self : KeyManager) : Option Datas :=
  (vaultObjects search self).mapM fun info => (vaultMembers search info).map datasSerialize

def kmVaultNames (self : KeyManager) : Option Datas :=
  (vaultObjects search self).mapM fun info => infoGet search info vaultObjectNameKey

def kmVaultScriptDerivation (self : KeyManager) (index : UInt32) (path : Bytes) : Option Bytes := do
  let (masterHdWallets, self) ← kmVaultMasterHdWallets c search self
  let masterHdWallet ← datasAt masterHdWallets index.toNat
  let hdWallets ← kmVaultHdWallets search self
  let hdWallets ← datasAt hdWallets index.toNat
  vaultScriptAt c masterHdWallet (datasDeserialize hdWallets) path

/-! ## Runs -/

inductive VaultCall where
  | addVault (hdWallets : Datas) (name : Data)
  | addVaultObserver (masterHdWallet : Data) (hdWallets : Datas) (name : Data)
  | removeVault (index : UInt32)
  | addPrivKey (privKey : Data)
  | importMasterPrivKey (key : Data)
  | generateMasterPrivKey (entropy uniqueData : Data)
  | setHDWalletForUUID (hdWalletData uuid : Data) (type : Int32)
  | setPrivKeyHashForDevice (hash uuid : Data)
  | vaultMasterHdWallets

/-- Nothing is stored yet. -/
def KeyManager.fresh (testnet : Bool) : KeyManager := ⟨testnet, fun _ => [], none, some [], [], []⟩

def withStore (self : KeyManager) (store : Option File) : Option KeyManager := store.map fun store => { self with store := store }

def vaultCall (self : KeyManager) : VaultCall → Option KeyManager
  | .addVault hdWallets name => kmAddVault search self hdWallets name
  | .addVaultObserver masterHdWallet hdWallets name => kmAddVaultObserver search self masterHdWallet hdWallets name
  | .removeVault index => kmRemoveVault search self index
  | .addPrivKey privKey => some (kmAddPrivKey c self privKey).2
  | .importMasterPrivKey key => some (kmImportMasterPrivKey c self key)
  | .generateMasterPrivKey entropy uniqueData => some (kmGenerateMasterPrivKey c self entropy uniqueData)
  | .setHDWalletForUUID hdWalletData uuid type =>
    withStore self (kmSetHDWalletForUUID search self.store self.testnet hdWalletData uuid type)
  | .setPrivKeyHashForDevice hash uuid => withStore self (kmSetPrivKeyHashForDevice search self.store hash uuid)
  | .vaultMasterHdWallets => (kmVaultMasterHdWallets c search self).map Prod.snd

/-! ## One place, one vault -/

/-- The master that is found for these members, through the keys as they are stored. -/
def ownMaster (self : KeyManager) (hdWallets : Datas) : Option Data :=
  (foundMaster c search (storedHashes c self) self hdWallets).map Prod.fst

/-- The master of a stored vault: its own, or else the one it was given. -/
def masterOf (self : KeyManager) (info : Data) : Option Data := do
  let hdWallets ← vaultMembers search info
  let own ← ownMaster c search self hdWallets
  let stored ← infoGet search info vaultObjectMasterKey
  some (if own.length ≠ 0 then own else stored)

/-- The three lists are as long as the list of vaults, and at each place all of them, and the
    script, are of the vault that is stored there. -/
def Consistent (self : KeyManager) : Prop :=
  ∃ masters wallets names : Datas,
    (kmVaultMasterHdWallets c search self).map Prod.fst = some masters ∧ kmVaultHdWallets search self = some wallets ∧
      kmVaultNames search self = some names ∧ masters.length = (vaultObjects search self).length ∧
      wallets.length = (vaultObjects search self).length ∧ names.length = (vaultObjects search self).length ∧
      ∀ i info, (vaultObjects search self)[i]? = some info → ∃ name members master,
        infoGet search info vaultObjectNameKey = some name ∧ names[i]? = some name ∧
        vaultMembers search info = some members ∧ wallets[i]? = some (datasSerialize members) ∧
        masterOf c search self info = some master ∧ masters[i]? = some master ∧
        ∀ index : UInt32, index.toNat = i → ∀ path,
          kmVaultScriptDerivation c search self index path = vaultScriptAt c master members path

/-- A master is found for every member list that had one, and for no other. -/
def KeepsFound (self next : KeyManager) : Prop :=
  ∀ info ∈ vaultObjects search self, ∀ members, vaultMembers search info = some members →
    ∃ before after, ownMaster c search self members = some before ∧ ownMaster c search next members = some after ∧
      (after.length = 0 ↔ before.length = 0)

/-- A vault is added as an observed one, and no master of its own is found; or without a master,
    where no vault before it is observed, and one is found. -/
def FittingVault (self : KeyManager) (masterHdWallet : Data) (hdWallets : Datas) : Prop :=
  if masterHdWallet.length ≠ 0 then ∃ own, ownMaster c search self hdWallets = some own ∧ own.length = 0
  else (∀ info ∈ vaultObjects search self, ∀ stored, infoGet search info vaultObjectMasterKey = some stored → stored.length = 0) ∧
    ∃ own, ownMaster c search self hdWallets = some own ∧ own.length ≠ 0

/-- New keys and registrations change nothing about which vaults have a master of their own. -/
def Fitting (self : KeyManager) : VaultCall → Prop
  | .addVault hdWallets _ => FittingVault c search self none hdWallets
  | .addVaultObserver masterHdWallet hdWallets _ => FittingVault c search self masterHdWallet hdWallets
  | .removeVault _ => True
  | .vaultMasterHdWallets => True
  | call => ∀ next, vaultCall c search self call = some next → KeepsFound c search self next

variable {c search} {self next : KeyManager}

/-! ## Masters that are found -/

/-- The index is the first of a key with its hash. -/
def Known (c : HdCrypto) (self : KeyManager) (index : Nat) : Prop :=
  ∃ hash, datasMatchingDataIndex (storedHashes c self) hash = some index

theorem storedHashes_get {index : Nat} {hash : Data} (h : (storedHashes c self)[index]? = some hash) :
    hash = sha256 c.toCrypto (kmPrivKeyAtIndex self index) := by
  rw [storedHashes, List.getElem?_map, Option.map_eq_some_iff] at h
  obtain ⟨key, hkey, rfl⟩ := h
  have hlt := (List.getElem?_eq_some_iff.1 hkey).1
  have hread := (List.prefix_iff_getElem?.1 (List.takeWhile_prefix _)) index hlt
  rw [← List.getElem?_eq_getElem hlt, hkey, List.getElem?_map, Option.map_eq_some_iff] at hread
  obtain ⟨file, hfile, rfl⟩ := hread
  show _ = sha256 c.toCrypto (readKey ((self.files self.testnet)[index]?.getD none))
  rw [hfile]
  rfl

theorem Known.first {index : Nat} (h : Known c self index) {before : Nat} (hlt : before < index) :
    (sha256 c.toCrypto (kmPrivKeyAtIndex self before)).toBytes ≠ (sha256 c.toCrypto (kmPrivKeyAtIndex self index)).toBytes := by
  obtain ⟨hash, hindex⟩ := h
  obtain ⟨hlast, heq, hne⟩ := List.findIdx?_eq_some_iff_getElem.1 hindex
  have hself := @storedHashes_get c self _ _ (List.getElem?_eq_getElem hlast)
  have hbefore := @storedHashes_get c self _ _ (List.getElem?_eq_getElem (Nat.lt_trans hlt hlast))
  have hother := hne before hlt
  rw [dataEqual_iff] at heq hother
  rw [← hself, ← hbefore, heq]
  exact hother

theorem Known.unique {i j : Nat} (hi : Known c self i) (hj : Known c self j)
    (h : (sha256 c.toCrypto (kmPrivKeyAtIndex self i)).toBytes = (sha256 c.toCrypto (kmPrivKeyAtIndex self j)).toBytes) : i = j := by
  rcases Nat.lt_trichotomy i j with hlt | heq | hgt
  · exact absurd h (hj.first hlt)
  · exact heq
  · exact absurd h.symm (hi.first hgt)

theorem smaller_of {P : Nat → Prop} {a b : Option Nat} (ha : ∀ n, a = some n → P n) (hb : ∀ n, b = some n → P n) {n : Nat}
    (h : smaller a b = some n) : P n := by
  rcases a with _ | a
  · exact hb n h
  rcases b with _ | b
  · exact ha n h
  rcases min_choice a b with hmin | hmin
  · exact ha n (by rw [← h, smaller, hmin])
  · exact hb n (by rw [← h, smaller, hmin])

theorem smallestIndex_known {hdWallets : Datas} {index : Nat}
    (h : smallestIndex search self (storedHashes c self) hdWallets = some (some index)) : Known c self index := by
  have hall : ∀ (hdWallets : Datas) (smallest : Option Nat), (∀ n, smallest = some n → Known c self n) → ∀ result,
      hdWallets.foldlM (fun smallestIndex hdWalletData => do
        let uuid ← kmUuidFromHDWallet search self.store self.testnet hdWalletData
        let hash ← kmPrivKeyHashForDevice search self.store uuid
        some (smaller smallestIndex (datasMatchingDataIndex (storedHashes c self) hash))) smallest = some result →
      ∀ n, result = some n → Known c self n := by
    intro hdWallets
    induction hdWallets with
    | nil =>
      intro smallest hsmallest result hresult
      cases hresult
      exact hsmallest
    | cons hdWalletData hdWallets ih =>
      intro smallest hsmallest result hresult
      rw [List.foldlM_cons] at hresult
      obtain ⟨found, hfound, hresult⟩ := Option.bind_eq_some_iff.1 hresult
      obtain ⟨uuid, -, hfound⟩ := Option.bind_eq_some_iff.1 hfound
      obtain ⟨hash, -, hfound⟩ := Option.bind_eq_some_iff.1 hfound
      cases hfound
      refine ih _ (fun n hn => ?_) result hresult
      exact smaller_of hsmallest (fun n hn => ⟨hash, hn⟩) hn
  exact hall hdWallets none (fun n hn => by cases hn) _ h index rfl

theorem dictGet_dictAdd {dict : Elements} (h : Ascending defaultOrder dict) (key value other : Data) :
    dictGet search (dictAdd search dict key value) other = if other.toBytes = key.toBytes then value else dictGet search dict other := by
  rw [dictGet, KeysAndValues.dictionaryGetValue, dictAdd, getValue_addCopy h]
  split <;> rfl

/-- A later state of the same call: only the wallets of the vaults have been cached, and those
    as they are derived. -/
structure SameMasters (c : HdCrypto) (search : BinarySearch) (first later : KeyManager) : Prop where
  rest : later = { first with vaultMasterHdWalletCache := later.vaultMasterHdWalletCache }
  ascending : Ascending defaultOrder later.vaultMasterHdWalletCache
  masters : ∀ index : Nat, Known c first index →
    (kmVaultMasterHdWalletAtIndex c search later index).map Prod.fst = (kmVaultMasterHdWalletAtIndex c search first index).map Prod.fst

theorem SameMasters.refl (h : Ascending defaultOrder self.vaultMasterHdWalletCache) : SameMasters c search self self :=
  ⟨rfl, h, fun _ _ => rfl⟩

/-- One more wallet is asked for, and cached if it was not. -/
theorem SameMasters.atIndex {last : KeyManager} (h : SameMasters c search self next) {index : Nat} (hindex : Known c self index) {data : Data}
    (hget : kmVaultMasterHdWalletAtIndex c search next index = some (data, last)) : SameMasters c search self last := by
  obtain ⟨hrest, hascending, hmasters⟩ := h
  have hkeys : ∀ i : Int, kmPrivKeyAtIndex next i = kmPrivKeyAtIndex self i := by
    rw [hrest]
    exact fun _ => rfl
  rw [kmVaultMasterHdWalletAtIndex] at hget
  split at hget
  · rename_i hempty
    obtain ⟨seed, hseed, hget⟩ := Option.bind_eq_some_iff.1 hget
    obtain ⟨wallet, hwallet, hget⟩ := Option.bind_eq_some_iff.1 hget
    cases hget
    refine ⟨by rw [hrest], ascending_dictAdd hascending, fun other hother => ?_⟩
    rw [← hmasters other hother]
    have hlast : ∀ i : Int, kmPrivKeyAtIndex { next with
        vaultMasterHdWalletCache := dictAdd search next.vaultMasterHdWalletCache
          (sha256 c.toCrypto (kmPrivKeyAtIndex next index)) data } i = kmPrivKeyAtIndex next i := fun _ => rfl
    rw [kmVaultMasterHdWalletAtIndex, kmVaultMasterHdWalletAtIndex, hlast, dictGet_dictAdd hascending]
    by_cases hkey : (sha256 c.toCrypto (kmPrivKeyAtIndex next other)).toBytes = (sha256 c.toCrypto (kmPrivKeyAtIndex next index)).toBytes
    · have hsame : other = index := by
        rw [hkeys, hkeys] at hkey
        exact hother.unique hindex hkey
      rw [if_pos hkey, hsame, if_pos hempty]
      simp only [hseed, Option.bind_eq_bind, Option.bind_some]
      rw [show hdWallet c (rootOf c next.testnet seed) vaultMasterPath = some data from hwallet]
      split <;> rfl
    · rw [if_neg hkey]
      split
      · cases seedOf c (kmPrivKeyAtIndex next other) with
        | none => rfl
        | some seed =>
          simp only [Option.bind_eq_bind, Option.bind_some]
          cases hdWallet c (rootOf c next.testnet seed) vaultMasterPath <;> rfl
      · rfl
  · cases hget
    exact ⟨hrest, hascending, hmasters⟩

theorem SameMasters.smallestIndex_eq (h : SameMasters c search self next) (allPrivKeyHashes hdWallets : Datas) :
    smallestIndex search next allPrivKeyHashes hdWallets = smallestIndex search self allPrivKeyHashes hdWallets := by
  rw [h.rest]
  rfl

/-- The master that is found later in the call is the one found at its start. -/
theorem SameMasters.foundMaster_eq (h : SameMasters c search self next) (hdWallets : Datas) :
    (foundMaster c search (storedHashes c self) next hdWallets).map Prod.fst = ownMaster c search self hdWallets := by
  rw [ownMaster, foundMaster, foundMaster, h.smallestIndex_eq]
  cases hsmallest : smallestIndex search self (storedHashes c self) hdWallets with
  | none => rfl
  | some found =>
    cases found with
    | none => rfl
    | some index => exact h.masters index (smallestIndex_known hsmallest)

theorem SameMasters.ownMaster_eq (h : SameMasters c search self next) (hdWallets : Datas) :
    ownMaster c search next hdWallets = ownMaster c search self hdWallets := by
  have hhashes : storedHashes c next = storedHashes c self := by
    rw [h.rest]
    rfl
  rw [← h.foundMaster_eq, ownMaster, hhashes]

theorem SameMasters.foundMaster {last : KeyManager} (h : SameMasters c search self next) {hdWallets : Datas} {data : Data}
    (hfound : foundMaster c search (storedHashes c self) next hdWallets = some (data, last)) : SameMasters c search self last := by
  obtain ⟨found, hsmallest, hfound⟩ := Option.bind_eq_some_iff.1 hfound
  rw [h.smallestIndex_eq] at hsmallest
  cases found with
  | none =>
    cases hfound
    exact h
  | some index => exact h.atIndex (smallestIndex_known hsmallest) hfound

/-- The masters of a row of vaults are those found at the start. -/
theorem SameMasters.foundMasters (h : SameMasters c search self next) (array : Datas) :
    (foundMasters c search (storedHashes c self) next array).map Prod.fst =
        array.mapM (fun info => (vaultMembers search info).bind (ownMaster c search self)) ∧
      ∀ found last, Keys.foundMasters c search (storedHashes c self) next array = some (found, last) → SameMasters c search self last := by
  induction array generalizing next with
  | nil =>
    refine ⟨rfl, fun found last hfound => ?_⟩
    cases hfound
    exact h
  | cons info array ih =>
    rw [Keys.foundMasters, List.mapM_cons]
    cases hmembers : vaultMembers search info with
    | none => exact ⟨rfl, fun found last hfound => by cases hfound⟩
    | some members =>
      have hfirst := h.foundMaster_eq members
      cases hfound : Keys.foundMaster c search (storedHashes c self) next members with
      | none =>
        rw [hfound] at hfirst
        refine ⟨?_, fun found last hlast => ?_⟩
        · simp only [Option.bind_eq_bind, Option.bind_some, ← hfirst]
          simp only [hfound]
          rfl
        · simp only [Option.bind_eq_bind, Option.bind_some, hfound] at hlast
          cases hlast
      | some result =>
        obtain ⟨data, after⟩ := result
        rw [hfound] at hfirst
        obtain ⟨hrest, hlast⟩ := ih (h.foundMaster hfound)
        simp only [Option.bind_eq_bind, Option.bind_some, ← hfirst, ← hrest, Option.map_some, hfound]
        constructor
        · cases Keys.foundMasters c search (storedHashes c self) after array <;> rfl
        · intro found last hfound
          obtain ⟨⟨rest, _⟩, hstep, hfound⟩ := Option.bind_eq_some_iff.1 hfound
          cases hfound
          exact hlast rest _ hstep

/-- A master is found by the keys, the cached wallets and what is stored of the devices. -/
theorem ownMaster_congr (htestnet : next.testnet = self.testnet) (hfiles : next.files = self.files)
    (hcache : next.vaultMasterHdWalletCache = self.vaultMasterHdWalletCache)
    (hknown : bsLoad search next.store (knownHDWalletsKey self.testnet) = bsLoad search self.store (knownHDWalletsKey self.testnet))
    (hdevices : bsLoad search next.store privKeyHashForDeviceKey = bsLoad search self.store privKeyHashForDeviceKey)
    (hdWallets : Datas) : ownMaster c search next hdWallets = ownMaster c search self hdWallets := by
  obtain ⟨testnet, files, store, seed, hashes, cache⟩ := self
  obtain ⟨testnet', files', store', seed', hashes', cache'⟩ := next
  dsimp only at htestnet hfiles hcache hknown hdevices
  subst htestnet hfiles hcache
  have hsmallest : ∀ allPrivKeyHashes, smallestIndex search ⟨testnet', files', store', seed', hashes', cache'⟩ allPrivKeyHashes hdWallets =
      smallestIndex search ⟨testnet', files', store, seed, hashes, cache'⟩ allPrivKeyHashes hdWallets := by
    intro allPrivKeyHashes
    simp only [smallestIndex, kmUuidFromHDWallet, kmKnownHDWallets, kmPrivKeyHashForDevice, hknown, hdevices]
  rw [ownMaster, ownMaster, foundMaster, foundMaster, hsmallest]
  show Option.map Prod.fst ((smallestIndex search _ (storedHashes c ⟨testnet', files', store, seed, hashes, cache'⟩) hdWallets).bind _) =
    Option.map Prod.fst ((smallestIndex search _ (storedHashes c ⟨testnet', files', store, seed, hashes, cache'⟩) hdWallets).bind _)
  cases smallestIndex search ⟨testnet', files', store, seed, hashes, cache'⟩
      (storedHashes c ⟨testnet', files', store, seed, hashes, cache'⟩) hdWallets with
  | none => rfl
  | some found =>
    cases found with
    | none => rfl
    | some index =>
      have hkey : kmPrivKeyAtIndex ⟨testnet', files', store', seed', hashes', cache'⟩ index =
          kmPrivKeyAtIndex ⟨testnet', files', store, seed, hashes, cache'⟩ index := rfl
      simp only [Option.bind_some, kmVaultMasterHdWalletAtIndex, hkey]
      split
      · cases seedOf c (kmPrivKeyAtIndex ⟨testnet', files', store, seed, hashes, cache'⟩ index) with
        | none => rfl
        | some seed =>
          simp only [Option.bind_eq_bind, Option.bind_some]
          cases hdWallet c (rootOf c testnet' seed) vaultMasterPath <;> rfl
      · rfl

/-- What every call leaves. -/
structure Ready (c : HdCrypto) (km : KeyManager) : Prop where
  wellFormed : WellFormed km.store
  hashes : km.privKeyHashCache = [] ∨ km.privKeyHashCache = storedHashes c km
  ascending : Ascending defaultOrder km.vaultMasterHdWalletCache

theorem ready_fresh (testnet : Bool) : Ready c (KeyManager.fresh testnet) := ⟨wellFormed_none, Or.inl rfl, ascending_nil⟩

theorem hashesOf_ready (h : Ready c self) : ∃ cache, kmAllPrivKeyHashes c self =
    (storedHashes c self, { self with privKeyHashCache := cache }) ∧ (cache = [] ∨ cache = storedHashes c self) := by
  rw [kmAllPrivKeyHashes]
  split
  · exact ⟨_, by rw [hashesFrom_eq]; rfl, Or.inr rfl⟩
  · rename_i hfull
    rcases h.hashes with hempty | hright
    · rw [hempty] at hfull
      exact absurd rfl hfull
    · exact ⟨self.privKeyHashCache, congrArg (·, self) hright, h.hashes⟩

/-- The list of masters: those that are found, and then those that are stored. -/
theorem vaultMasterHdWallets_spec (h : Ready c self) :
    (kmVaultMasterHdWallets c search self).map Prod.fst =
        (((vaultObjects search self).mapM fun info => (vaultMembers search info).bind (ownMaster c search self)).bind fun found =>
          ((vaultObjects search self).mapM fun info => infoGet search info vaultObjectMasterKey).map fun stored =>
            listed found ++ listed stored) ∧
      ∀ masters last, kmVaultMasterHdWallets c search self = some (masters, last) →
        Ready c last ∧ vaultObjects search last = vaultObjects search self ∧
          ∀ hdWallets, ownMaster c search last hdWallets = ownMaster c search self hdWallets := by
  obtain ⟨cache, hhashes, hcache⟩ := hashesOf_ready h
  have hsame : SameMasters c search { self with privKeyHashCache := cache } { self with privKeyHashCache := cache } :=
    SameMasters.refl h.ascending
  obtain ⟨hfound, hlast⟩ := hsame.foundMasters (vaultObjects search self)
  have hown : ∀ hdWallets, ownMaster c search { self with privKeyHashCache := cache } hdWallets = ownMaster c search self hdWallets :=
    ownMaster_congr rfl rfl rfl rfl rfl
  have hstored : storedHashes c { self with privKeyHashCache := cache } = storedHashes c self := rfl
  have hafter : ∀ found last, foundMasters c search (storedHashes c self) { self with privKeyHashCache := cache } (vaultObjects search self) =
      some (found, last) → vaultObjects search last = vaultObjects search self := by
    intro found last hstep
    rw [(hlast found last hstep).rest]
    rfl
  simp only [hown, hstored] at hfound
  rw [kmVaultMasterHdWallets, hhashes, ← hfound]
  dsimp only
  cases hstep : foundMasters c search (storedHashes c self) { self with privKeyHashCache := cache } (vaultObjects search self) with
  | none => exact ⟨rfl, fun masters last hmasters => by cases hmasters⟩
  | some result =>
    obtain ⟨found, last⟩ := result
    simp only [Option.bind_eq_bind, Option.bind_some, Option.map_some, hafter found last hstep]
    constructor
    · cases (vaultObjects search self).mapM fun info => infoGet search info vaultObjectMasterKey <;> rfl
    · intro masters after hmasters
      obtain ⟨stored, -, hmasters⟩ := Option.bind_eq_some_iff.1 hmasters
      cases hmasters
      have hmasters := hlast found last hstep
      have hafter := hafter found last hstep
      refine ⟨⟨?_, ?_, hmasters.ascending⟩, hafter, fun hdWallets => ?_⟩
      · rw [hmasters.rest]
        exact h.wellFormed
      · rw [hmasters.rest]
        exact hcache
      · rw [← hown, hmasters.ownMaster_eq]

/-! ## The vaults in their places -/

/-- The vaults with a master of their own stand before the observed ones. -/
structure Arranged (c : HdCrypto) (search : BinarySearch) (km : KeyManager) (ordinary observed : Datas) : Prop where
  vaults : vaultObjects search km = ordinary ++ observed
  names : ∀ info ∈ ordinary ++ observed, ∃ name, infoGet search info vaultObjectNameKey = some name
  own : ∀ info ∈ ordinary, ∃ members master stored, vaultMembers search info = some members ∧
    ownMaster c search km members = some master ∧ master.length ≠ 0 ∧
    infoGet search info vaultObjectMasterKey = some stored ∧ stored.length = 0
  given : ∀ info ∈ observed, ∃ members master stored, vaultMembers search info = some members ∧
    ownMaster c search km members = some master ∧ master.length = 0 ∧
    infoGet search info vaultObjectMasterKey = some stored ∧ stored.length ≠ 0

variable {ordinary observed : Datas}

theorem listed_map_of_nonempty {f : Data → Data} {array : Datas} (h : ∀ info ∈ array, (f info).length ≠ 0) :
    listed (array.map f) = array.map f := by
  refine List.filter_eq_self.2 fun data hdata => ?_
  obtain ⟨info, hinfo, rfl⟩ := List.mem_map.1 hdata
  exact decide_eq_true (h info hinfo)

theorem listed_map_of_empty {f : Data → Data} {array : Datas} (h : ∀ info ∈ array, (f info).length = 0) : listed (array.map f) = [] := by
  refine List.filter_eq_nil_iff.2 fun data hdata => ?_
  obtain ⟨info, hinfo, rfl⟩ := List.mem_map.1 hdata
  simp [h info hinfo]

/-- What the two loops find, and that it is the masters in the places of their vaults. -/
theorem lists_arranged (h : Arranged c search self ordinary observed) :
    ∃ found stored, (ordinary ++ observed).mapM (fun info => (vaultMembers search info).bind (ownMaster c search self)) = some found ∧
      (ordinary ++ observed).mapM (fun info => infoGet search info vaultObjectMasterKey) = some stored ∧
      (ordinary ++ observed).mapM (masterOf c search self) = some (listed found ++ listed stored) := by
  let own info := ((vaultMembers search info).bind (ownMaster c search self)).getD none
  let stored info := (infoGet search info vaultObjectMasterKey).getD none
  have hordinary : ∀ info ∈ ordinary, (vaultMembers search info).bind (ownMaster c search self) = some (own info) ∧
      infoGet search info vaultObjectMasterKey = some (stored info) ∧ masterOf c search self info = some (own info) ∧
      (own info).length ≠ 0 ∧ (stored info).length = 0 := by
    intro info hinfo
    obtain ⟨members, master, given, hmembers, hmaster, hne, hgiven, hempty⟩ := h.own info hinfo
    have hown : own info = master := by simp only [own, hmembers, Option.bind_some, hmaster, Option.getD_some]
    have hstored : stored info = given := by simp only [stored, hgiven, Option.getD_some]
    rw [hown, hstored]
    refine ⟨?_, hgiven, ?_, hne, hempty⟩
    · rw [hmembers, Option.bind_some, hmaster]
    · simp only [masterOf, hmembers, hmaster, hgiven, Option.bind_eq_bind, Option.bind_some, if_pos hne]
  have hobserved : ∀ info ∈ observed, (vaultMembers search info).bind (ownMaster c search self) = some (own info) ∧
      infoGet search info vaultObjectMasterKey = some (stored info) ∧ masterOf c search self info = some (stored info) ∧
      (own info).length = 0 ∧ (stored info).length ≠ 0 := by
    intro info hinfo
    obtain ⟨members, master, given, hmembers, hmaster, hempty, hgiven, hne⟩ := h.given info hinfo
    have hown : own info = master := by simp only [own, hmembers, Option.bind_some, hmaster, Option.getD_some]
    have hstored : stored info = given := by simp only [stored, hgiven, Option.getD_some]
    rw [hown, hstored]
    refine ⟨?_, hgiven, ?_, hempty, hne⟩
    · rw [hmembers, Option.bind_some, hmaster]
    · simp only [masterOf, hmembers, hmaster, hgiven, Option.bind_eq_bind, Option.bind_some, if_neg (not_not.2 hempty)]
  refine ⟨(ordinary ++ observed).map own, (ordinary ++ observed).map stored, mapM_of_forall fun info hinfo => ?_,
    mapM_of_forall fun info hinfo => ?_, ?_⟩
  · rcases List.mem_append.1 hinfo with hleft | hright
    · exact (hordinary info hleft).1
    · exact (hobserved info hright).1
  · rcases List.mem_append.1 hinfo with hleft | hright
    · exact (hordinary info hleft).2.1
    · exact (hobserved info hright).2.1
  · have hleft := mapM_of_forall fun info hinfo => (hordinary info hinfo).2.2.1
    have hright := mapM_of_forall fun info hinfo => (hobserved info hinfo).2.2.1
    have hfound : listed ((ordinary ++ observed).map own) = ordinary.map own := by
      rw [List.map_append, listed, List.filter_append]
      exact (congrArg₂ (· ++ ·) (listed_map_of_nonempty fun info hinfo => (hordinary info hinfo).2.2.2.1)
        (listed_map_of_empty fun info hinfo => (hobserved info hinfo).2.2.2.1)).trans (List.append_nil _)
    have hstored : listed ((ordinary ++ observed).map stored) = observed.map stored := by
      rw [List.map_append, listed, List.filter_append]
      exact (congrArg₂ (· ++ ·) (listed_map_of_empty fun info hinfo => (hordinary info hinfo).2.2.2.2)
        (listed_map_of_nonempty fun info hinfo => (hobserved info hinfo).2.2.2.2)).trans (List.nil_append _)
    rw [hfound, hstored, List.mapM_append, hleft, hright]
    rfl

theorem datasAt_some {datas : Datas} {i : Nat} {data : Data} (h : datas[i]? = some data) : datasAt datas i = some data := by
  have hlength : datas.length ≠ 0 := Nat.ne_of_gt (Nat.lt_of_le_of_lt (Nat.zero_le i) (List.getElem?_eq_some_iff.1 h).1)
  rw [datasAt, if_neg hlength, h]

theorem lists_consistent (hready : Ready c self) (h : Arranged c search self ordinary observed) : Consistent c search self := by
  obtain ⟨found, stored, hfound, hstored, hmasters⟩ := lists_arranged h
  have hspec := (@vaultMasterHdWallets_spec c search self hready).1
  rw [h.vaults, hfound, hstored, Option.bind_some, Option.map_some] at hspec
  have hmembers : ∀ info ∈ ordinary ++ observed, ∃ members, vaultMembers search info = some members := by
    intro info hinfo
    rcases List.mem_append.1 hinfo with hleft | hright
    · obtain ⟨members, -, -, hmembers, -⟩ := h.own info hleft
      exact ⟨members, hmembers⟩
    · obtain ⟨members, -, -, hmembers, -⟩ := h.given info hright
      exact ⟨members, hmembers⟩
  have hwallets : kmVaultHdWallets search self =
      some ((ordinary ++ observed).map fun info => datasSerialize ((vaultMembers search info).getD [])) := by
    rw [kmVaultHdWallets, h.vaults]
    refine mapM_of_forall fun info hinfo => ?_
    obtain ⟨members, hmembers⟩ := hmembers info hinfo
    rw [hmembers]
    rfl
  have hnames : kmVaultNames search self =
      some ((ordinary ++ observed).map fun info => (infoGet search info vaultObjectNameKey).getD none) := by
    rw [kmVaultNames, h.vaults]
    refine mapM_of_forall fun info hinfo => ?_
    obtain ⟨name, hname⟩ := h.names info hinfo
    rw [hname]
    rfl
  refine ⟨_, _, _, hspec, hwallets, hnames, ?_, ?_, ?_, fun i info hinfo => ?_⟩
  · rw [h.vaults]
    exact (mapM_eq_some_iff.1 hmasters).length
  · rw [h.vaults, List.length_map]
  · rw [h.vaults, List.length_map]
  · rw [h.vaults] at hinfo
    have hmem := List.mem_of_getElem? hinfo
    obtain ⟨name, hname⟩ := h.names info hmem
    obtain ⟨members, hmembers⟩ := hmembers info hmem
    obtain ⟨master, hplace, hmaster⟩ := (mapM_eq_some_iff.1 hmasters).get hinfo
    have hwallet : ((ordinary ++ observed).map fun info => datasSerialize ((vaultMembers search info).getD []))[i]? =
        some (datasSerialize members) := by
      rw [List.getElem?_map, hinfo, Option.map_some, hmembers, Option.getD_some]
    refine ⟨name, members, master, hname, ?_, hmembers, hwallet, hmaster, hplace, fun index hindex path => ?_⟩
    · rw [List.getElem?_map, hinfo, Option.map_some, hname, Option.getD_some]
    · obtain ⟨⟨masters, last⟩, hlast, heq⟩ := Option.map_eq_some_iff.1 hspec
      dsimp only at heq
      subst heq
      obtain ⟨-, hvaults, -⟩ := (@vaultMasterHdWallets_spec c search self hready).2 _ last hlast
      have hwalletsLast : kmVaultHdWallets search last = kmVaultHdWallets search self := by
        rw [kmVaultHdWallets, kmVaultHdWallets, hvaults]
      obtain ⟨info', -, hdeserialize⟩ := Option.map_eq_some_iff.1 hmembers
      have hread : datasDeserialize (datasSerialize members) = members := by
        rw [← hdeserialize, datasDeserialize_serialize (fits_datasDeserialize _), map_filled_datasDeserialize]
      subst hindex
      simp only [kmVaultScriptDerivation, hlast, Option.bind_eq_bind, Option.bind_some, datasAt_some hplace, hwalletsLast, hwallets,
        datasAt_some hwallet, hread]

/-! ## The store -/

theorem vaultObjectsKey_ne (testnet : Bool) (slot : Slot) :
    nulEnded (stringNew (vaultObjectsKey testnet)) ≠ nulEnded (stringNew slot.key) := by
  have hall : ∀ testnet, ∀ slot ∈ allSlots, nulEnded (stringNew (vaultObjectsKey testnet)) ≠ nulEnded (stringNew slot.key) := by decide
  exact hall testnet slot (mem_allSlots slot)

/-- Saving the vaults changes the vaults. -/
theorem saveVaultObjects_spec (h : Ready c self) {array : Datas} (hsave : saveVaultObjects search self array = some next) :
    Ready c next ∧ vaultObjects search next = array.map filled ∧
      (∀ hdWallets, ownMaster c search next hdWallets = ownMaster c search self hdWallets) ∧
      (datasSerialize array).length ≤ bsMaxDataSize := by
  obtain ⟨store, hstore, rfl⟩ := Option.map_eq_some_iff.1 hsave
  obtain ⟨hwell, hload⟩ := load_save h.wellFormed hstore
  obtain ⟨elements, helements⟩ := h.wellFormed
  obtain ⟨-, hsize⟩ := save_fits helements hstore
  have hother : ∀ slot : Slot, bsLoad search store slot.key = bsLoad search self.store slot.key := fun slot =>
    (hload _).trans (if_neg fun heq => vaultObjectsKey_ne self.testnet slot heq.symm)
  have hfits : Fits array := by
    intro data hdata
    have hle := length_le_serialize hdata
    have hmax : bsMaxDataSize < 2 ^ 32 := by decide
    omega
  refine ⟨⟨hwell, h.hashes, h.ascending⟩, ?_, ?_, hsize⟩
  · show datasDeserialize (basicStorageLoad search store (stringNew (vaultObjectsKey self.testnet))) = _
    rw [hload, if_pos rfl]
    exact datasDeserialize_serialize hfits
  · exact ownMaster_congr rfl rfl rfl (hother (.hdWallets self.testnet)) (hother .deviceHashes)

theorem infoGet_serialize {dict : Elements} (h : Ascending defaultOrder dict)
    (hsize : (dictionarySerialize dict).length ≤ bsMaxDataSize) (key : String) :
    infoGet search (dictionarySerialize dict) key =
      some (((dictionaryGetValueFlexible search defaultOrder dict (stringNew key).toBytes).map filled).getD none) := by
  rw [infoGet, dictDeserialize_serialize (Nat.lt_of_le_of_lt hsize (by decide)), Option.bind_eq_bind, Option.bind_some, dictGet,
    KeysAndValues.dictionaryGetValue, lookup_filledValues h]

theorem ascending_vaultInfo (hdWallets : Datas) (name : Data) : Ascending defaultOrder (vaultInfo search hdWallets name) :=
  ascending_dictAdd (ascending_dictAdd ascending_nil)

theorem lookup_vaultInfo (hdWallets : Datas) (name : Data) (key : Bytes) :
    dictionaryGetValueFlexible search defaultOrder (vaultInfo search hdWallets name) key =
      if key = (stringNew vaultObjectWalletsKey).toBytes then some (datasSerialize hdWallets)
      else if key = (stringNew vaultObjectNameKey).toBytes then some name else none := by
  rw [vaultInfo, dictAdd, getValue_addCopy (ascending_dictAdd ascending_nil), dictAdd, getValue_addCopy ascending_nil]
  rfl

/-- A vault as it is read again. -/
structure StoredVault (search : BinarySearch) (info : Data) (masterHdWallet : Data) (hdWallets : Datas) (name : Data) : Prop where
  name : infoGet search info vaultObjectNameKey = some (filled name)
  members : vaultMembers search info = some (hdWallets.map filled)
  master : ∃ stored, infoGet search info vaultObjectMasterKey = some stored ∧ stored.length = masterHdWallet.length

theorem vaultMembers_of_get {info : Data} {hdWallets : Datas}
    (hget : infoGet search info vaultObjectWalletsKey = some (datasSerialize hdWallets))
    (hsize : (datasSerialize hdWallets).length ≤ bsMaxDataSize) : vaultMembers search info = some (hdWallets.map filled) := by
  have hfits : Fits hdWallets := by
    intro data hdata
    have hle := length_le_serialize hdata
    have hmax : bsMaxDataSize < 2 ^ 32 := by decide
    omega
  rw [vaultMembers, hget, Option.map_some, datasDeserialize_serialize hfits]

theorem length_value {dict : Elements} (h : Ascending defaultOrder dict) {key : Bytes} {value : Data}
    (hget : dictionaryGetValueFlexible search defaultOrder dict key = some value) : value.length ≤ (dictionarySerialize dict).length :=
  length_le_serialize (mem_datas_of_dict ((getValue_iff_mem h key value).1 hget))

theorem storedVault_ordinary {hdWallets : Datas} {name : Data}
    (hsize : (dictionarySerialize (vaultInfo search hdWallets name)).length ≤ bsMaxDataSize) :
    StoredVault search (dictionarySerialize (vaultInfo search hdWallets name)) none hdWallets name := by
  have hascending := @ascending_vaultInfo search hdWallets name
  have hwallets := @lookup_vaultInfo search hdWallets name (stringNew vaultObjectWalletsKey).toBytes
  rw [if_pos rfl] at hwallets
  refine ⟨?_, vaultMembers_of_get ?_ (Nat.le_trans (length_value hascending hwallets) hsize), none, ?_, rfl⟩
  · rw [infoGet_serialize hascending hsize, lookup_vaultInfo, if_neg (by decide), if_pos rfl]
    rfl
  · rw [infoGet_serialize hascending hsize, hwallets]
    rfl
  · rw [infoGet_serialize hascending hsize, lookup_vaultInfo, if_neg (by decide), if_neg (by decide)]
    rfl

theorem storedVault_observer {masterHdWallet : Data} {hdWallets : Datas} {name : Data} {info : Elements}
    (hinfo : info = dictAdd search (vaultInfo search hdWallets name) (stringNew vaultObjectMasterKey) masterHdWallet)
    (hsize : (dictionarySerialize info).length ≤ bsMaxDataSize) :
    StoredVault search (dictionarySerialize info) masterHdWallet hdWallets name := by
  have hascending : Ascending defaultOrder info := by
    rw [hinfo]
    exact ascending_dictAdd (ascending_vaultInfo hdWallets name)
  have hlookup : ∀ key, dictionaryGetValueFlexible search defaultOrder info key =
      if key = (stringNew vaultObjectMasterKey).toBytes then some masterHdWallet
      else dictionaryGetValueFlexible search defaultOrder (vaultInfo search hdWallets name) key := fun key => by
    rw [hinfo, dictAdd, getValue_addCopy (ascending_vaultInfo hdWallets name)]
  have hwallets := hlookup (stringNew vaultObjectWalletsKey).toBytes
  rw [if_neg (by decide), lookup_vaultInfo, if_pos rfl] at hwallets
  refine ⟨?_, vaultMembers_of_get ?_ (Nat.le_trans (length_value hascending hwallets) hsize), filled masterHdWallet, ?_, rfl⟩
  · rw [infoGet_serialize hascending hsize, hlookup, if_neg (by decide), lookup_vaultInfo, if_neg (by decide), if_pos rfl]
    rfl
  · rw [infoGet_serialize hascending hsize, hwallets]
    rfl
  · rw [infoGet_serialize hascending hsize, hlookup, if_pos rfl]
    rfl

/-- The contents of the members matter. -/
theorem ownMaster_filled (hdWallets : Datas) : ownMaster c search self (hdWallets.map filled) = ownMaster c search self hdWallets := by
  have huuid : ∀ hdWalletData, kmUuidFromHDWallet search self.store self.testnet (filled hdWalletData) =
      kmUuidFromHDWallet search self.store self.testnet hdWalletData := fun _ => rfl
  have hsmallest : ∀ allPrivKeyHashes, smallestIndex search self allPrivKeyHashes (hdWallets.map filled) =
      smallestIndex search self allPrivKeyHashes hdWallets := fun allPrivKeyHashes => by
    simp only [smallestIndex, List.foldlM_map, huuid]
  rw [ownMaster, ownMaster, foundMaster, foundMaster, hsmallest]

/-! ## The calls -/

/-- A vault that was added where it fits. -/
theorem arranged_add (h : Arranged c search self ordinary observed) {info masterHdWallet name : Data} {hdWallets : Datas}
    (hfitting : FittingVault c search self masterHdWallet hdWallets) (hinfo : StoredVault search info masterHdWallet hdWallets name)
    (hvaults : vaultObjects search next = ordinary ++ observed ++ [info])
    (hown : ∀ hdWallets, ownMaster c search next hdWallets = ownMaster c search self hdWallets) :
    ∃ ordinary' observed', Arranged c search next ordinary' observed' := by
  obtain ⟨hname, hmembers, stored, hstored, hlength⟩ := hinfo
  have hnames : ∀ other ∈ ordinary ++ observed ++ [info], ∃ name, infoGet search other vaultObjectNameKey = some name := by
    intro other hother
    rcases List.mem_append.1 hother with hold | hnew
    · exact h.names other hold
    · rw [List.mem_singleton.1 hnew]
      exact ⟨_, hname⟩
  have hordinary : ∀ other ∈ ordinary, ∃ members master stored, vaultMembers search other = some members ∧
      ownMaster c search next members = some master ∧ master.length ≠ 0 ∧
      infoGet search other vaultObjectMasterKey = some stored ∧ stored.length = 0 := by
    simp only [hown]
    exact h.own
  have hobserved : ∀ other ∈ observed, ∃ members master stored, vaultMembers search other = some members ∧
      ownMaster c search next members = some master ∧ master.length = 0 ∧
      infoGet search other vaultObjectMasterKey = some stored ∧ stored.length ≠ 0 := by
    simp only [hown]
    exact h.given
  rw [FittingVault] at hfitting
  split at hfitting
  · rename_i hmaster
    obtain ⟨own, hfound, hempty⟩ := hfitting
    rw [List.append_assoc] at hvaults hnames
    refine ⟨ordinary, observed ++ [info], hvaults, hnames, hordinary, fun other hother => ?_⟩
    rcases List.mem_append.1 hother with hold | hnew
    · exact hobserved other hold
    · rw [List.mem_singleton.1 hnew]
      exact ⟨_, own, stored, hmembers, by rw [hown, ownMaster_filled, hfound], hempty, hstored, by rw [hlength]; exact hmaster⟩
  · rename_i hmaster
    obtain ⟨hnone, own, hfound, hne⟩ := hfitting
    have hnil : observed = [] := by
      refine List.eq_nil_iff_forall_not_mem.2 fun other hother => ?_
      obtain ⟨-, -, given, -, -, -, hgiven, hfull⟩ := h.given other hother
      refine hfull (hnone other ?_ given hgiven)
      rw [h.vaults]
      exact List.mem_append_right ordinary hother
    rw [hnil, List.append_nil] at hvaults hnames
    refine ⟨ordinary ++ [info], [], by rw [hvaults, List.append_nil], by rwa [List.append_nil], fun other hother => ?_,
      fun other hother => by cases hother⟩
    rcases List.mem_append.1 hother with hold | hnew
    · exact hordinary other hold
    · rw [List.mem_singleton.1 hnew]
      exact ⟨_, own, stored, hmembers, by rw [hown, ownMaster_filled, hfound], hne, hstored,
        by rw [hlength]; exact not_not.1 hmaster⟩

/-- Vaults that were taken out leave the others in their places. -/
theorem arranged_sublist (h : Arranged c search self ordinary observed) {array : Datas}
    (hsub : List.Sublist array (ordinary ++ observed)) (hvaults : vaultObjects search next = array)
    (hown : ∀ hdWallets, ownMaster c search next hdWallets = ownMaster c search self hdWallets) :
    ∃ ordinary' observed', Arranged c search next ordinary' observed' := by
  obtain ⟨left, right, rfl, hleft, hright⟩ := List.sublist_append_iff.1 hsub
  refine ⟨left, right, hvaults, fun info hinfo => h.names info (hsub.subset hinfo), fun info hinfo => ?_, fun info hinfo => ?_⟩
  · simp only [hown]
    exact h.own info (hleft.subset hinfo)
  · simp only [hown]
    exact h.given info (hright.subset hinfo)

theorem arranged_keeps (h : Arranged c search self ordinary observed) (hkeeps : KeepsFound c search self next)
    (hvaults : vaultObjects search next = vaultObjects search self) : Arranged c search next ordinary observed := by
  refine ⟨hvaults.trans h.vaults, h.names, fun info hinfo => ?_, fun info hinfo => ?_⟩
  · obtain ⟨members, master, stored, hmembers, hmaster, hne, hstored⟩ := h.own info hinfo
    obtain ⟨before, after, hbefore, hafter, hiff⟩ := hkeeps info (by rw [h.vaults]; exact List.mem_append_left _ hinfo) members hmembers
    rw [hmaster] at hbefore
    cases hbefore
    exact ⟨members, after, stored, hmembers, hafter, fun hzero => hne (hiff.1 hzero), hstored⟩
  · obtain ⟨members, master, stored, hmembers, hmaster, hempty, hstored⟩ := h.given info hinfo
    obtain ⟨before, after, hbefore, hafter, hiff⟩ := hkeeps info (by rw [h.vaults]; exact List.mem_append_right _ hinfo) members hmembers
    rw [hmaster] at hbefore
    cases hbefore
    exact ⟨members, after, stored, hmembers, hafter, hiff.2 hempty, hstored⟩

theorem map_filled_vaultObjects (km : KeyManager) : (vaultObjects search km).map filled = vaultObjects search km :=
  map_filled_datasDeserialize _

theorem addInfo_spec (hready : Ready c self) (h : Arranged c search self ordinary observed) {info : Elements}
    {masterHdWallet name : Data} {hdWallets : Datas} (hfitting : FittingVault c search self masterHdWallet hdWallets)
    (hinfo : (dictionarySerialize info).length ≤ bsMaxDataSize →
      StoredVault search (dictionarySerialize info) masterHdWallet hdWallets name)
    (hsave : saveVaultObjects search self (vaultObjects search self ++ [dictionarySerialize info]) = some next) :
    Ready c next ∧ ∃ ordinary' observed', Arranged c search next ordinary' observed' := by
  obtain ⟨hnext, hvaults, hown, hsize⟩ := saveVaultObjects_spec hready hsave
  have hmem : dictionarySerialize info ∈ vaultObjects search self ++ [dictionarySerialize info] :=
    List.mem_append_right _ List.mem_cons_self
  have hvaults' : vaultObjects search next = ordinary ++ observed ++ [dictionarySerialize info] := by
    rw [hvaults, List.map_append, map_filled_vaultObjects, h.vaults]
    rfl
  exact ⟨hnext, arranged_add h hfitting (hinfo (Nat.le_trans (length_le_serialize hmem) hsize)) hvaults' hown⟩

/-- A registration is saved next to the vaults. -/
theorem registration_spec (slot : Slot) (hready : Ready c self) (h : Arranged c search self ordinary observed) {data : Data}
    {store : File} (hsave : bsSave search self.store slot.key data = some store)
    (hkeeps : KeepsFound c search self { self with store := store }) :
    Ready c { self with store := store } ∧ ∃ ordinary' observed', Arranged c search { self with store := store } ordinary' observed' := by
  obtain ⟨hwell, hload⟩ := load_save hready.wellFormed hsave
  refine ⟨⟨hwell, hready.hashes, hready.ascending⟩, ordinary, observed, arranged_keeps h hkeeps ?_⟩
  have hvaults := (hload (stringNew (vaultObjectsKey self.testnet))).trans (if_neg (vaultObjectsKey_ne self.testnet slot))
  exact congrArg datasDeserialize hvaults

/-- A new key changes the files and forgets the hashes. -/
theorem newKey_spec (hready : Ready c self) (h : Arranged c search self ordinary observed) {files : Bool → List (Option Bytes)}
    (hnext : next = { self with files := files, privKeyHashCache := [] }) (hkeeps : KeepsFound c search self next) :
    Ready c next ∧ ∃ ordinary' observed', Arranged c search next ordinary' observed' := by
  refine ⟨?_, ordinary, observed, arranged_keeps h hkeeps ?_⟩
  · rw [hnext]
    exact ⟨hready.wellFormed, Or.inl rfl, hready.ascending⟩
  · rw [hnext]
    rfl

theorem vaultCall_spec {call : VaultCall} (hready : Ready c self) (h : Arranged c search self ordinary observed)
    (hfitting : Fitting c search self call) (hnext : vaultCall c search self call = some next) :
    Ready c next ∧ ∃ ordinary' observed', Arranged c search next ordinary' observed' := by
  cases call with
  | addVault hdWallets name => exact addInfo_spec hready h hfitting storedVault_ordinary hnext
  | addVaultObserver masterHdWallet hdWallets name => exact addInfo_spec hready h hfitting (storedVault_observer rfl) hnext
  | removeVault index =>
    obtain ⟨hready', hvaults, hown, -⟩ := saveVaultObjects_spec hready hnext
    refine ⟨hready', arranged_sublist h ?_ hvaults hown⟩
    rw [← h.vaults]
    split
    · rw [← List.eraseIdx_map, map_filled_vaultObjects]
      exact List.eraseIdx_sublist _ _
    · rw [map_filled_vaultObjects]
  | addPrivKey privKey =>
    obtain ⟨files, hfiles⟩ := @addPrivKey_spec c self privKey
    exact newKey_spec hready h ((Option.some.inj hnext).symm.trans hfiles) (hfitting next hnext)
  | importMasterPrivKey key =>
    obtain ⟨files, hfiles⟩ := @importMasterPrivKey_spec c self key
    exact newKey_spec hready h ((Option.some.inj hnext).symm.trans hfiles) (hfitting next hnext)
  | generateMasterPrivKey entropy uniqueData =>
    obtain ⟨files, hfiles⟩ := @importMasterPrivKey_spec c self (hash256 c.toCrypto (dataAdd entropy uniqueData))
    exact newKey_spec hready h ((Option.some.inj hnext).symm.trans hfiles) (hfitting next hnext)
  | setHDWalletForUUID hdWalletData uuid type =>
    have hkeeps := hfitting next hnext
    obtain ⟨store, hstore, rfl⟩ := Option.map_eq_some_iff.1 hnext
    obtain ⟨dict, -, hsave⟩ := Option.bind_eq_some_iff.1 hstore
    exact registration_spec (.hdWallets self.testnet) hready h hsave hkeeps
  | setPrivKeyHashForDevice hash uuid =>
    have hkeeps := hfitting next hnext
    obtain ⟨store, hstore, rfl⟩ := Option.map_eq_some_iff.1 hnext
    obtain ⟨dict, -, hsave⟩ := Option.bind_eq_some_iff.1 hstore
    exact registration_spec .deviceHashes hready h hsave hkeeps
  | vaultMasterHdWallets =>
    obtain ⟨⟨masters, last⟩, hmasters, rfl⟩ := Option.map_eq_some_iff.1 hnext
    obtain ⟨hready', hvaults, hown⟩ := (@vaultMasterHdWallets_spec c search self hready).2 masters last hmasters
    exact ⟨hready', arranged_sublist h (List.Sublist.refl _) (hvaults.trans h.vaults) hown⟩

theorem arranged_fresh (testnet : Bool) : Arranged c search (KeyManager.fresh testnet) [] [] := by
  refine ⟨rfl, fun info hinfo => ?_, fun info hinfo => ?_, fun info hinfo => ?_⟩
  all_goals cases hinfo

/-- A run of calls that fit keeps the places of the lists. -/
theorem vault_indices_consistent (c : HdCrypto) (search : BinarySearch) (testnet : Bool) (calls : List VaultCall)
    (h : Along (vaultCall c search) (Fitting c search) (KeyManager.fresh testnet) calls) :
    Throughout (vaultCall c search) (Consistent c search) (KeyManager.fresh testnet) calls := by
  refine @throughout_of_along _ _ (vaultCall c search) (Consistent c search)
    (fun km => Ready c km ∧ ∃ ordinary observed, Arranged c search km ordinary observed) (Fitting c search) ?_ ?_ _ _
    ⟨ready_fresh testnet, [], [], arranged_fresh testnet⟩ h
  · rintro km ⟨hready, ordinary, observed, harranged⟩
    exact lists_consistent hready harranged
  · rintro km call next ⟨hready, ordinary, observed, harranged⟩ hfitting hnext
    exact vaultCall_spec hready harranged hfitting hnext

/-- What `KMSetHDWalletForUUID` stores for a wallet. -/
def exampleRecord : Data := dictionarySerialize
  (dictTwo .halving (stringNew knownHDWalletDataKey) (some [7]) (stringNew knownHDWalletTypeKeepKey) (dataInt 1))

def exampleDevice : List VaultCall :=
  [.addPrivKey (some (scalarBytes 5)), .setHDWalletForUUID (some [7]) (some [117]) 1,
    .setPrivKeyHashForDevice (sha256 logCrypto.toCrypto (some (scalarBytes 5))) (some [117])]

theorem fresh_noVaults {km next : KeyManager} (h : vaultObjects search km = []) : KeepsFound c search km next := by
  intro info hinfo
  rw [h] at hinfo
  cases hinfo

/-- A vault of a stored record has a master of its own. -/
theorem vault_indices_consistent_record :
    Throughout (vaultCall logCrypto .halving) (Consistent logCrypto .halving) (KeyManager.fresh false)
      (exampleDevice ++ [.addVault [exampleRecord] (some [65])]) := by
  refine vault_indices_consistent logCrypto .halving false _ ⟨fun next _ => fresh_noVaults rfl, fun keyed hkeyed => ?_⟩
  cases hkeyed
  refine ⟨fun next _ => fresh_noVaults rfl, fun known hknown => ⟨fun next _ => fresh_noVaults ?_, fun device hdevice => ?_⟩⟩
  · have hvaults : (vaultCall logCrypto .halving (kmAddPrivKey logCrypto (KeyManager.fresh false) (some (scalarBytes 5))).2
        (.setHDWalletForUUID (some [7]) (some [117]) 1)).map (vaultObjects .halving) = some [] := by decide +kernel
    rw [hknown] at hvaults
    exact Option.some.inj hvaults
  · have hafter : ((vaultCall logCrypto .halving (kmAddPrivKey logCrypto (KeyManager.fresh false) (some (scalarBytes 5))).2
        (.setHDWalletForUUID (some [7]) (some [117]) 1)).bind fun km => (vaultCall logCrypto .halving km
          (.setPrivKeyHashForDevice (sha256 logCrypto.toCrypto (some (scalarBytes 5))) (some [117]))).map fun km =>
            (vaultObjects .halving km, (ownMaster logCrypto .halving km [exampleRecord]).map Data.length)) = some ([], some 82) := by
      decide +kernel
    rw [hknown, Option.bind_some, hdevice, Option.map_some, Option.some.injEq, Prod.mk.injEq] at hafter
    obtain ⟨hvaults, hown⟩ := hafter
    obtain ⟨own, hown, hlength⟩ := Option.map_eq_some_iff.1 hown
    refine ⟨⟨fun info hinfo => ?_, own, hown, by rw [hlength]; decide⟩, fun _ _ => trivial⟩
    rw [hvaults] at hinfo
    cases hinfo

/-- The device of the one member is registered and its key is there, but the wallet is not
    found: one name, no master. -/
theorem not_vault_indices_consistent :
    ¬ Throughout (vaultCall logCrypto .halving) (Consistent logCrypto .halving) (KeyManager.fresh false)
      (exampleDevice ++ [.addVault [some [7]] (some [65])]) := by
  intro h
  have hlists : (after (vaultCall logCrypto .halving) (KeyManager.fresh false) (exampleDevice ++ [.addVault [some [7]] (some [65])])).map
      (fun km => ((kmVaultMasterHdWallets logCrypto .halving km).map Prod.fst, (vaultObjects .halving km).length)) =
        some (some [], 1) := by decide +kernel
  obtain ⟨km, hafter, hlists⟩ := Option.map_eq_some_iff.1 hlists
  obtain ⟨masters, -, -, hmasters, -, -, hlength, -⟩ := h _ (List.prefix_refl _) km hafter
  rw [Prod.mk.injEq] at hlists
  rw [hlists.1, Option.some.injEq] at hmasters
  rw [hlists.2, ← hmasters] at hlength
  cases hlength

end BitcoinSpoon.Keys
