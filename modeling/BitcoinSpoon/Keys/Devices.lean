/-
  BitcoinSpoon.Keys.Devices — wallets of other devices, and back to the device
  (`code/KeyManager.c`).

  `KMSetHDWalletForUUID` stores a record, which is a dictionary with the wallet in it.
  `KMHdWalletFrom` reads the wallet out of the record, after any calls
  (`hdWalletFrom_current`). `KMUuidFromHDWallet` compares the wallet with the records. A record
  is longer than its wallet, so no current wallet leads back to its device
  (`devices_lookup_iff`).
-/

import BitcoinSpoon.Keys.Vaults

namespace BitcoinSpoon.Keys

open Wire Loop KeysAndValues Storage

/-- One call of `KMSetHDWalletForUUID`. -/
structure WalletCall where
  hdWalletData : Data
  uuid : Data
  type : Int32

def walletCall (search : BinarySearch) (testnet : Bool) (file : File) (call : WalletCall) : Option File :=
  kmSetHDWalletForUUID search file testnet call.hdWalletData call.uuid call.type

/-- The wallets after the calls; an empty wallet removes one. -/
def currentWallet (calls : List WalletCall) : Data → Data :=
  calls.foldl (fun current call uuid => if uuid.toBytes = call.uuid.toBytes then given call.hdWalletData else current uuid)
    fun _ => none

/-- The devices with a current wallet. -/
def IsCurrent (current : Data → Data) (uuid : Data) : Prop := (current uuid).length ≠ 0

/-- The current wallets are pairwise different. -/
def Different (current : Data → Data) : Prop :=
  ∀ a b, IsCurrent current a → IsCurrent current b → (current a).toBytes = (current b).toBytes → a.toBytes = b.toBytes

/-- Wallet and device are found through each other, no other wallet is a device's, and a vault
    with a member of a device whose key is known leads to a key. -/
structure LookedUp (c : HdCrypto) (search : BinarySearch) (file : File) (testnet : Bool) (current : Data → Data) : Prop where
  wallet : ∀ uuid, IsCurrent current uuid → kmHdWalletFrom search file testnet uuid = some (current uuid)
  uuid : ∀ uuid, IsCurrent current uuid → kmUuidFromHDWallet search file testnet (current uuid) = some (some uuid.toBytes)
  others : ∀ hdWalletData : Data, (∀ uuid, IsCurrent current uuid → (current uuid).toBytes ≠ hdWalletData.toBytes) →
    kmUuidFromHDWallet search file testnet hdWalletData = some none
  vaults : ∀ km : KeyManager, km.store = file → km.testnet = testnet → ∀ (hdWallets : Datas) (uuid hash : Data),
    IsCurrent current uuid → (∃ hdWalletData ∈ hdWallets, hdWalletData.toBytes = (current uuid).toBytes) →
    kmPrivKeyHashForDevice search file uuid = some hash → (∃ known ∈ (kmAllPrivKeyHashes c km).1, known.toBytes = hash.toBytes) →
    ∃ index, smallestIndex search km (kmAllPrivKeyHashes c km).1 hdWallets = some (some index)

/-! ## Records -/

variable {c : HdCrypto} {search : BinarySearch} {file file' : File} {testnet : Bool}

/-- An element is read after its length. -/
theorem length_mem_datasDeserialize {data element : Data} (h : element ∈ datasDeserialize data) : element.length + 4 ≤ data.length := by
  have hall : ∀ (rounds : Nat) (bytes : Bytes), ∀ element ∈ datasDeserializeFrom rounds bytes,
      Data.length element + 4 ≤ bytes.length := by
    intro rounds
    induction rounds with
    | zero => intro bytes element helement; cases helement
    | succ rounds ih =>
      intro bytes element helement
      rw [datasDeserializeFrom] at helement
      split at helement
      · cases helement
      rename_i hlong
      rw [readLE, if_pos (Nat.le_of_not_lt hlong)] at helement
      dsimp only at helement
      split at helement
      · cases helement
      · rename_i hfits
        rw [List.length_drop] at hfits
        rcases List.mem_cons.1 helement with rfl | hrest
        · rw [length_some, List.length_take, List.length_drop]
          omega
        · have hle := ih _ element hrest
          rw [List.length_drop, List.length_drop] at hle
          omega
  exact hall _ _ element h

theorem mem_dictionaryElements {datas : Datas} {item : Bytes × Data} (h : item ∈ dictionaryElements datas) : item.2 ∈ datas := by
  induction datas using dictionaryElements.induct with
  | case1 key value datas ih =>
    rcases List.mem_cons.1 h with rfl | hrest
    · exact List.mem_cons_of_mem _ List.mem_cons_self
    · exact List.mem_cons_of_mem _ (List.mem_cons_of_mem _ (ih hrest))
  | case2 datas hshort =>
    unfold dictionaryElements at h
    split at h
    · exact absurd rfl (hshort _ _ _)
    · cases h

/-- What is found in a record is shorter than the record. -/
theorem length_dictGet {record : Data} {dict : Elements} (hdict : dictDeserialize record = some dict) {key : Data}
    (hne : (dictGet search dict key).length ≠ 0) : (dictGet search dict key).length + 4 ≤ record.length := by
  rw [dictGet, KeysAndValues.dictionaryGetValue] at hne ⊢
  cases hget : dictionaryGetValueFlexible search defaultOrder dict key.toBytes with
  | none =>
    rw [hget] at hne
    exact absurd rfl hne
  | some value =>
    obtain ⟨index, -, hindex⟩ := Option.bind_eq_some_iff.1 hget
    obtain ⟨item, hitem, rfl⟩ := Option.map_eq_some_iff.1 hindex
    rw [dictDeserialize, dictionaryOfDatas] at hdict
    split at hdict
    · cases hdict
    · cases hdict
      exact length_mem_datasDeserialize (mem_dictionaryElements (List.mem_of_getElem? hitem))

/-- A device whose wallet leads back to it would have a record that is no longer than it. -/
theorem uuid_not_found (h : Sound search file) {uuid hdWalletData : Data} (hne : hdWalletData.length ≠ 0)
    (hwallet : kmHdWalletFrom search file testnet uuid = some hdWalletData) :
    kmUuidFromHDWallet search file testnet hdWalletData ≠ some (some uuid.toBytes) := by
  intro huuid
  obtain ⟨dict, hdict, hfind⟩ := Option.bind_eq_some_iff.1 huuid
  obtain ⟨item, hitem, hkey⟩ := Option.map_eq_some_iff.1 (Option.some.inj hfind)
  have hrecord : item.2.toBytes = hdWalletData.toBytes := by
    have hequal := List.find?_some hitem
    exact dataEqual_iff.1 hequal
  have hmem : (uuid.toBytes, item.2) ∈ dict := by
    rw [← hkey]
    exact List.mem_of_find?_eq_some hitem
  have hget : dictGet search dict uuid = item.2 := by
    rw [dictGet, KeysAndValues.dictionaryGetValue, (getValue_iff_mem (h.ascending (.hdWallets testnet) rfl dict hdict) _ _).2 hmem]
    rfl
  obtain ⟨dict', hdict', hwallet⟩ := Option.bind_eq_some_iff.1 hwallet
  obtain rfl : dict' = dict := Option.some.inj (hdict'.symm.trans hdict)
  obtain ⟨record, hread, hwallet⟩ := Option.bind_eq_some_iff.1 hwallet
  rw [hget] at hread
  have hlength := @length_dictGet search item.2 record hread (stringNew knownHDWalletDataKey)
  rw [Option.some.inj hwallet] at hlength
  have hsame : item.2.length = hdWalletData.length := congrArg List.length hrecord
  have hlonger := hlength hne
  omega

/-! ## Calls -/

theorem currentWallet_concat (calls : List WalletCall) (call : WalletCall) (uuid : Data) :
    currentWallet (calls ++ [call]) uuid =
      if uuid.toBytes = call.uuid.toBytes then given call.hdWalletData else currentWallet calls uuid := by
  rw [currentWallet, List.foldl_concat]
  rfl

/-- What the calls leave on a network: every device of the dictionary has a current wallet. -/
structure Registered (search : BinarySearch) (testnet : Bool) (calls : List WalletCall) (file : File) : Prop where
  sound : Sound search file
  wallet : ∀ uuid, kmHdWalletFrom search file testnet uuid = some (currentWallet calls uuid)
  known : ∃ dict, kmKnownHDWallets search file testnet = some dict ∧
    ∀ item ∈ dict, IsCurrent (currentWallet calls) (some item.1)

theorem registered_start (h : Sound search file) (hnone : kmKnownHDWallets search file testnet = some []) :
    Registered search testnet [] file := by
  refine ⟨h, fun uuid => ?_, [], hnone, fun item hitem => by cases hitem⟩
  rw [kmHdWalletFrom]
  rw [kmKnownHDWallets] at hnone
  rw [hnone]
  rfl

theorem walletCall_spec {calls : List WalletCall} {call : WalletCall} (h : Registered search testnet calls file)
    (hcall : walletCall search testnet file call = some file') : Registered search testnet (calls ++ [call]) file' := by
  obtain ⟨hsound, hwallet, dict, hknown, hcurrent⟩ := h
  obtain ⟨hsound', hsettings⟩ := setHdWallet_spec hsound hcall
  refine ⟨hsound', fun uuid => ?_, ?_⟩
  · have hget := congrFun (congrFun (congrArg Settings.hdWallet hsettings) testnet) uuid
    refine hget.trans ?_
    show (if testnet = testnet ∧ uuid.toBytes = call.uuid.toBytes then _ else kmHdWalletFrom search file testnet uuid) = _
    rw [currentWallet_concat, hwallet]
    split
    · rename_i hsame
      rw [if_pos hsame.2]
    · rename_i hother
      rw [if_neg fun hsame => hother ⟨rfl, hsame⟩]
  · obtain ⟨dict', hdict', hsave⟩ := Option.bind_eq_some_iff.1 hcall
    obtain rfl : dict' = dict := Option.some.inj (hdict'.symm.trans hknown)
    have hascending := hsound.ascending (.hdWallets testnet) rfl dict' hknown
    obtain ⟨-, hcontents, hsize⟩ := @save_dict search file file' (.hdWallets testnet) hsound _ (ascending_set hascending _) hsave
    have hread := congrFun hcontents (.hdWallets testnet)
    rw [Function.update_self] at hread
    refine ⟨_, (congrArg dictDeserialize hread).trans (dictDeserialize_serialize (Nat.lt_of_le_of_lt hsize (by decide))), ?_⟩
    intro item hitem
    obtain ⟨⟨key, value⟩, hstored, rfl⟩ := List.mem_map.1 hitem
    have hget := (@getValue_iff_mem search _ _ (ascending_set hascending _) key value).2 hstored
    have hold : dictionaryGetValueFlexible search defaultOrder dict' key = some value →
        (currentWallet calls (some key)).length ≠ 0 := fun hfound =>
      hcurrent _ ((getValue_iff_mem hascending key value).1 hfound)
    show (currentWallet (calls ++ [call]) (some key)).length ≠ 0
    rw [currentWallet_concat]
    by_cases hkey : Data.toBytes (some key) = call.uuid.toBytes
    · rw [if_pos hkey, given]
      split at hget
      · rename_i hset
        rw [if_pos hset]
        exact hset
      · rw [dictRemove, getValue_remove hascending, if_pos (show key = call.uuid.toBytes from hkey)] at hget
        cases hget
    · rw [if_neg hkey]
      split at hget
      · rw [dictAdd, getValue_addCopy hascending, if_neg (show key ≠ call.uuid.toBytes from hkey)] at hget
        exact hold hget
      · rw [dictRemove, getValue_remove hascending, if_neg (show key ≠ call.uuid.toBytes from hkey)] at hget
        exact hold hget

theorem registered_run (calls : List WalletCall) (h : Sound search file) (hnone : kmKnownHDWallets search file testnet = some [])
    (hrun : after (walletCall search testnet) file calls = some file') : Registered search testnet calls file' := by
  have hall : ∀ (calls before : List WalletCall) (file : File), Registered search testnet before file →
      after (walletCall search testnet) file calls = some file' → Registered search testnet (before ++ calls) file' := by
    intro calls
    induction calls with
    | nil =>
      intro before file hbefore hrun
      cases hrun
      rwa [List.append_nil]
    | cons call calls ih =>
      intro before file hbefore hrun
      obtain ⟨next, hnext, hrun⟩ := Option.bind_eq_some_iff.1 hrun
      have hrest := ih (before ++ [call]) next (walletCall_spec hbefore hnext) hrun
      rwa [List.append_assoc] at hrest
  exact hall calls [] file (registered_start h hnone) hrun

/-- The wallet of a device is found after any calls. -/
theorem hdWalletFrom_current (calls : List WalletCall) (h : Sound search file) (hnone : kmKnownHDWallets search file testnet = some [])
    (hrun : after (walletCall search testnet) file calls = some file') (uuid : Data) :
    kmHdWalletFrom search file' testnet uuid = some (currentWallet calls uuid) :=
  (registered_run calls h hnone hrun).wallet uuid

/-- After any calls on a network where nothing was known, wallets and devices are found through
    each other exactly if there is no current wallet. -/
theorem devices_lookup_iff (c : HdCrypto) (search : BinarySearch) (file file' : File) (testnet : Bool) (calls : List WalletCall)
    (h : Sound search file) (hnone : kmKnownHDWallets search file testnet = some [])
    (hrun : after (walletCall search testnet) file calls = some file') :
    LookedUp c search file' testnet (currentWallet calls) ↔ ∀ uuid, ¬ IsCurrent (currentWallet calls) uuid := by
  obtain ⟨hsound, hwallet, dict, hknown, hcurrent⟩ := registered_run calls h hnone hrun
  constructor
  · intro hlooked uuid huuid
    exact uuid_not_found hsound huuid (hwallet uuid) (hlooked.uuid uuid huuid)
  · intro hempty
    have hnil : dict = [] := List.eq_nil_iff_forall_not_mem.2 fun item hitem => hempty _ (hcurrent item hitem)
    refine ⟨fun uuid huuid => absurd huuid (hempty uuid), fun uuid huuid => absurd huuid (hempty uuid), fun hdWalletData _ => ?_,
      fun km _ _ hdWallets uuid hash huuid => absurd huuid (hempty uuid)⟩
    rw [kmUuidFromHDWallet, hknown, hnil]
    rfl

def exampleRemoved : List WalletCall := [⟨some [7], some [117], 1⟩, ⟨some [], some [117], 1⟩]

theorem current_removed (uuid : Data) : ¬ IsCurrent (currentWallet exampleRemoved) uuid := by
  intro h
  refine h ?_
  show Data.length (if uuid.toBytes = [117] then none else if uuid.toBytes = [117] then some [7] else none) = 0
  split <;> rfl

/-- A wallet that was registered and removed again. -/
theorem devices_lookup_removed :
    LookedUp logCrypto .halving ((after (walletCall .halving false) none exampleRemoved).getD none) false (currentWallet exampleRemoved) :=
  (devices_lookup_iff logCrypto .halving none _ false exampleRemoved sound_none rfl (by decide)).2 current_removed

def exampleRegistered : List WalletCall := [⟨some [7], some [117], 1⟩]

theorem current_registered {uuid : Data} (h : IsCurrent (currentWallet exampleRegistered) uuid) : uuid.toBytes = [117] := by
  by_contra hne
  have hnone : currentWallet exampleRegistered uuid = none := by
    show (if uuid.toBytes = [117] then _ else _) = _
    exact if_neg hne
  rw [IsCurrent, hnone] at h
  exact h rfl

/-- One registered wallet leads to no device. -/
theorem not_devices_lookup :
    ¬ ∀ (calls : List WalletCall) (file' : File), after (walletCall .halving false) none calls = some file' →
      Different (currentWallet calls) → LookedUp logCrypto .halving file' false (currentWallet calls) := by
  intro h
  have hrun : (after (walletCall .halving false) none exampleRegistered).map (fun file =>
      kmUuidFromHDWallet .halving file false (some [7])) = some (some none) := by decide
  obtain ⟨file', hfile, hnone⟩ := Option.map_eq_some_iff.1 hrun
  have hlooked := h exampleRegistered file' hfile fun a b ha hb _ => (current_registered ha).trans (current_registered hb).symm
  have huuid := hlooked.uuid (some [117]) (show Data.length (some [7]) ≠ 0 by decide)
  rw [show currentWallet exampleRegistered (some [117]) = some [7] from rfl, hnone] at huuid
  cases huuid

end BitcoinSpoon.Keys
