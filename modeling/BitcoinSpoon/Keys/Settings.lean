/-
  BitcoinSpoon.Keys.Settings — what the key manager keeps in the basic store
  (`code/KeyManager.c`).

  Five families of values share the store, most of them once for each network: the names of
  keys, the wallets by uuid, the key of each device, the order of the hashes and the hidden
  hashes. The first three are serialized dictionaries that a setter reads, changes and writes
  again. Each family on each network has a flat key of its own (`Slot.key_inj`), and its
  getter reads that key and nothing else. So a setter changes its own family if it writes
  where the getter reads; `KMSetHiddenHashes` writes over the order of the hashes instead
  (`settings_apart_iff`).

  The network is an argument of every call. `none` is `abort()`.
-/

import BitcoinSpoon.Store.BasicStorage
import BitcoinSpoon.Tracker.Scan

namespace BitcoinSpoon.Keys

open Wire Loop KeysAndValues Storage

/-- `StringNew`, of ASCII characters. -/
def stringNew (str : String) : Data := some (str.toList.map (fun char => UInt8.ofNat char.toNat) ++ [0])

variable (search : BinarySearch)

def bsLoad (file : File) (key : String) : Data := basicStorageLoad search file (stringNew key)

def bsSave (file : File) (key : String) (data : Data) : Option File := basicStorageSave search file (stringNew key) data

def dictGet (dict : Elements) (key : Data) : Data := KeysAndValues.dictionaryGetValue search defaultOrder dict key.toBytes

def dictAdd (dict : Elements) (key value : Data) : Elements :=
  KeysAndValues.dictionaryAddCopy search defaultOrder dict key.toBytes value

def dictRemove (dict : Elements) (key : Data) : Elements := dictionaryRemove search defaultOrder dict key.toBytes

def dictTwo (key1 value1 key2 value2 : Data) : Elements := dictAdd search (dictAdd search [] key1 value1) key2 value2

/-! ## Names of keys -/

def keyNameDictKey (testnet : Bool) : String := if testnet then "KeyNameDictTestNet" else "KeyNameDict"

/-- `StringF("%u", index)` -/
def indexString (index : UInt32) : Data := some (decimal index.toNat ++ [0])

def kmKeyName (file : File) (testnet : Bool) (index : UInt32) : Option Data := do
  let dict ← dictDeserialize (bsLoad search file (keyNameDictKey testnet))
  some (dictGet search dict (indexString index))

def kmSetKeyName (file : File) (testnet : Bool) (name : Data) (index : UInt32) : Option File := do
  let dict ← dictDeserialize (bsLoad search file (keyNameDictKey testnet))
  let dict := if name.length ≠ 0 then dictAdd search dict (indexString index) name else dictRemove search dict (indexString index)
  bsSave search file (keyNameDictKey testnet) (dictionarySerialize dict)

/-! ## Wallets by uuid -/

def knownHDWalletsKey (testnet : Bool) : String := if testnet then "knownHDWalletsKey" else "knownHDWalletsKeyMainNet"

def knownHDWalletDataKey : String := "dataKey"

def knownHDWalletTypeKeepKey : String := "type"

def kmSetHDWalletForUUID (file : File) (testnet : Bool) (hdWalletData uuid : Data) (type : Int32) : Option File := do
  let dict ← dictDeserialize (bsLoad search file (knownHDWalletsKey testnet))
  let item := dictTwo search (stringNew knownHDWalletDataKey) hdWalletData (stringNew knownHDWalletTypeKeepKey) (dataInt type)
  let dict := if hdWalletData.length ≠ 0 then dictAdd search dict uuid (dictionarySerialize item) else dictRemove search dict uuid
  bsSave search file (knownHDWalletsKey testnet) (dictionarySerialize dict)

def kmHdWalletFrom (file : File) (testnet : Bool) (uuid : Data) : Option Data := do
  let dict ← dictDeserialize (bsLoad search file (knownHDWalletsKey testnet))
  let item ← dictDeserialize (dictGet search dict uuid)
  some (dictGet search item (stringNew knownHDWalletDataKey))

def kmHdWalletType (file : File) (testnet : Bool) (uuid : Data) : Option Int32 := do
  let dict ← dictDeserialize (bsLoad search file (knownHDWalletsKey testnet))
  let item ← dictDeserialize (dictGet search dict uuid)
  dataGetInt (dictGet search item (stringNew knownHDWalletTypeKeepKey))

/-! ## Keys of devices -/

def privKeyHashForDeviceKey : String := "privKeyHashForDeviceKey"

def kmPrivKeyHashForDevice (file : File) (uuid : Data) : Option Data := do
  let dict ← dictDeserialize (bsLoad search file privKeyHashForDeviceKey)
  some (dictGet search dict uuid)

def kmSetPrivKeyHashForDevice (file : File) (hash uuid : Data) : Option File := do
  let dict ← dictDeserialize (bsLoad search file privKeyHashForDeviceKey)
  bsSave search file privKeyHashForDeviceKey (dictionarySerialize (dictAdd search dict uuid hash))

/-! ## Lists of hashes -/

def sortHashesKey (testnet : Bool) : String := if testnet then "sortHashesKeyTestNet" else "sortHashesKey"

def kmSortHashes (file : File) (testnet : Bool) : Datas := datasDeserialize (bsLoad search file (sortHashesKey testnet))

def kmSetSortHashes (file : File) (testnet : Bool) (sortHashes : Datas) : Option File :=
  bsSave search file (sortHashesKey testnet) (datasSerialize sortHashes)

def hiddenHashesKey (testnet : Bool) : String := if testnet then "hiddenHashesKeyTestNet" else "hiddenHashesKey"

def kmHiddenHashes (file : File) (testnet : Bool) : Datas := datasDeserialize (bsLoad search file (hiddenHashesKey testnet))

/-- It saves under the key of the sort hashes. -/
def kmSetHiddenHashes (file : File) (testnet : Bool) (hiddenHashes : Datas) : Option File :=
  bsSave search file (sortHashesKey testnet) (datasSerialize hiddenHashes)

/-! ## The store by families -/

inductive Slot where
  | keyNames (testnet : Bool)
  | hdWallets (testnet : Bool)
  | deviceHashes
  | sortHashes (testnet : Bool)
  | hiddenHashes (testnet : Bool)
  deriving DecidableEq

/-- The flat key that a getter reads. -/
def Slot.key : Slot → String
  | .keyNames testnet => keyNameDictKey testnet
  | .hdWallets testnet => knownHDWalletsKey testnet
  | .deviceHashes => privKeyHashForDeviceKey
  | .sortHashes testnet => sortHashesKey testnet
  | .hiddenHashes testnet => hiddenHashesKey testnet

def allSlots : List Slot :=
  [.keyNames false, .keyNames true, .hdWallets false, .hdWallets true, .deviceHashes, .sortHashes false, .sortHashes true,
    .hiddenHashes false, .hiddenHashes true]

theorem mem_allSlots (slot : Slot) : slot ∈ allSlots := by
  rcases slot with _ | _ | _ | _ | _
  all_goals first | decide | (rename_i testnet; cases testnet <;> decide)

/-- No two families share a key. -/
theorem Slot.key_inj {a b : Slot} (h : nulEnded (stringNew a.key) = nulEnded (stringNew b.key)) : a = b := by
  have hnodup : (allSlots.map fun slot => nulEnded (stringNew slot.key)).Nodup := by decide
  exact List.inj_on_of_nodup_map hnodup (mem_allSlots a) (mem_allSlots b) h

/-- What the getters find. -/
def contents (file : File) (slot : Slot) : Data := bsLoad search file slot.key

variable {search} {file file' : File} {slot : Slot}

theorem contents_save {data : Data} (h : WellFormed file) (hsave : bsSave search file slot.key data = some file') :
    WellFormed file' ∧ contents search file' = Function.update (contents search file) slot (filled data) := by
  obtain ⟨hwell, hload⟩ := load_save h hsave
  refine ⟨hwell, funext fun other => ?_⟩
  rw [Function.update_apply, contents, bsLoad, hload]
  by_cases hother : other = slot
  · rw [if_pos hother, if_pos (by rw [hother])]
  · rw [if_neg hother]
    exact if_neg fun heq => hother (Slot.key_inj heq)

/-! ## Dictionaries in the store -/

def Slot.isDict : Slot → Bool
  | .keyNames _ => true
  | .hdWallets _ => true
  | .deviceHashes => true
  | _ => false

/-- A file that calls have left; its dictionaries are sorted. -/
structure Sound (search : BinarySearch) (file : File) : Prop where
  wellFormed : WellFormed file
  ascending : ∀ slot : Slot, slot.isDict → ∀ dict, dictDeserialize (contents search file slot) = some dict → Ascending defaultOrder dict

theorem sound_none : Sound search none where
  wellFormed := wellFormed_none
  ascending slot _ dict hdict := by
    cases hdict
    exact ascending_nil

theorem ascending_filled {dict : Elements} (h : Ascending defaultOrder dict) {data : Data}
    (hsize : (dictionarySerialize dict).length ≤ bsMaxDataSize) (hdata : data = dictionarySerialize dict) {read : Elements}
    (hread : dictDeserialize data = some read) : Ascending defaultOrder read := by
  rw [hdata, dictDeserialize_serialize (Nat.lt_of_le_of_lt hsize (by decide))] at hread
  cases hread
  exact ascending_filledValues h

/-- A dictionary that was saved is read again. -/
theorem save_dict (h : Sound search file) {dict : Elements} (hdict : Ascending defaultOrder dict)
    (hsave : bsSave search file slot.key (dictionarySerialize dict) = some file') :
    Sound search file' ∧ contents search file' = Function.update (contents search file) slot (dictionarySerialize dict) ∧
      (dictionarySerialize dict).length ≤ bsMaxDataSize := by
  obtain ⟨hwell, hcontents⟩ := contents_save h.wellFormed hsave
  obtain ⟨elements, helements⟩ := h.wellFormed
  obtain ⟨-, hsize⟩ := save_fits helements hsave
  have hfilled : filled (dictionarySerialize dict) = dictionarySerialize dict := rfl
  rw [hfilled] at hcontents
  refine ⟨⟨hwell, fun other hother read hread => ?_⟩, hcontents, hsize⟩
  rw [hcontents, Function.update_apply] at hread
  split at hread
  · exact ascending_filled hdict hsize rfl hread
  · exact h.ascending other hother read hread

/-- And so is a list. -/
theorem save_datas (h : Sound search file) (hslot : slot.isDict = false) {datas : Datas}
    (hsave : bsSave search file slot.key (datasSerialize datas) = some file') :
    Sound search file' ∧ contents search file' = Function.update (contents search file) slot (datasSerialize datas) ∧
      datasDeserialize (datasSerialize datas) = datas.map filled := by
  obtain ⟨hwell, hcontents⟩ := contents_save h.wellFormed hsave
  obtain ⟨elements, helements⟩ := h.wellFormed
  obtain ⟨-, hsize⟩ := save_fits helements hsave
  have hfits : Fits datas := by
    intro d hd
    have hle := length_le_serialize hd
    have hmax : bsMaxDataSize < 2 ^ 32 := by decide
    omega
  have hfilled : filled (datasSerialize datas) = datasSerialize datas := rfl
  rw [hfilled] at hcontents
  refine ⟨⟨hwell, fun other hother read hread => ?_⟩, hcontents, datasDeserialize_serialize hfits⟩
  rw [hcontents, Function.update_apply] at hread
  split at hread
  · rename_i heq
    rw [heq, hslot] at hother
    cases hother
  · exact h.ascending other hother read hread

variable {dict : Elements} {key value : Data}

/-- What was read from a file has no NULL among its values. -/
theorem lookup_filled (h : Ascending defaultOrder dict) (hfilled : filledValues dict = dict) (key : Bytes) :
    (dictionaryGetValueFlexible search defaultOrder dict key).map filled = dictionaryGetValueFlexible search defaultOrder dict key := by
  rw [← lookup_filledValues h, hfilled]

theorem dictGet_add (h : Ascending defaultOrder dict) (hfilled : filledValues dict = dict) (key value other : Data) :
    dictGet search (filledValues (dictAdd search dict key value)) other =
      if other.toBytes = key.toBytes then filled value else dictGet search dict other := by
  rw [dictGet, KeysAndValues.dictionaryGetValue, dictAdd, lookup_filledValues (ascending_addCopy h _ _), getValue_addCopy h]
  split
  · rfl
  · rw [lookup_filled h hfilled]
    rfl

theorem dictGet_remove (h : Ascending defaultOrder dict) (hfilled : filledValues dict = dict) (key other : Data) :
    dictGet search (filledValues (dictRemove search dict key)) other =
      if other.toBytes = key.toBytes then none else dictGet search dict other := by
  rw [dictGet, KeysAndValues.dictionaryGetValue, dictRemove, lookup_filledValues (ascending_remove h _), getValue_remove h]
  split
  · rfl
  · rw [lookup_filled h hfilled]
    rfl

/-- What the setters of names and wallets do with the dictionary. -/
theorem dictGet_set (h : Ascending defaultOrder dict) (hfilled : filledValues dict = dict) (key value other : Data) (set : Prop)
    [Decidable set] :
    dictGet search (filledValues (if set then dictAdd search dict key value else dictRemove search dict key)) other =
      if other.toBytes = key.toBytes then (if set then filled value else none) else dictGet search dict other := by
  by_cases hset : set
  · rw [if_pos hset, if_pos hset, dictGet_add h hfilled]
  · rw [if_neg hset, if_neg hset, dictGet_remove h hfilled]

theorem ascending_dictAdd (h : Ascending defaultOrder dict) : Ascending defaultOrder (dictAdd search dict key value) :=
  ascending_addCopy h _ _

theorem ascending_set (h : Ascending defaultOrder dict) (set : Prop) [Decidable set] :
    Ascending defaultOrder (if set then dictAdd search dict key value else dictRemove search dict key) := by
  split
  · exact ascending_dictAdd h
  · exact ascending_remove h _

/-! ## The getters -/

/-- What all getters return. -/
@[ext]
structure Settings where
  keyName : Bool → UInt32 → Option Data
  hdWallet : Bool → Data → Option Data
  hdWalletType : Bool → Data → Option Int32
  deviceHash : Data → Option Data
  sortHashes : Bool → Datas
  hiddenHashes : Bool → Datas

def settingsOf (search : BinarySearch) (file : File) : Settings where
  keyName := kmKeyName search file
  hdWallet := kmHdWalletFrom search file
  hdWalletType := kmHdWalletType search file
  deviceHash := kmPrivKeyHashForDevice search file
  sortHashes := kmSortHashes search file
  hiddenHashes := kmHiddenHashes search file

inductive Setter where
  | keyName (testnet : Bool) (name : Data) (index : UInt32)
  | hdWallet (testnet : Bool) (hdWalletData uuid : Data) (type : Int32)
  | deviceHash (hash uuid : Data)
  | sortHashes (testnet : Bool) (hashes : Datas)
  | hiddenHashes (testnet : Bool) (hashes : Datas)

def Setter.run (search : BinarySearch) (file : File) : Setter → Option File
  | .keyName testnet name index => kmSetKeyName search file testnet name index
  | .hdWallet testnet hdWalletData uuid type => kmSetHDWalletForUUID search file testnet hdWalletData uuid type
  | .deviceHash hash uuid => kmSetPrivKeyHashForDevice search file hash uuid
  | .sortHashes testnet hashes => kmSetSortHashes search file testnet hashes
  | .hiddenHashes testnet hashes => kmSetHiddenHashes search file testnet hashes

/-- An empty name or wallet is none. -/
def given (data : Data) : Data := if data.length ≠ 0 then data else none

/-- What was set, and nothing else, has a new value. -/
def Setter.set (settings : Settings) : Setter → Settings
  | .keyName testnet name index =>
    { settings with keyName := fun t i => if t = testnet ∧ i = index then some (given name) else settings.keyName t i }
  | .hdWallet testnet hdWalletData uuid type =>
    { settings with
      hdWallet := fun t u => if t = testnet ∧ u.toBytes = uuid.toBytes then some (given hdWalletData) else settings.hdWallet t u
      hdWalletType := fun t u =>
        if t = testnet ∧ u.toBytes = uuid.toBytes then some (if hdWalletData.length ≠ 0 then type else 0)
        else settings.hdWalletType t u }
  | .deviceHash hash uuid =>
    { settings with deviceHash := fun u => if u.toBytes = uuid.toBytes then some (filled hash) else settings.deviceHash u }
  | .sortHashes testnet hashes =>
    { settings with sortHashes := fun t => if t = testnet then hashes.map filled else settings.sortHashes t }
  | .hiddenHashes testnet hashes =>
    { settings with hiddenHashes := fun t => if t = testnet then hashes.map filled else settings.hiddenHashes t }

/-- The getters, from what they find. -/
def settingsFrom (search : BinarySearch) (found : Slot → Data) : Settings where
  keyName testnet index := (dictDeserialize (found (.keyNames testnet))).bind fun dict =>
    some (dictGet search dict (indexString index))
  hdWallet testnet uuid := (dictDeserialize (found (.hdWallets testnet))).bind fun dict =>
    (dictDeserialize (dictGet search dict uuid)).bind fun item => some (dictGet search item (stringNew knownHDWalletDataKey))
  hdWalletType testnet uuid := (dictDeserialize (found (.hdWallets testnet))).bind fun dict =>
    (dictDeserialize (dictGet search dict uuid)).bind fun item =>
      dataGetInt (dictGet search item (stringNew knownHDWalletTypeKeepKey))
  deviceHash uuid := (dictDeserialize (found .deviceHashes)).bind fun dict => some (dictGet search dict uuid)
  sortHashes testnet := datasDeserialize (found (.sortHashes testnet))
  hiddenHashes testnet := datasDeserialize (found (.hiddenHashes testnet))

theorem settingsOf_eq (file : File) : settingsOf search file = settingsFrom search (contents search file) := rfl

theorem decimal_inj {i j : Nat} (h : decimal i = decimal j) : i = j := by
  have hback : ∀ n, (decimal n).map (fun byte => Char.ofNat byte.toNat) = Nat.toDigits 10 n := by
    intro n
    rw [decimal, List.map_map]
    refine (List.map_congr_left fun digit hdigit => ?_).trans (List.map_id _)
    have hisDigit := Nat.isDigit_of_mem_toDigits (by decide) (by decide) hdigit
    have hsmall : digit.toNat < 256 := by
      simp only [Char.isDigit, Bool.and_eq_true, decide_eq_true_eq] at hisDigit
      have hle : digit.val.toNat ≤ 57 := hisDigit.2
      exact Nat.lt_of_le_of_lt hle (by decide)
    show Char.ofNat (UInt8.ofNat digit.toNat).toNat = digit
    rw [UInt8.toNat_ofNat_of_lt' hsmall, Char.ofNat_toNat]
  have hdigits : Nat.toDigits 10 i = Nat.toDigits 10 j := by rw [← hback, ← hback, h]
  rw [← @Nat.ofDigitChars_toDigits 10 i (by decide) (by decide), hdigits, Nat.ofDigitChars_toDigits (by decide) (by decide)]

theorem indexString_inj {i j : UInt32} : (indexString i).toBytes = (indexString j).toBytes ↔ i = j := by
  constructor
  · intro h
    exact UInt32.toNat_inj.1 (decimal_inj (List.append_cancel_right h))
  · intro h
    rw [h]

theorem given_eq (data : Data) : given data = if data.length ≠ 0 then filled data else none := by
  cases data with
  | none => rfl
  | some bytes => rfl

/-! ## The setters -/

theorem setKeyName_spec {testnet : Bool} {name : Data} {index : UInt32} (h : Sound search file)
    (hsave : kmSetKeyName search file testnet name index = some file') :
    Sound search file' ∧ settingsOf search file' = (Setter.keyName testnet name index).set (settingsOf search file) := by
  obtain ⟨dict, hdict, hsave⟩ := Option.bind_eq_some_iff.1 hsave
  have hascending := h.ascending (.keyNames testnet) rfl dict hdict
  obtain ⟨hsound, hcontents, hsize⟩ := @save_dict search file file' (.keyNames testnet) h _ (ascending_set hascending _) hsave
  refine ⟨hsound, ?_⟩
  rw [settingsOf_eq, settingsOf_eq, hcontents]
  refine Settings.ext ?_ rfl rfl rfl rfl rfl
  funext t i
  show (dictDeserialize (Function.update (contents search file) _ _ _)).bind _ =
    if t = testnet ∧ i = index then some (given name) else kmKeyName search file t i
  by_cases ht : t = testnet
  · rw [ht, Function.update_self, dictDeserialize_serialize (Nat.lt_of_le_of_lt hsize (by decide)), Option.bind_some,
      dictGet_set hascending (filledValues_dictDeserialize hdict)]
    simp only [indexString_inj, true_and]
    split
    · rw [given_eq]
    · exact (congrArg (fun read => read.bind fun dict => some (dictGet search dict (indexString i))) hdict).symm
  · refine Eq.trans ?_ (if_neg fun hboth => ht hboth.1).symm
    rw [Function.update_of_ne (by simpa using ht)]
    rfl

theorem ascending_dictTwo (key1 value1 key2 value2 : Data) : Ascending defaultOrder (dictTwo search key1 value1 key2 value2) :=
  ascending_dictAdd (ascending_dictAdd ascending_nil)

/-- The two values of a wallet's item, read again. -/
theorem dictGet_item (hdWalletData : Data) (type : Int32) :
    dictGet search (filledValues (dictTwo search (stringNew knownHDWalletDataKey) hdWalletData
        (stringNew knownHDWalletTypeKeepKey) (dataInt type))) (stringNew knownHDWalletDataKey) = filled hdWalletData ∧
      dictGet search (filledValues (dictTwo search (stringNew knownHDWalletDataKey) hdWalletData
        (stringNew knownHDWalletTypeKeepKey) (dataInt type))) (stringNew knownHDWalletTypeKeepKey) = filled (dataInt type) := by
  have hfirst : Ascending defaultOrder (dictAdd search [] (stringNew knownHDWalletDataKey) hdWalletData) :=
    ascending_dictAdd ascending_nil
  have hkeys : ¬ (stringNew knownHDWalletDataKey).toBytes = (stringNew knownHDWalletTypeKeepKey).toBytes := by decide
  constructor
  · rw [dictGet, KeysAndValues.dictionaryGetValue, lookup_filledValues (ascending_dictTwo _ _ _ _), dictTwo, dictAdd,
      getValue_addCopy hfirst, if_neg hkeys, dictAdd, getValue_addCopy ascending_nil, if_pos rfl]
    rfl
  · rw [dictGet, KeysAndValues.dictionaryGetValue, lookup_filledValues (ascending_dictTwo _ _ _ _), dictTwo, dictAdd,
      getValue_addCopy hfirst, if_pos rfl]
    rfl

/-- What is read of a wallet after one was set or removed. -/
theorem read_setHdWallet {α : Type} (read : Elements → Option α) {item : Elements} {uuid : Data} {set : Prop} [Decidable set]
    (hdict : Ascending defaultOrder dict) (hfilled : filledValues dict = dict)
    (hsize : (dictionarySerialize (if set then dictAdd search dict uuid (dictionarySerialize item)
      else dictRemove search dict uuid)).length ≤ bsMaxDataSize) (other : Data) :
    ((dictDeserialize (dictionarySerialize (if set then dictAdd search dict uuid (dictionarySerialize item)
        else dictRemove search dict uuid))).bind fun dict => (dictDeserialize (dictGet search dict other)).bind read) =
      if other.toBytes = uuid.toBytes then (if set then read (filledValues item) else read [])
      else (dictDeserialize (dictGet search dict other)).bind read := by
  have hmax : bsMaxDataSize < 2 ^ 31 := by decide
  rw [dictDeserialize_serialize (Nat.lt_of_le_of_lt hsize hmax), Option.bind_some, dictGet_set hdict hfilled]
  split
  · by_cases hset : set
    · rw [if_pos hset] at hsize ⊢
      rw [if_pos hset]
      have hmem : (uuid.toBytes, dictionarySerialize item) ∈ dictAdd search dict uuid (dictionarySerialize item) := by
        rw [dictAdd, ← @getValue_iff_mem search _ _ (ascending_addCopy hdict _ _), getValue_addCopy hdict, if_pos rfl]
      have hle : (dictionarySerialize item).length ≤ _ := length_le_serialize (mem_datas_of_dict hmem)
      have hitem : (dictionarySerialize item).length < 2 ^ 31 :=
        Nat.lt_of_le_of_lt (Nat.le_trans hle hsize) hmax
      have hread : dictDeserialize (filled (dictionarySerialize item)) = some (filledValues item) := dictDeserialize_serialize hitem
      rw [hread, Option.bind_some]
    · rw [if_neg hset, if_neg hset]
      rfl
  · rfl

/-- Both getters of a wallet, for what they read of its item. -/
theorem read_hdWallets {α : Type} (read : Elements → Option α) {item : Elements} {uuid : Data} {testnet : Bool} {set : Prop}
    [Decidable set] (hdict : dictDeserialize (contents search file (.hdWallets testnet)) = some dict)
    (hascending : Ascending defaultOrder dict)
    (hsize : (dictionarySerialize (if set then dictAdd search dict uuid (dictionarySerialize item)
      else dictRemove search dict uuid)).length ≤ bsMaxDataSize)
    (hcontents : contents search file' = Function.update (contents search file) (.hdWallets testnet)
      (dictionarySerialize (if set then dictAdd search dict uuid (dictionarySerialize item) else dictRemove search dict uuid)))
    (t : Bool) (u : Data) :
    ((dictDeserialize (contents search file' (.hdWallets t))).bind fun dict => (dictDeserialize (dictGet search dict u)).bind read) =
      if t = testnet ∧ u.toBytes = uuid.toBytes then (if set then read (filledValues item) else read [])
      else (dictDeserialize (contents search file (.hdWallets t))).bind fun dict =>
        (dictDeserialize (dictGet search dict u)).bind read := by
  by_cases ht : t = testnet
  · rw [hcontents, ht, Function.update_self, read_setHdWallet read hascending (filledValues_dictDeserialize hdict) hsize]
    simp only [true_and]
    split
    · rfl
    · exact (congrArg (fun found => found.bind fun dict => (dictDeserialize (dictGet search dict u)).bind read) hdict).symm
  · rw [hcontents, Function.update_of_ne (by simpa using ht), if_neg fun hboth => ht hboth.1]

theorem setHdWallet_spec {testnet : Bool} {hdWalletData uuid : Data} {type : Int32} (h : Sound search file)
    (hsave : kmSetHDWalletForUUID search file testnet hdWalletData uuid type = some file') :
    Sound search file' ∧
      settingsOf search file' = (Setter.hdWallet testnet hdWalletData uuid type).set (settingsOf search file) := by
  obtain ⟨dict, hdict, hsave⟩ := Option.bind_eq_some_iff.1 hsave
  have hascending := h.ascending (.hdWallets testnet) rfl dict hdict
  obtain ⟨hdata, htype⟩ := @dictGet_item search hdWalletData type
  obtain ⟨hsound, hcontents, hsize⟩ := @save_dict search file file' (.hdWallets testnet) h _ (ascending_set hascending _) hsave
  have hread := fun {α : Type} (read : Elements → Option α) => read_hdWallets read hdict hascending hsize hcontents
  refine ⟨hsound, ?_⟩
  rw [settingsOf_eq, settingsOf_eq]
  refine Settings.ext ?_ ?_ ?_ ?_ ?_ ?_
  · rw [hcontents]
    rfl
  · funext t u
    refine (hread (fun item => some (dictGet search item (stringNew knownHDWalletDataKey))) t u).trans ?_
    rw [hdata]
    show _ = if t = testnet ∧ u.toBytes = uuid.toBytes then some (given hdWalletData) else kmHdWalletFrom search file t u
    split
    · rw [given_eq]
      split <;> rfl
    · rfl
  · funext t u
    refine (hread (fun item => dataGetInt (dictGet search item (stringNew knownHDWalletTypeKeepKey))) t u).trans ?_
    rw [htype, dataGetInt_filled]
    show _ = if t = testnet ∧ u.toBytes = uuid.toBytes then some (if hdWalletData.length ≠ 0 then type else 0)
      else kmHdWalletType search file t u
    split
    · split <;> rfl
    · rfl
  · rw [hcontents]
    rfl
  · rw [hcontents]
    rfl
  · rw [hcontents]
    rfl

theorem setDeviceHash_spec {hash uuid : Data} (h : Sound search file)
    (hsave : kmSetPrivKeyHashForDevice search file hash uuid = some file') :
    Sound search file' ∧ settingsOf search file' = (Setter.deviceHash hash uuid).set (settingsOf search file) := by
  obtain ⟨dict, hdict, hsave⟩ := Option.bind_eq_some_iff.1 hsave
  have hascending := h.ascending .deviceHashes rfl dict hdict
  obtain ⟨hsound, hcontents, hsize⟩ := @save_dict search file file' .deviceHashes h _ (ascending_dictAdd hascending) hsave
  refine ⟨hsound, ?_⟩
  rw [settingsOf_eq, settingsOf_eq, hcontents]
  refine Settings.ext rfl rfl rfl ?_ rfl rfl
  funext u
  show (dictDeserialize (Function.update (contents search file) _ _ _)).bind _ =
    if u.toBytes = uuid.toBytes then some (filled hash) else kmPrivKeyHashForDevice search file u
  rw [Function.update_self, dictDeserialize_serialize (Nat.lt_of_le_of_lt hsize (by decide)), Option.bind_some,
    dictGet_add hascending (filledValues_dictDeserialize hdict)]
  split
  · rfl
  · exact (congrArg (fun read => read.bind fun dict => some (dictGet search dict u)) hdict).symm

/-- Both setters of lists set the sort hashes. -/
theorem setSortHashes_spec {testnet : Bool} {hashes : Datas} (h : Sound search file)
    (hsave : bsSave search file (sortHashesKey testnet) (datasSerialize hashes) = some file') :
    Sound search file' ∧ settingsOf search file' = (Setter.sortHashes testnet hashes).set (settingsOf search file) := by
  obtain ⟨hsound, hcontents, hread⟩ := @save_datas search file file' (.sortHashes testnet) h rfl _ hsave
  refine ⟨hsound, ?_⟩
  rw [settingsOf_eq, settingsOf_eq, hcontents]
  refine Settings.ext rfl rfl rfl rfl ?_ rfl
  funext t
  show datasDeserialize (Function.update (contents search file) _ _ _) =
    if t = testnet then hashes.map filled else kmSortHashes search file t
  by_cases ht : t = testnet
  · rw [ht, Function.update_self, if_pos rfl, hread]
  · rw [if_neg ht, Function.update_of_ne (by simpa using ht)]
    rfl

/-! ## Runs -/

/-- The file, and what was last set. -/
abbrev SettingsState := File × Settings

def settingsStep (search : BinarySearch) (s : SettingsState) (setter : Setter) : Option SettingsState :=
  (setter.run search s.1).map fun file => (file, setter.set s.2)

/-- Every getter returns what was last set. -/
def AsSet (search : BinarySearch) (s : SettingsState) : Prop := settingsOf search s.1 = s.2

/-- Hidden hashes are set only to what the hidden hashes and the sort hashes of the network
    are already (or the list is too long for the store, and the call aborts). -/
def Setter.Harmless (s : SettingsState) : Setter → Prop
  | .hiddenHashes testnet hashes => (datasSerialize hashes).length ≤ bsMaxDataSize →
      s.2.hiddenHashes testnet = hashes.map filled ∧ s.2.sortHashes testnet = hashes.map filled
  | _ => True

theorem set_hidden_iff (settings : Settings) (testnet : Bool) (hashes : Datas) :
    (Setter.sortHashes testnet hashes).set settings = (Setter.hiddenHashes testnet hashes).set settings ↔
      settings.hiddenHashes testnet = hashes.map filled ∧ settings.sortHashes testnet = hashes.map filled := by
  constructor
  · intro heq
    have hhidden := congrFun (congrArg Settings.hiddenHashes heq) testnet
    have hsort := congrFun (congrArg Settings.sortHashes heq) testnet
    simp only [Setter.set, if_true] at hhidden hsort
    exact ⟨hhidden, hsort.symm⟩
  · rintro ⟨hhidden, hsort⟩
    refine Settings.ext rfl rfl rfl rfl ?_ ?_
    · funext t
      show (if t = testnet then hashes.map filled else settings.sortHashes t) = settings.sortHashes t
      split
      · rename_i ht
        rw [ht, hsort]
      · rfl
    · funext t
      show settings.hiddenHashes t = if t = testnet then hashes.map filled else settings.hiddenHashes t
      split
      · rename_i ht
        rw [ht, hhidden]
      · rfl

/-- A setter that does not abort leaves a sound file, and all settings as they were set if it
    is harmless. -/
theorem setter_spec {s next : SettingsState} {setter : Setter} (h : Sound search s.1) (hset : AsSet search s)
    (hnext : settingsStep search s setter = some next) :
    Sound search next.1 ∧ (AsSet search next ↔ setter.Harmless s) := by
  obtain ⟨file, hrun, rfl⟩ := Option.map_eq_some_iff.1 hnext
  rw [AsSet] at hset
  cases setter with
  | keyName testnet name index =>
    obtain ⟨hsound, hsettings⟩ := setKeyName_spec h hrun
    exact ⟨hsound, iff_of_true (by rw [AsSet, hsettings, hset]) trivial⟩
  | hdWallet testnet hdWalletData uuid type =>
    obtain ⟨hsound, hsettings⟩ := setHdWallet_spec h hrun
    exact ⟨hsound, iff_of_true (by rw [AsSet, hsettings, hset]) trivial⟩
  | deviceHash hash uuid =>
    obtain ⟨hsound, hsettings⟩ := setDeviceHash_spec h hrun
    exact ⟨hsound, iff_of_true (by rw [AsSet, hsettings, hset]) trivial⟩
  | sortHashes testnet hashes =>
    obtain ⟨hsound, hsettings⟩ := setSortHashes_spec h hrun
    exact ⟨hsound, iff_of_true (by rw [AsSet, hsettings, hset]) trivial⟩
  | hiddenHashes testnet hashes =>
    obtain ⟨hsound, hsettings⟩ := setSortHashes_spec h hrun
    obtain ⟨dict, hdict⟩ := h.wellFormed
    obtain ⟨-, hsize⟩ := save_fits hdict hrun
    refine ⟨hsound, ?_⟩
    rw [AsSet, hsettings, hset, set_hidden_iff]
    exact ⟨fun heq _ => heq, fun heq => heq hsize⟩

/-- A call that aborts is harmless: its list was too long. -/
theorem harmless_of_abort {s : SettingsState} {setter : Setter} (h : Sound search s.1)
    (habort : settingsStep search s setter = none) : setter.Harmless s := by
  cases setter with
  | hiddenHashes testnet hashes =>
    intro hsize
    obtain ⟨dict, hdict⟩ := h.wellFormed
    have hkey : (stringCopy (stringNew (sortHashesKey testnet))).length ≤ bsMaxKeySize := by cases testnet <;> decide
    obtain ⟨file, hsave, -⟩ := @save_spec search s.1 dict (stringNew (sortHashesKey testnet)) (datasSerialize hashes) hdict hkey hsize
    have hrun : (Setter.hiddenHashes testnet hashes).run search s.1 = some file := hsave
    rw [settingsStep, hrun] at habort
    cases habort
  | _ => trivial

/-- At every moment every getter returns what was last set, exactly in the runs that set no
    hidden hashes other than those that are there. -/
theorem settings_apart_iff (search : BinarySearch) (file : File) (h : Sound search file) (setters : List Setter) :
    Throughout (settingsStep search) (AsSet search) (file, settingsOf search file) setters ↔
      Along (settingsStep search) Setter.Harmless (file, settingsOf search file) setters :=
  @throughout_iff_along _ _ (settingsStep search) (AsSet search) (fun s => Sound search s.1) Setter.Harmless
    (fun _ _ _ hi hg hnext => ⟨fun _ => (setter_spec hi hg hnext).1, (setter_spec hi hg hnext).2⟩)
    (fun _ _ hi _ habort => harmless_of_abort hi habort) _ _ h rfl

def exampleSetters : List Setter :=
  [.keyName false (some [1]) 0, .hdWallet true (some [2]) (some [7]) 1, .sortHashes false [some [3]], .hiddenHashes true []]

theorem settings_apart_fresh :
    Throughout (settingsStep .halving) (AsSet .halving) (none, settingsOf .halving none) exampleSetters := by
  refine (settings_apart_iff .halving none sound_none exampleSetters).2 ⟨trivial, fun _ h => ⟨trivial, fun _ h' => ⟨trivial, ?_⟩⟩⟩
  intro last hlast
  refine ⟨fun _ => ?_, fun _ _ => trivial⟩
  obtain ⟨_, -, rfl⟩ := Option.map_eq_some_iff.1 h
  obtain ⟨_, -, rfl⟩ := Option.map_eq_some_iff.1 h'
  obtain ⟨_, -, rfl⟩ := Option.map_eq_some_iff.1 hlast
  exact ⟨rfl, rfl⟩

/-- What one call of `KMSetHiddenHashes` leaves. -/
def hiddenFile : File :=
  some [14, 0, 0, 0, 115, 111, 114, 116, 72, 97, 115, 104, 101, 115, 75, 101, 121, 0, 5, 0, 0, 0, 1, 0, 0, 0, 1, 0, 0, 0, 0]

/-- One call of `KMSetHiddenHashes` on a fresh store: the hidden hashes are not what was set. -/
theorem not_settings_apart :
    ¬ Throughout (settingsStep .halving) (AsSet .halving) (none, settingsOf .halving none) [.hiddenHashes false [some [1]]] := by
  intro h
  have hrun : kmSetHiddenHashes .halving none false [some [1]] = some hiddenFile := by decide
  have hafter : after (settingsStep .halving) (none, settingsOf .halving none) [.hiddenHashes false [some [1]]] =
      some (hiddenFile, (Setter.hiddenHashes false [some [1]]).set (settingsOf .halving none)) := by
    rw [after, List.foldlM_cons, settingsStep, Setter.run, hrun]
    rfl
  have hset := h _ (List.prefix_refl _) _ hafter
  have hhidden := congrFun (congrArg Settings.hiddenHashes hset) false
  revert hhidden
  decide

end BitcoinSpoon.Keys
