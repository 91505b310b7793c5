/-
  BitcoinSpoon.Store.BasicStorage — one file of keys and values (`code/BasicStorage.c`).

  Every call reads the whole file into a dictionary and a save writes all of it again: each
  key and value after its length, and an empty key at the end. Keys are strings: one without
  a NUL at its end is given one, and so `"a"` and `"a\0"` are one key. `Holds` says what a
  file is after any calls; reading such a file gives the dictionary back
  (`loadEverything_holds`), so a save is an insertion (`save_spec`) and the store is a map
  (`storage_refines_map`).

  The file name is set and the file can be opened for writing. `none` is `abort()`.
-/

import BitcoinSpoon.Loop.Runs
import BitcoinSpoon.Util.RoundTrips

namespace BitcoinSpoon.Storage

open Wire Loop KeysAndValues

def bsMaxKeySize : Nat := 1024

def bsMaxDataSize : Nat := 10 * 1024 * 1024

/-- `StringCopy`: with a NUL at the end. -/
def stringCopy (string : Data) : Data :=
  if string.toBytes.getLast? = some 0 then string else dataAdd string (some [0])

/-- What the file holds; `none` if there is none. -/
abbrev File := Option Bytes

def writeItem (item : Data) : Bytes := uint32D item.length ++ item.toBytes

/-- An item that is cut off takes what is left with it. -/
def readItem (maxSize : Nat) : Reader Data := fun file =>
  if file.length < 4 then (none, [])
  else
    let (len, file) := readLE 4 file
    if maxSize < len then (none, file)
    else if file.length < len then (none, [])
    else (some (file.take len), file.drop len)

variable (search : BinarySearch)

/-- The loop of `loadEverything`; every round but the last takes five bytes. -/
def loadFrom : Nat → Bytes → Elements → Elements
  | 0, _, dict => dict
  | rounds + 1, file, dict =>
    let (key, file) := readItem bsMaxKeySize file
    if key.length = 0 then dict
    else
      let (value, file) := readItem bsMaxDataSize file
      loadFrom rounds file (KeysAndValues.dictionaryAddCopy search defaultOrder dict key.toBytes value)

def loadEverything (file : File) : Elements :=
  match file with
  | none => []
  | some bytes => loadFrom search bytes.length bytes []

def saveEverything (dict : Elements) : Option File :=
  if ∀ item ∈ dict, item.1.length ≤ bsMaxKeySize ∧ item.2.length ≤ bsMaxDataSize then
    some (some (dict.flatMap (fun item => writeItem (some item.1) ++ writeItem item.2) ++ writeItem none))
  else none

def basicStorageSave (file : File) (key data : Data) : Option File :=
  saveEverything (KeysAndValues.dictionaryAddCopy search defaultOrder (loadEverything search file) (stringCopy key).toBytes data)

def basicStorageLoad (file : File) (key : Data) : Data :=
  KeysAndValues.dictionaryGetValue search defaultOrder (loadEverything search file) (stringCopy key).toBytes

def basicStorageDeleteAll : Option File := saveEverything []

/-! ## What a file is -/

/-- An item that can be in the file; its value is not NULL. -/
structure Stored (item : Bytes × Data) : Prop where
  nonempty : item.1 ≠ []
  key : item.1.length ≤ bsMaxKeySize
  value : ∃ bytes : Bytes, item.2 = some bytes ∧ bytes.length ≤ bsMaxDataSize

/-- The file is what the dictionary is written as. -/
structure Holds (file : File) (dict : Elements) : Prop where
  ascending : Ascending defaultOrder dict
  stored : ∀ item ∈ dict, Stored item
  content : (file = none ∧ dict = []) ∨ saveEverything dict = some file

variable {search} {file file' : File} {dict : Elements} {key data : Data}

theorem stringCopy_ne_nil (string : Data) : (stringCopy string).toBytes ≠ [] := by
  rw [stringCopy]
  split
  · rename_i hlast
    intro hnil
    rw [hnil] at hlast
    cases hlast
  · rw [toBytes_dataAdd]
    simp

theorem writeItem_length (item : Data) : (writeItem item).length = 4 + item.length := by
  rw [writeItem, List.length_append, uint32D, leBytes_length]
  rfl

theorem readItem_writeItem {maxSize : Nat} {item : Data} (h : item.length ≤ maxSize) (hmax : maxSize < 2 ^ 32) :
    Reads (readItem maxSize) (writeItem item) (filled item) := by
  intro rest
  have hlen : item.toBytes.length = item.length := rfl
  have hread : readLE 4 (uint32D item.length ++ (item.toBytes ++ rest)) = (item.length, item.toBytes ++ rest) :=
    Reads.readLE (by omega) _
  have hshort : ¬ (uint32D item.length ++ (item.toBytes ++ rest)).length < 4 := by
    rw [List.length_append, uint32D, leBytes_length]
    omega
  rw [readItem, writeItem, List.append_assoc, if_neg hshort, hread]
  dsimp only
  rw [if_neg (Nat.not_lt.2 h), if_neg (by rw [List.length_append]; omega), List.take_left' hlen, List.drop_left' hlen]
  rfl

/-- A key behind all others is put at the end. -/
theorem addCopy_last {bytes : Bytes} {value : Data} (h : Ascending defaultOrder (dict ++ [(bytes, value)])) :
    KeysAndValues.dictionaryAddCopy search defaultOrder dict bytes value = dict ++ [(bytes, value)] := by
  obtain ⟨hdict, -, hlast⟩ := ascending_append.1 h
  have hbefore : ∀ item ∈ dict, defaultOrder.compare item.1 bytes < 0 := fun item hitem => hlast item hitem _ List.mem_cons_self
  obtain ⟨pre, post, hsplit, hadd, -, hl⟩ := @operations_spec search defaultOrder dict hdict bytes
  rcases hl with ⟨old, hold, -⟩ | ⟨hnew, -⟩
  · have hself := hbefore (bytes, old) (by rw [hold]; simp)
    exact absurd rfl (defaultOrder.ne_of_lt hself)
  · cases post with
    | nil => rw [hadd, hnew, List.append_nil]
    | cons first post =>
      have hlt := hbefore first (by rw [hnew]; simp)
      have hgt := hsplit.behind first List.mem_cons_self
      have heq := defaultOrder.trans _ _ _ hlt hgt
      exact absurd rfl (defaultOrder.ne_of_lt heq)

/-- An item of a dictionary that was loaded; a value that was cut off is NULL. -/
structure Loaded (item : Bytes × Data) : Prop where
  nonempty : item.1 ≠ []
  key : item.1.length ≤ bsMaxKeySize
  value : item.2.length ≤ bsMaxDataSize

theorem Stored.loaded {item : Bytes × Data} (h : Stored item) : Loaded item := by
  obtain ⟨hne, hkey, bytes, hbytes, hvalue⟩ := h
  exact ⟨hne, hkey, by rw [hbytes]; exact hvalue⟩

/-- The items are added one behind the other, up to where there is no key. -/
theorem loadFrom_written {items : Elements} (hsorted : Ascending defaultOrder (dict ++ items)) (hloaded : ∀ item ∈ items, Loaded item)
    {rest : Bytes} (hend : (readItem bsMaxKeySize rest).1.length = 0) {rounds : Nat} (hrounds : items.length ≤ rounds) :
    loadFrom search rounds (items.flatMap (fun item => writeItem (some item.1) ++ writeItem item.2) ++ rest) dict =
      dict ++ filledValues items := by
  induction items generalizing dict rounds with
  | nil =>
    rw [List.flatMap_nil, List.nil_append]
    cases rounds with
    | zero => exact (List.append_nil dict).symm
    | succ rounds =>
      rw [loadFrom]
      exact (if_pos hend).trans (List.append_nil dict).symm
  | cons item items ih =>
    obtain ⟨rounds, rfl⟩ : ∃ k, rounds = k + 1 := ⟨rounds - 1, by rw [List.length_cons] at hrounds; omega⟩
    obtain ⟨bytes, value⟩ := item
    obtain ⟨hne, hkey, hvalue⟩ := hloaded _ List.mem_cons_self
    have hrest : Ascending defaultOrder ((dict ++ [(bytes, filled value)]) ++ items) := by
      rw [List.append_assoc]
      exact hsorted.split.put hsorted.drop
    have hlast := (ascending_append.1 hrest).1
    rw [List.flatMap_cons, List.append_assoc, List.append_assoc, loadFrom,
      @readItem_writeItem bsMaxKeySize (some bytes) hkey (by decide)]
    dsimp only
    have hkeyed : ¬ (filled (some bytes)).length = 0 := fun hzero => hne (List.length_eq_zero_iff.1 hzero)
    rw [if_neg hkeyed, @readItem_writeItem bsMaxDataSize value hvalue (by decide)]
    dsimp only [filled_toBytes, toBytes_some]
    rw [addCopy_last hlast, ih hrest (fun item hitem => hloaded item (List.mem_cons_of_mem _ hitem))
      (by rw [List.length_cons] at hrounds; omega), List.append_assoc]
    rfl

theorem filledValues_stored (h : ∀ item ∈ dict, Stored item) : filledValues dict = dict := by
  refine (List.map_congr_left fun item hitem => ?_).trans (List.map_id dict)
  obtain ⟨-, -, bytes, hvalue, -⟩ := h item hitem
  show (item.1, filled item.2) = item
  rw [hvalue]
  show (item.1, some bytes) = item
  rw [← hvalue]

theorem loadFrom_items {rest : Elements} (hsorted : Ascending defaultOrder (dict ++ rest)) (hstored : ∀ item ∈ rest, Stored item)
    {rounds : Nat} (hrounds : rest.length < rounds) :
    loadFrom search rounds (rest.flatMap (fun item => writeItem (some item.1) ++ writeItem item.2) ++ writeItem none) dict =
      dict ++ rest := by
  rw [loadFrom_written hsorted (fun item hitem => (hstored item hitem).loaded) rfl (Nat.le_of_lt hrounds), filledValues_stored hstored]

theorem loadEverything_holds (h : Holds file dict) : loadEverything search file = dict := by
  obtain ⟨hsorted, hstored, ⟨rfl, rfl⟩ | hsave⟩ := h
  · rfl
  rw [saveEverything] at hsave
  split at hsave
  · cases hsave
    rw [loadEverything]
    refine (@loadFrom_items search [] dict hsorted hstored _ ?_).trans (List.nil_append dict)
    rw [List.length_append, writeItem_length]
    have hlen : dict.length ≤ (dict.flatMap fun item => writeItem (some item.1) ++ writeItem item.2).length := by
      rw [List.length_flatMap]
      have hle := List.length_le_sum_of_one_le (dict.map fun item => (writeItem (some item.1) ++ writeItem item.2).length) (by
        intro n hn
        obtain ⟨item, -, rfl⟩ := List.mem_map.1 hn
        rw [List.length_append, writeItem_length]
        omega)
      rwa [List.length_map] at hle
    omega
  · cases hsave

theorem load_holds (h : Holds file dict) (key : Data) :
    basicStorageLoad search file key = (dictionaryGetValueFlexible search defaultOrder dict (stringCopy key).toBytes).getD none := by
  rw [basicStorageLoad, loadEverything_holds h, KeysAndValues.dictionaryGetValue]

/-! ## Saving -/

/-- A value that is NULL is written as an empty one. -/
theorem saveEverything_filled (dict : Elements) : saveEverything (filledValues dict) = saveEverything dict := by
  simp only [saveEverything, filledValues, List.forall_mem_map, List.flatMap_map]
  rfl

theorem filledValues_addCopy (h : Holds file dict) (bytes : Bytes) (value : Data) :
    filledValues (KeysAndValues.dictionaryAddCopy search defaultOrder dict bytes value) =
      KeysAndValues.dictionaryAddCopy search defaultOrder dict bytes (filled value) := by
  obtain ⟨pre, post, -, hadd, -, hl⟩ := @operations_spec search defaultOrder dict h.ascending bytes
  have hparts : ∀ item ∈ pre ++ post, Stored item := by
    intro item hitem
    refine h.stored item ?_
    rcases hl with ⟨old, hold, -⟩ | ⟨hnew, -⟩
    · rw [hold]
      simp only [List.mem_append, List.mem_cons] at hitem ⊢
      tauto
    · rwa [hnew]
  have hpre := filledValues_stored fun item hitem => hparts item (List.mem_append_left post hitem)
  have hpost := filledValues_stored fun item hitem => hparts item (List.mem_append_right pre hitem)
  rw [hadd, hadd, filledValues, List.map_append, List.map_cons, ← filledValues, ← filledValues, hpre, hpost]

/-- A save of what is small enough inserts it. -/
theorem save_spec (h : Holds file dict) (hkey : (stringCopy key).length ≤ bsMaxKeySize) (hdata : data.length ≤ bsMaxDataSize) :
    ∃ file', basicStorageSave search file key data = some file' ∧
      Holds file' (KeysAndValues.dictionaryAddCopy search defaultOrder dict (stringCopy key).toBytes (filled data)) := by
  have hascending := @ascending_addCopy search defaultOrder dict h.ascending (stringCopy key).toBytes (filled data)
  have hstored : ∀ item ∈ KeysAndValues.dictionaryAddCopy search defaultOrder dict (stringCopy key).toBytes (filled data), Stored item := by
    intro item hitem
    have hget := (@getValue_iff_mem search _ _ hascending item.1 item.2).2 hitem
    rw [getValue_addCopy h.ascending] at hget
    split at hget
    · rename_i heq
      refine ⟨?_, ?_, data.toBytes, (Option.some.inj hget).symm, hdata⟩
      · rw [heq]
        exact stringCopy_ne_nil key
      · rw [heq]
        exact hkey
    · exact h.stored item ((getValue_iff_mem h.ascending _ _).1 hget)
  have hsmall : ∀ item ∈ KeysAndValues.dictionaryAddCopy search defaultOrder dict (stringCopy key).toBytes (filled data),
      item.1.length ≤ bsMaxKeySize ∧ item.2.length ≤ bsMaxDataSize := by
    intro item hitem
    obtain ⟨-, hkey, bytes, hvalue, hlength⟩ := hstored item hitem
    exact ⟨hkey, by rw [hvalue]; exact hlength⟩
  refine ⟨_, ?_, hascending, hstored, Or.inr (if_pos hsmall)⟩
  rw [basicStorageSave, loadEverything_holds h, ← saveEverything_filled, filledValues_addCopy h]
  exact if_pos hsmall

/-- What is not small enough aborts. -/
theorem save_fits (h : Holds file dict) (hsave : basicStorageSave search file key data = some file') :
    (stringCopy key).length ≤ bsMaxKeySize ∧ data.length ≤ bsMaxDataSize := by
  rw [basicStorageSave, loadEverything_holds h, saveEverything] at hsave
  split at hsave
  · rename_i hsmall
    refine hsmall ((stringCopy key).toBytes, data) ?_
    rw [← @getValue_iff_mem search _ _ (ascending_addCopy h.ascending _ _), getValue_addCopy h.ascending, if_pos rfl]
  · cases hsave

/-- A file that calls have left, or none. -/
def WellFormed (file : File) : Prop := ∃ dict, Holds file dict

theorem wellFormed_none : WellFormed none := ⟨[], ascending_nil, by simp, Or.inl ⟨rfl, rfl⟩⟩

theorem wellFormed_deleteAll : ∃ file, basicStorageDeleteAll = some file ∧ Holds file [] :=
  ⟨_, rfl, ascending_nil, by simp, Or.inr rfl⟩

/-- A load gives what was saved under the key, or what it gave before. -/
theorem load_save (h : WellFormed file) (hsave : basicStorageSave search file key data = some file') :
    WellFormed file' ∧ ∀ other, basicStorageLoad search file' other =
      if (stringCopy other).toBytes = (stringCopy key).toBytes then filled data else basicStorageLoad search file other := by
  obtain ⟨dict, hdict⟩ := h
  obtain ⟨hkey, hdata⟩ := save_fits hdict hsave
  obtain ⟨saved, hsaved, hholds⟩ := @save_spec search file dict key data hdict hkey hdata
  rw [hsave] at hsaved
  cases hsaved
  refine ⟨⟨_, hholds⟩, fun other => ?_⟩
  rw [load_holds hholds, load_holds hdict, getValue_addCopy hdict.ascending]
  split <;> rfl

/-! ## The store as a map -/

inductive StorageOperation where
  | save (key data : Data)
  | load (key : Data)
  | deleteAll

def StorageOperation.run (search : BinarySearch) (file : File) : StorageOperation → Option File
  | .save key data => basicStorageSave search file key data
  | .load _ => some file
  | .deleteAll => basicStorageDeleteAll

/-- How keys are told apart: `name` gives the bytes of a key that count. -/
def StorageOperation.Allowed (name : Data → Bytes) : StorageOperation → Prop
  | .save key data => 0 < (name key).length ∧ (name key).length ≤ bsMaxKeySize ∧ data.length ≤ bsMaxDataSize
  | _ => True

/-- What was last saved under each name since the last time all was deleted. -/
def StorageOperation.savedUnder (name : Data → Bytes) (saved : Bytes → Option Bytes) : StorageOperation → Bytes → Option Bytes
  | .save key data => Function.update saved (name key) (some data.toBytes)
  | .load _ => saved
  | .deleteAll => fun _ => none

/-- No call aborts, a load returns what was last saved under the name of its key, and a save
    changes no load of another name. -/
def IsMap (search : BinarySearch) (name : Data → Bytes) (operations : List StorageOperation) : Prop :=
  ∃ file, after (StorageOperation.run search) none operations = some file ∧
    (∀ key, basicStorageLoad search file key = operations.foldl (StorageOperation.savedUnder name) (fun _ => none) (name key)) ∧
    ∀ key data, (StorageOperation.save key data).Allowed name → ∃ file', basicStorageSave search file key data = some file' ∧
      ∀ other, name other ≠ name key → basicStorageLoad search file' other = basicStorageLoad search file other

def nulEnded (key : Data) : Bytes := (stringCopy key).toBytes

theorem run_map {operations : List StorageOperation} (hall : ∀ operation ∈ operations, operation.Allowed nulEnded)
    {saved : Bytes → Option Bytes} (h : WellFormed file) (hsaved : ∀ key, basicStorageLoad search file key = saved (nulEnded key)) :
    ∃ file', after (StorageOperation.run search) file operations = some file' ∧ WellFormed file' ∧
      ∀ key, basicStorageLoad search file' key = operations.foldl (StorageOperation.savedUnder nulEnded) saved (nulEnded key) := by
  induction operations generalizing file saved with
  | nil => exact ⟨file, rfl, h, hsaved⟩
  | cons operation operations ih =>
    have hrest : ∀ operation ∈ operations, operation.Allowed nulEnded := fun o ho => hall o (List.mem_cons_of_mem _ ho)
    cases operation with
    | save key data =>
      obtain ⟨-, hkey, hdata⟩ := hall _ List.mem_cons_self
      obtain ⟨dict, hdict⟩ := h
      obtain ⟨next, hnext, -⟩ := @save_spec search file dict key data hdict hkey hdata
      obtain ⟨hwell, hload⟩ := load_save ⟨dict, hdict⟩ hnext
      have hrun : StorageOperation.run search file (.save key data) = some next := hnext
      rw [after_cons hrun]
      refine ih hrest hwell fun other => ?_
      rw [hload, StorageOperation.savedUnder, Function.update_apply]
      split
      · rename_i heq
        exact (if_pos heq).symm
      · rename_i hne
        exact (hsaved other).trans (if_neg hne).symm
    | load key => exact ih hrest h hsaved
    | deleteAll =>
      obtain ⟨next, hnext, hholds⟩ := wellFormed_deleteAll
      have hrun : StorageOperation.run search file .deleteAll = some next := hnext
      rw [after_cons hrun]
      refine ih hrest ⟨_, hholds⟩ fun other => ?_
      rw [load_holds hholds]
      rfl

/-- With keys told apart by their form with a NUL at the end, the store is a map. -/
theorem storage_refines_map (search : BinarySearch) (operations : List StorageOperation)
    (hall : ∀ operation ∈ operations, operation.Allowed nulEnded) : IsMap search nulEnded operations := by
  obtain ⟨file, hrun, hwell, hload⟩ := @run_map search none operations hall (fun _ => none) wellFormed_none fun _ => rfl
  refine ⟨file, hrun, hload, fun key data hallowed => ?_⟩
  obtain ⟨-, hkey, hdata⟩ := hallowed
  obtain ⟨dict, hdict⟩ := hwell
  obtain ⟨next, hnext, -⟩ := @save_spec search file dict key data hdict hkey hdata
  refine ⟨next, hnext, fun other hother => ?_⟩
  exact ((load_save ⟨dict, hdict⟩ hnext).2 other).trans (if_neg hother)

def exampleSaves : List StorageOperation := [.save (some [97]) (some [1]), .save (some [97, 0]) (some [2])]

/-- Two keys, the second with no value. -/
theorem storage_refines_map_two :
    (∀ operation ∈ [StorageOperation.save (some [97]) (some [1]), .save (some [98]) none, .load (some [97])],
        operation.Allowed nulEnded) ∧
      IsMap .halving nulEnded [.save (some [97]) (some [1]), .save (some [98]) none, .load (some [97])] := by
  have hall : ∀ operation ∈ [StorageOperation.save (some [97]) (some [1]), .save (some [98]) none, .load (some [97])],
      operation.Allowed nulEnded := by
    intro operation hmem
    simp only [List.mem_cons, List.not_mem_nil, or_false] at hmem
    rcases hmem with rfl | rfl | rfl
    · exact ⟨by decide, by decide, by decide⟩
    · exact ⟨by decide, by decide, by decide⟩
    · trivial
  exact ⟨hall, storage_refines_map .halving _ hall⟩

/-- `"a"` and `"a\0"` are two strings and one key: the first one loads what was saved under
    the second. -/
theorem not_storage_apart :
    (∀ operation ∈ exampleSaves, operation.Allowed Data.toBytes) ∧ ¬ IsMap .halving Data.toBytes exampleSaves := by
  constructor
  · intro operation hmem
    simp only [exampleSaves, List.mem_cons, List.not_mem_nil, or_false] at hmem
    rcases hmem with rfl | rfl
    · exact ⟨by decide, by decide, by decide⟩
    · exact ⟨by decide, by decide, by decide⟩
  · rintro ⟨file, hrun, hload, -⟩
    have hfile : after (StorageOperation.run .halving) none exampleSaves = some (some
        [2, 0, 0, 0, 97, 0, 1, 0, 0, 0, 2, 0, 0, 0, 0]) := by decide
    rw [hfile] at hrun
    cases hrun
    have hfirst := hload (some [97])
    revert hfirst
    decide

end BitcoinSpoon.Storage
