/-
  BitcoinSpoon.Store.Refused — a save that aborts, and the file it leaves
  (`saveEverything`, `code/BasicStorage.c`).

  The sizes are checked in the loop that writes the items, and `fopen` has emptied the file
  by then. The stored items are never too long, so what is refused is the new one, and what
  is left on disk are the items before it in the order of the keys (`load_refused`). The map
  survives exactly if no stored key is equal to the new one or behind it
  (`refusedSave_iff`).

  Nothing is asked of the file: what any bytes load as is sorted and within the limits
  (`loadEverything_loaded`).
-/

import BitcoinSpoon.Store.BasicStorage

namespace BitcoinSpoon.Storage

open Wire Loop KeysAndValues

/-- What `saveEverything` has written when it returns or aborts, and whether it returns. -/
def written : Elements → Bytes × Bool
  | [] => (writeItem none, true)
  | (key, value) :: items =>
    if bsMaxKeySize < key.length then ([], false)
    else if bsMaxDataSize < value.length then ([], false)
    else
      let (rest, returns) := written items
      (writeItem (some key) ++ writeItem value ++ rest, returns)

variable (search : BinarySearch)

/-- The file when `basicStorageSave` has returned or aborted. -/
def fileAfterSave (file : File) (key data : Data) : File :=
  some (written (KeysAndValues.dictionaryAddCopy search defaultOrder (loadEverything search file) (stringCopy key).toBytes data)).1

/-- The map that a file loads as. -/
def storedMap (file : File) (key : Bytes) : Option Bytes :=
  (dictionaryGetValueFlexible search defaultOrder (loadEverything search file) key).map Data.toBytes

variable {search} {file : File} {dict items : Elements} {key data : Data}

/-! ## What is written -/

/-- The items as they are written one behind the other. -/
def itemBytes (items : Elements) : Bytes := items.flatMap fun item => writeItem (some item.1) ++ writeItem item.2

theorem written_append (h : ∀ item ∈ items, Loaded item) (rest : Elements) :
    written (items ++ rest) = (itemBytes items ++ (written rest).1, (written rest).2) := by
  induction items with
  | nil => rfl
  | cons item items ih =>
    obtain ⟨key, value⟩ := item
    obtain ⟨-, hkey, hvalue⟩ := h _ List.mem_cons_self
    rw [List.cons_append, written, if_neg (Nat.not_lt.2 hkey), if_neg (Nat.not_lt.2 hvalue),
      ih fun item hitem => h item (List.mem_cons_of_mem _ hitem)]
    simp only [itemBytes, List.flatMap_cons, List.append_assoc]

/-- Too long a key or value. -/
def OverLimit (item : Bytes × Data) : Prop := bsMaxKeySize < item.1.length ∨ bsMaxDataSize < item.2.length

theorem written_overLimit {item : Bytes × Data} (h : OverLimit item) (rest : Elements) : written (item :: rest) = ([], false) := by
  obtain ⟨key, value⟩ := item
  rw [written]
  rcases h with hkey | hvalue
  · exact if_pos hkey
  · rw [if_pos hvalue, ite_self]

theorem written_small (h : ∀ item ∈ dict, item.1.length ≤ bsMaxKeySize ∧ item.2.length ≤ bsMaxDataSize) :
    written dict = (itemBytes dict ++ writeItem none, true) := by
  induction dict with
  | nil => rfl
  | cons item dict ih =>
    obtain ⟨key, value⟩ := item
    obtain ⟨⟨hkey, hvalue⟩, hrest⟩ := List.forall_mem_cons.1 h
    rw [written, if_neg (Nat.not_lt.2 hkey), if_neg (Nat.not_lt.2 hvalue), ih hrest]
    simp only [itemBytes, List.flatMap_cons, List.append_assoc]

theorem written_aborts (h : ¬ ∀ item ∈ dict, item.1.length ≤ bsMaxKeySize ∧ item.2.length ≤ bsMaxDataSize) : (written dict).2 = false := by
  induction dict with
  | nil => exact absurd (fun item hitem => by cases hitem) h
  | cons item dict ih =>
    obtain ⟨key, value⟩ := item
    rw [written]
    split
    · rfl
    · rename_i hkey
      split
      · rfl
      · rename_i hvalue
        exact ih fun hrest => h (List.forall_mem_cons.2 ⟨⟨Nat.le_of_not_lt hkey, Nat.le_of_not_lt hvalue⟩, hrest⟩)

/-- `saveEverything` is what is written, if it returns. -/
theorem saveEverything_written (dict : Elements) :
    saveEverything dict = if (written dict).2 then some (some (written dict).1) else none := by
  rw [saveEverything]
  split
  · rename_i hall
    rw [written_small hall]
    rfl
  · rename_i hall
    rw [written_aborts hall]
    rfl

theorem basicStorageSave_written {file' : File} (h : basicStorageSave search file key data = some file') :
    fileAfterSave search file key data = file' := by
  rw [basicStorageSave, saveEverything_written] at h
  split at h
  · exact Option.some.inj h
  · cases h

/-! ## What is loaded -/

theorem readItem_length (maxSize : Nat) (bytes : Bytes) : (readItem maxSize bytes).1.length ≤ maxSize := by
  rw [readItem]
  split
  · exact Nat.zero_le _
  · split
    rename_i len rest hlen
    split
    · exact Nat.zero_le _
    · rename_i hsize
      split
      · exact Nat.zero_le _
      · exact Nat.le_trans (List.length_take_le _ _) (Nat.le_of_not_lt hsize)

theorem loaded_addCopy (h : Ascending defaultOrder dict) (hloaded : ∀ item ∈ dict, Loaded item) {item : Bytes × Data}
    (hitem : Loaded item) : ∀ other ∈ KeysAndValues.dictionaryAddCopy search defaultOrder dict item.1 item.2, Loaded other := by
  intro other hother
  have hget := (@getValue_iff_mem search _ _ (ascending_addCopy h item.1 item.2) other.1 other.2).2 hother
  rw [getValue_addCopy h] at hget
  split at hget
  · rename_i heq
    refine ⟨heq ▸ hitem.nonempty, heq ▸ hitem.key, ?_⟩
    rw [← Option.some.inj hget]
    exact hitem.value
  · exact hloaded _ ((getValue_iff_mem h _ _).1 hget)

theorem loadFrom_loaded (rounds : Nat) (bytes : Bytes) (h : Ascending defaultOrder dict) (hloaded : ∀ item ∈ dict, Loaded item) :
    Ascending defaultOrder (loadFrom search rounds bytes dict) ∧ ∀ item ∈ loadFrom search rounds bytes dict, Loaded item := by
  induction rounds generalizing bytes dict with
  | zero => exact ⟨h, hloaded⟩
  | succ rounds ih =>
    have hsucc : loadFrom search (rounds + 1) bytes dict =
        if (readItem bsMaxKeySize bytes).1.length = 0 then dict
        else loadFrom search rounds (readItem bsMaxDataSize (readItem bsMaxKeySize bytes).2).2
          (KeysAndValues.dictionaryAddCopy search defaultOrder dict (readItem bsMaxKeySize bytes).1.toBytes
            (readItem bsMaxDataSize (readItem bsMaxKeySize bytes).2).1) := rfl
    rw [hsucc]
    split
    · exact ⟨h, hloaded⟩
    · rename_i hkey
      have hitem : Loaded ((readItem bsMaxKeySize bytes).1.toBytes, (readItem bsMaxDataSize (readItem bsMaxKeySize bytes).2).1) :=
        ⟨fun hnil => hkey (toBytes_eq_nil.1 hnil), readItem_length _ _, readItem_length _ _⟩
      exact ih _ (ascending_addCopy h _ _) (loaded_addCopy h hloaded hitem)

/-- Whatever is in the file. -/
theorem loadEverything_loaded (search : BinarySearch) (file : File) :
    Ascending defaultOrder (loadEverything search file) ∧ ∀ item ∈ loadEverything search file, Loaded item := by
  cases file with
  | none => exact ⟨ascending_nil, fun item hitem => by cases hitem⟩
  | some bytes => exact loadFrom_loaded _ bytes ascending_nil fun item hitem => by cases hitem

theorem itemBytes_length (items : Elements) : items.length ≤ (itemBytes items).length := by
  induction items with
  | nil => exact Nat.zero_le _
  | cons item items ih =>
    have hcons : itemBytes (item :: items) = writeItem (some item.1) ++ writeItem item.2 ++ itemBytes items := rfl
    rw [hcons, List.length_append, List.length_append, writeItem_length, List.length_cons]
    omega

/-- What is written is loaded, whether the loop has come to its end or not. -/
theorem loadEverything_written (h : Ascending defaultOrder items) (hloaded : ∀ item ∈ items, Loaded item) {rest : Bytes}
    (hend : (readItem bsMaxKeySize rest).1.length = 0) : loadEverything search (some (itemBytes items ++ rest)) = filledValues items := by
  refine (@loadFrom_written search [] items h hloaded rest hend _ ?_).trans (List.nil_append _)
  rw [List.length_append]
  exact Nat.le_trans (itemBytes_length items) (Nat.le_add_right _ _)

/-! ## A save -/

/-- The dictionary that is written, around the new item. -/
theorem saved_split (search : BinarySearch) (file : File) (key data : Data) :
    ∃ before behind, SplitAt defaultOrder (nulEnded key) before behind ∧
      Ascending defaultOrder (before ++ (nulEnded key, data) :: behind) ∧ (∀ item ∈ before ++ behind, Loaded item) ∧
      KeysAndValues.dictionaryAddCopy search defaultOrder (loadEverything search file) (nulEnded key) data =
        before ++ (nulEnded key, data) :: behind ∧
      (loadEverything search file = before ++ behind ∨ ∃ old, loadEverything search file = before ++ (nulEnded key, old) :: behind) := by
  obtain ⟨hascending, hloaded⟩ := loadEverything_loaded search file
  obtain ⟨before, behind, hsplit, hadd, -, hl⟩ := @operations_spec search defaultOrder _ hascending (nulEnded key)
  have hsaved : Ascending defaultOrder (before ++ (nulEnded key, data) :: behind) := by
    have hsorted := @ascending_addCopy search defaultOrder _ hascending (nulEnded key) data
    rwa [hadd] at hsorted
  refine ⟨before, behind, hsplit, hsaved, fun item hitem => hloaded item ?_, hadd data, ?_⟩
  · rcases hl with ⟨old, hold, -⟩ | ⟨hnew, -⟩
    · rw [hold]
      simp only [List.mem_append, List.mem_cons] at hitem ⊢
      tauto
    · rwa [hnew]
  · rcases hl with ⟨old, hold, -⟩ | ⟨hnew, -⟩
    · exact Or.inr ⟨old, hold⟩
    · exact Or.inl hnew

/-- What is refused is the new item. -/
theorem save_eq_none_iff (search : BinarySearch) (file : File) (key data : Data) :
    basicStorageSave search file key data = none ↔ OverLimit (nulEnded key, data) := by
  obtain ⟨before, behind, -, -, hloaded, hadd, -⟩ := saved_split search file key data
  rw [basicStorageSave, ← nulEnded, hadd, saveEverything_written,
    written_append fun item hitem => hloaded item (List.mem_append_left _ hitem)]
  by_cases hover : OverLimit (nulEnded key, data)
  · rw [written_overLimit hover]
    exact iff_of_true rfl hover
  · refine iff_of_false ?_ hover
    rw [OverLimit, not_or] at hover
    rw [written, if_neg hover.1, if_neg hover.2, written_small fun item hitem =>
      ⟨(hloaded item (List.mem_append_right _ hitem)).key, (hloaded item (List.mem_append_right _ hitem)).value⟩]
    intro hnone
    cases hnone

/-- What is not refused is there afterwards, and the rest as before, whatever was in the file. -/
theorem save_any (search : BinarySearch) (file : File) {key data : Data} (h : ¬ OverLimit (nulEnded key, data)) :
    ∃ file', basicStorageSave search file key data = some file' ∧ ∀ other, (basicStorageLoad search file' other).toBytes =
      if nulEnded other = nulEnded key then data.toBytes else (basicStorageLoad search file other).toBytes := by
  obtain ⟨hascending, hloaded⟩ := loadEverything_loaded search file
  have hnew : Loaded (nulEnded key, data) := by
    rw [OverLimit, not_or] at h
    exact ⟨stringCopy_ne_nil key, Nat.le_of_not_lt h.1, Nat.le_of_not_lt h.2⟩
  have hlookup := fun other => @getValue_addCopy search defaultOrder _ hascending (nulEnded key) other data
  have hsorted := @ascending_addCopy search defaultOrder _ hascending (nulEnded key) data
  have hall : ∀ item ∈ KeysAndValues.dictionaryAddCopy search defaultOrder (loadEverything search file) (nulEnded key) data, Loaded item :=
    loaded_addCopy hascending hloaded hnew
  have hsave : basicStorageSave search file key data =
      saveEverything (KeysAndValues.dictionaryAddCopy search defaultOrder (loadEverything search file) (nulEnded key) data) := rfl
  generalize KeysAndValues.dictionaryAddCopy search defaultOrder (loadEverything search file) (nulEnded key) data = saved at *
  have hwritten := written_small fun item hitem => ⟨(hall item hitem).key, (hall item hitem).value⟩
  refine ⟨some (itemBytes saved ++ writeItem none), ?_, fun other => ?_⟩
  · rw [hsave, saveEverything_written, hwritten]
    rfl
  · rw [basicStorageLoad, loadEverything_written hsorted hall rfl, KeysAndValues.dictionaryGetValue, lookup_filledValues hsorted,
      ← nulEnded, hlookup, basicStorageLoad, KeysAndValues.dictionaryGetValue, ← nulEnded]
    split
    · rfl
    · cases dictionaryGetValueFlexible search defaultOrder (loadEverything search file) (nulEnded other) <;> rfl

/-- The items before the new one are left. -/
theorem load_refused (h : OverLimit (nulEnded key, data)) : ∃ before behind, SplitAt defaultOrder (nulEnded key) before behind ∧
    loadEverything search (fileAfterSave search file key data) = filledValues before ∧
    (loadEverything search file = before ++ behind ∨ ∃ old, loadEverything search file = before ++ (nulEnded key, old) :: behind) := by
  obtain ⟨before, behind, hsplit, hascending, hloaded, hadd, hl⟩ := saved_split search file key data
  refine ⟨before, behind, hsplit, ?_, hl⟩
  have hbefore : ∀ item ∈ before, Loaded item := fun item hitem => hloaded item (List.mem_append_left _ hitem)
  rw [fileAfterSave, ← nulEnded, hadd, written_append hbefore, written_overLimit h]
  exact loadEverything_written (ascending_append.1 hascending).1 hbefore rfl

theorem storedMap_isSome (search : BinarySearch) (file : File) (key : Bytes) :
    (storedMap search file key).isSome ↔ ∃ item ∈ loadEverything search file, item.1 = key := by
  rw [storedMap, Option.isSome_map, Option.isSome_iff_exists]
  constructor
  · rintro ⟨value, hget⟩
    exact ⟨(key, value), (getValue_iff_mem (loadEverything_loaded search file).1 _ _).1 hget, rfl⟩
  · rintro ⟨⟨_, value⟩, hmem, rfl⟩
    exact ⟨value, (getValue_iff_mem (loadEverything_loaded search file).1 _ _).2 hmem⟩

/-- A call that returns has written its file. Of one that aborts, the map before it is still
    there exactly if all of its keys are before the new one. -/
theorem refusedSave_iff (search : BinarySearch) (file : File) (key data : Data) :
    (∀ file', basicStorageSave search file key data = some file' → fileAfterSave search file key data = file') ∧
      (basicStorageSave search file key data = none →
        (storedMap search (fileAfterSave search file key data) = storedMap search file ↔
          ∀ item ∈ loadEverything search file, defaultOrder.compare item.1 (nulEnded key) < 0)) := by
  refine ⟨fun file' hreturns => basicStorageSave_written hreturns, fun h => ?_⟩
  obtain ⟨before, behind, hsplit, hleft, hl⟩ := @load_refused search file key data ((save_eq_none_iff search file key data).1 h)
  constructor
  · intro hsame item hitem
    have hthere := (storedMap_isSome search file item.1).2 ⟨item, hitem, rfl⟩
    rw [← hsame, storedMap_isSome, hleft] at hthere
    obtain ⟨left, hmem, hkey⟩ := hthere
    obtain ⟨old, hold, rfl⟩ := List.mem_map.1 hmem
    rw [← hkey]
    exact hsplit.before old hold
  · intro hbefore
    have hall : loadEverything search file = before := by
      rcases hl with hnew | ⟨old, hold⟩
      · cases behind with
        | nil => rw [hnew, List.append_nil]
        | cons first behind =>
          have hlt := hbefore first (by rw [hnew]; simp)
          have hgt := hsplit.behind first List.mem_cons_self
          have heq := defaultOrder.trans _ _ _ hlt hgt
          exact absurd rfl (defaultOrder.ne_of_lt heq)
      · have hself := hbefore (nulEnded key, old) (by rw [hold]; simp)
        exact absurd rfl (defaultOrder.ne_of_lt hself)
    ext1 other
    have hascending := (loadEverything_loaded search file).1
    rw [hall] at hascending
    rw [storedMap, storedMap, hleft, hall, lookup_filledValues hascending, Option.map_map]
    rfl

/-- One byte more than a value may have. -/
def tooLong : Data := some (List.replicate (bsMaxDataSize + 1) 0)

theorem overLimit_tooLong (key : Bytes) : OverLimit (key, tooLong) := by
  refine Or.inr ?_
  show bsMaxDataSize < (List.replicate (bsMaxDataSize + 1) (0 : UInt8)).length
  rw [List.length_replicate]
  exact Nat.lt_succ_self _

/-- A store with the keys "a" and "c". -/
def exampleStore : File := (after (StorageOperation.run .halving) none [.save (some [97]) (some [1]), .save (some [99]) (some [2])]).getD none

theorem refusedSave_behind :
    basicStorageSave .halving exampleStore (some [100]) tooLong = none ∧
      (storedMap .halving (fileAfterSave .halving exampleStore (some [100]) tooLong) = storedMap .halving exampleStore ↔
        ∀ item ∈ loadEverything .halving exampleStore, defaultOrder.compare item.1 (nulEnded (some [100])) < 0) := by
  have hnone := (save_eq_none_iff .halving exampleStore (some [100]) tooLong).2 (overLimit_tooLong _)
  exact ⟨hnone, (refusedSave_iff .halving exampleStore (some [100]) tooLong).2 hnone⟩

/-- With "b" between them, "c" is lost. -/
theorem not_refusedSave : ¬ ∀ (search : BinarySearch) (file : File) (key data : Data), basicStorageSave search file key data = none →
    storedMap search (fileAfterSave search file key data) = storedMap search file := by
  intro h
  have hsame := h .halving exampleStore (some [98]) tooLong ((save_eq_none_iff _ _ _ _).2 (overLimit_tooLong _))
  obtain ⟨before, behind, hsplit, hleft, -⟩ := @load_refused .halving exampleStore (some [98]) tooLong (overLimit_tooLong _)
  have hthere : (storedMap .halving exampleStore [99, 0]).isSome = true := by decide
  rw [← hsame, storedMap_isSome, hleft] at hthere
  obtain ⟨left, hmem, hkey⟩ := hthere
  obtain ⟨old, hold, rfl⟩ := List.mem_map.1 hmem
  have hlt := hsplit.before old hold
  rw [hkey] at hlt
  revert hlt
  decide

end BitcoinSpoon.Storage
