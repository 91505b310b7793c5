/-
  BitcoinSpoon.Keys.Import — a new master key, stopped between two writes
  (`KMImportMasterPrivKey`, `KMGenerateMasterPrivKey`, `code/KeyManager.c`).

  The new key is added behind the stored ones and then swapped with the master key. The swap
  is two writes: the master key goes over the new one, and then the new one over the master
  key (`importWrites_swap`). A stored key is in some file all the time
  (`stored_present`). In between the new key is in memory alone, unless it was stored before
  (`keepsKeys_iff`); without a master key, or with a key that is too short to be read, there
  is no swap.

  A call is its writes in order, and a run is stopped after some of them (`stopped`). Each
  write is atomic.
-/

import BitcoinSpoon.Keys.Caches

namespace BitcoinSpoon.Keys

open Wire Loop KeysAndValues Storage

variable (c : HdCrypto)

/-! ## The writes -/

/-- The calls of `KMSetPrivKey` of `KMSwapPrivKey`. -/
def swapWrites (self : KeyManager) (indexA indexB : Nat) : List (Data × Nat) :=
  let keyA := kmPrivKeyAtIndex self indexA
  let keyB := kmPrivKeyAtIndex self indexB
  if keyA.length = 0 ∨ keyB.length = 0 then []
  else if indexA = indexB then []
  else [(keyA, indexB), (keyB, indexA)]

/-- Those of `KMImportMasterPrivKey`: the one of `KMAddPrivKey`, and those of the swap. -/
def importWrites (self : KeyManager) (key : Data) : List (Data × Nat) :=
  let (index, added) := kmAddPrivKey c self key
  (key, index) :: swapWrites added 0 index

inductive MasterCall where
  | importMasterPrivKey (key : Data)
  | generateMasterPrivKey (entropy uniqueData : Data)

/-- The new key. -/
def MasterCall.key : MasterCall → Data
  | .importMasterPrivKey key => key
  | .generateMasterPrivKey entropy uniqueData => hash256 c.toCrypto (dataAdd entropy uniqueData)

def MasterCall.run (self : KeyManager) : MasterCall → KeyManager
  | .importMasterPrivKey key => kmImportMasterPrivKey c self key
  | .generateMasterPrivKey entropy uniqueData => kmGenerateMasterPrivKey c self entropy uniqueData

def writeAll (self : KeyManager) (writes : List (Data × Nat)) : KeyManager :=
  writes.foldl (fun self (data, index) => kmSetPrivKey self data index) self

/-- The call is stopped after so many of its writes. -/
def MasterCall.stopped (self : KeyManager) (call : MasterCall) (writes : Nat) : KeyManager :=
  writeAll self ((importWrites c self (call.key c)).take writes)

/-! ## Keys in files -/

def fileAt (self : KeyManager) (testnet : Bool) (index : Nat) : Option Bytes := (self.files testnet)[index]?.getD none

/-- A file of the network starts with the key, as far as a key is read. -/
def Present (self : KeyManager) (testnet : Bool) (key : Data) : Prop :=
  ∃ index bytes, fileAt self testnet index = some bytes ∧ bytes.take 32 = key.toBytes.take 32

/-- Each key that was stored is in some file. -/
def KeepsStored (self later : KeyManager) : Prop :=
  ∀ testnet index key, readKey (fileAt self testnet index) = some key → Present later testnet (some key)

/-- Wherever the call is stopped, and when it returns, each key that was stored is in some
    file, and so is the new one from the first write on. -/
def KeepsKeys (self : KeyManager) (call : MasterCall) : Prop :=
  (∀ writes, KeepsStored self (call.stopped c self writes) ∧
      (1 ≤ writes → Present (call.stopped c self writes) self.testnet (call.key c))) ∧
    KeepsStored self (call.run c self) ∧ Present (call.run c self) self.testnet (call.key c)

/-- There is no master key to swap with, or nothing that could be read to be swapped, or the
    new key is stored already. -/
def NeedsNoSwap (self : KeyManager) (call : MasterCall) : Prop :=
  (kmPrivKeyAtIndex self 0).length = 0 ∨ (call.key c).length < 32 ∨ Present self self.testnet (call.key c)

variable {c} {self : KeyManager} {key data : Data} {testnet : Bool} {index : Nat}

/-! ## One write -/

theorem readKey_eq_some {file : Option Bytes} {key : Bytes} (h : readKey file = some key) :
    ∃ bytes, file = some bytes ∧ 32 ≤ bytes.length ∧ key = bytes.take 32 := by
  cases file with
  | none => cases h
  | some bytes =>
    rw [readKey] at h
    split at h
    · cases h
    · rename_i hlong
      exact ⟨bytes, rfl, Nat.le_of_not_lt hlong, (Option.some.inj h).symm⟩

theorem readKey_length {file : Option Bytes} : (readKey file).length = 0 ↔ readKey file = none := by
  constructor
  · intro h
    cases hread : readKey file with
    | none => rfl
    | some key =>
      obtain ⟨bytes, -, hlong, rfl⟩ := readKey_eq_some hread
      rw [hread, length_some, List.length_take] at h
      omega
  · intro h
    rw [h]
    rfl

theorem setFile_getD (files : List (Option Bytes)) (index : Nat) (bytes : Bytes) (i : Nat) :
    (setFile files index bytes)[i]?.getD none = if i = index then some bytes else files[i]?.getD none := by
  rw [setFile]
  split
  · rename_i hlt
    rw [List.getElem?_set]
    by_cases hi : i = index
    · subst hi
      rw [if_pos rfl, if_pos hlt, if_pos rfl]
      rfl
    · rw [if_neg (Ne.symm hi), if_neg hi]
  · rename_i hge
    by_cases hi : i = index
    · rw [if_pos hi, List.getElem?_append_right (by simp; omega)]
      have hlast : i - (files ++ List.replicate (index - files.length) none).length = 0 := by simp; omega
      rw [hlast]
      rfl
    · rw [if_neg hi]
      by_cases hold : i < files.length
      · rw [List.getElem?_append_left (by simp; omega), List.getElem?_append_left hold]
      · rw [List.getElem?_eq_none (Nat.le_of_not_lt hold)]
        by_cases hgap : i < index
        · rw [List.getElem?_append_left (by simp; omega), List.getElem?_append_right (Nat.le_of_not_lt hold), List.getElem?_replicate,
            if_pos (by omega)]
          rfl
        · rw [List.getElem?_eq_none (by simp; omega)]

theorem fileAt_setPrivKey (self : KeyManager) (data : Data) (index : Nat) (testnet : Bool) (i : Nat) :
    fileAt (kmSetPrivKey self data index) testnet i =
      if testnet = self.testnet ∧ i = index then some data.toBytes else fileAt self testnet i := by
  show (Function.update self.files self.testnet (setFile (self.files self.testnet) index data.toBytes) testnet)[i]?.getD none = _
  by_cases hnet : testnet = self.testnet
  · subst hnet
    rw [Function.update_self, setFile_getD]
    simp only [true_and]
    rfl
  · rw [Function.update_of_ne hnet, if_neg fun h => hnet h.1]
    rfl

theorem present_written (self : KeyManager) (data : Data) (index : Nat) (h : data.toBytes.take 32 = key.toBytes.take 32) :
    Present (kmSetPrivKey self data index) self.testnet key :=
  ⟨index, data.toBytes, by rw [fileAt_setPrivKey, if_pos ⟨rfl, rfl⟩], h⟩

theorem present_kept {bytes : Bytes} {i : Nat} (hfile : fileAt self testnet i = some bytes) (hkey : bytes.take 32 = key.toBytes.take 32)
    (hother : ¬ (testnet = self.testnet ∧ i = index)) : Present (kmSetPrivKey self data index) testnet key :=
  ⟨i, bytes, by rw [fileAt_setPrivKey, if_neg hother, hfile], hkey⟩

/-! ## The place of the new key -/

/-- The cached hashes are those of the stored keys. -/
def HashesRight (c : HdCrypto) (self : KeyManager) : Prop := self.privKeyHashCache = [] ∨ self.privKeyHashCache = storedHashes c self

/-- The first number whose file has no key. -/
theorem hashesFrom_length (c : HdCrypto) (files : List (Option Bytes)) :
    readKey (files[(hashesFrom c files).length]?.getD none) = none ∧
      ((hashesFrom c files).length = 0 ↔ readKey (files[0]?.getD none) = none) := by
  induction files with
  | nil => exact ⟨rfl, iff_of_true rfl rfl⟩
  | cons file files ih =>
    rw [hashesFrom]
    split
    · rename_i hempty
      have hnone := readKey_length.1 hempty
      exact ⟨hnone, iff_of_true rfl hnone⟩
    · rename_i hkey
      exact ⟨ih.1, iff_of_false (Nat.succ_ne_zero _) fun hnone => hkey (readKey_length.2 hnone)⟩

theorem allPrivKeyHashes_right (h : HashesRight c self) :
    (kmAllPrivKeyHashes c self).1 = hashesFrom c (self.files self.testnet) ∧
      ∃ cache, (kmAllPrivKeyHashes c self).2 = { self with privKeyHashCache := cache } := by
  rw [kmAllPrivKeyHashes]
  split
  · exact ⟨rfl, _, rfl⟩
  · rename_i hfull
    rcases h with hempty | hright
    · rw [hempty] at hfull
      exact absurd rfl hfull
    · exact ⟨hright.trans (hashesFrom_eq c _).symm, self.privKeyHashCache, rfl⟩

/-- The new key is put where there is none, at index 0 if there is no master key. -/
theorem addPrivKey_right (h : HashesRight c self) (key : Data) :
    ∃ index cache, kmAddPrivKey c self key = (index, kmSetPrivKey { self with privKeyHashCache := cache } key index) ∧
      readKey (fileAt self self.testnet index) = none ∧ (index = 0 ↔ readKey (fileAt self self.testnet 0) = none) := by
  obtain ⟨hhashes, cache, hself⟩ := allPrivKeyHashes_right h
  refine ⟨_, [], ?_, hashesFrom_length c (self.files self.testnet)⟩
  show ((kmAllPrivKeyHashes c self).1.length,
    kmSetPrivKey { (kmAllPrivKeyHashes c self).2 with privKeyHashCache := [] } key (kmAllPrivKeyHashes c self).1.length) = _
  rw [hhashes, hself]

/-- The writes of a swap, from the keys that it reads. -/
theorem swapWrites_none {indexA indexB : Nat}
    (h : kmPrivKeyAtIndex self indexA = none ∨ kmPrivKeyAtIndex self indexB = none ∨ indexA = indexB) :
    swapWrites self indexA indexB = [] := by
  rw [swapWrites]
  split
  · rfl
  · rename_i hboth
    rw [not_or] at hboth
    rcases h with hnone | hnone | heq
    · exact absurd (by rw [hnone]; rfl) hboth.1
    · exact absurd (by rw [hnone]; rfl) hboth.2
    · exact if_pos heq

theorem swapWrites_some {indexA indexB : Nat} {keyA keyB : Bytes} (hA : kmPrivKeyAtIndex self indexA = some keyA)
    (hB : kmPrivKeyAtIndex self indexB = some keyB) (hne : indexA ≠ indexB) :
    swapWrites self indexA indexB = [(some keyA, indexB), (some keyB, indexA)] := by
  have hlong : ∀ {index : Nat} {key : Bytes}, kmPrivKeyAtIndex self index = some key → (kmPrivKeyAtIndex self index).length ≠ 0 :=
    fun hkey hempty => by
      have hnone := readKey_length.1 hempty
      cases hkey.symm.trans hnone
  rw [swapWrites, if_neg (not_or.2 ⟨hlong hA, hlong hB⟩), if_neg hne, hA, hB]

/-- One write, or three with the swap. -/
theorem importWrites_cases (h : HashesRight c self) (key : Data) :
    ∃ index, readKey (fileAt self self.testnet index) = none ∧
      ((importWrites c self key = [(key, index)] ∧ (readKey (fileAt self self.testnet 0) = none ∨ key.length < 32)) ∨
        ∃ master, index ≠ 0 ∧ 32 ≤ key.length ∧ readKey (fileAt self self.testnet 0) = some master ∧
          importWrites c self key = [(key, index), (some master, index), (some (key.toBytes.take 32), 0)]) := by
  obtain ⟨index, cache, hadd, hfree, hzero⟩ := addPrivKey_right h key
  refine ⟨index, hfree, ?_⟩
  have hread : ∀ i : Nat, kmPrivKeyAtIndex (kmSetPrivKey { self with privKeyHashCache := cache } key index) i =
      readKey (if i = index then some key.toBytes else fileAt self self.testnet i) := by
    intro i
    have hfile := fileAt_setPrivKey { self with privKeyHashCache := cache } key index self.testnet i
    simp only [true_and] at hfile
    exact congrArg readKey hfile
  rw [importWrites, hadd]
  dsimp only
  generalize kmSetPrivKey { self with privKeyHashCache := cache } key index = added at hread
  have hnew := hread index
  rw [if_pos rfl] at hnew
  cases hmaster : readKey (fileAt self self.testnet 0) with
  | none =>
    have hindex := hzero.2 hmaster
    exact Or.inl ⟨by rw [swapWrites_none (Or.inr (Or.inr hindex.symm))], Or.inl rfl⟩
  | some master =>
    have hne : index ≠ 0 := by
      intro heq
      rw [hzero.1 heq] at hmaster
      cases hmaster
    have hold := hread 0
    rw [if_neg (Ne.symm hne), hmaster] at hold
    by_cases hshort : key.length < 32
    · have hnone : readKey (some key.toBytes) = none := if_pos hshort
      exact Or.inl ⟨by rw [swapWrites_none (Or.inr (Or.inl (hnew.trans hnone)))], Or.inr hshort⟩
    · have hkey : readKey (some key.toBytes) = some (key.toBytes.take 32) := if_neg hshort
      exact Or.inr ⟨master, hne, Nat.le_of_not_lt hshort, rfl, by rw [swapWrites_some hold (hnew.trans hkey) (Ne.symm hne)]⟩

/-! ## A call that is stopped -/

theorem writeAll_cons (self : KeyManager) (data : Data) (index : Nat) (writes : List (Data × Nat)) :
    writeAll self ((data, index) :: writes) = writeAll (kmSetPrivKey self data index) writes := rfl

/-- The call is all of its writes. -/
theorem run_files (h : HashesRight c self) (call : MasterCall) :
    (call.run c self).files = (call.stopped c self (importWrites c self (call.key c)).length).files := by
  rw [MasterCall.stopped, List.take_length]
  have himport : call.run c self = kmImportMasterPrivKey c self (call.key c) := by cases call <;> rfl
  obtain ⟨index, cache, hadd, -⟩ := addPrivKey_right h (call.key c)
  rw [himport, kmImportMasterPrivKey, importWrites, hadd]
  dsimp only
  rw [writeAll_cons, swapWrites, kmSwapPrivKey]
  split
  · rfl
  · split <;> rfl

theorem present_congr {other : KeyManager} (h : self.files = other.files) {key : Data} :
    Present self testnet key ↔ Present other testnet key := by
  unfold Present fileAt
  rw [h]

/-- What holds wherever the call is stopped holds when it returns. -/
theorem keepsKeys_iff_stopped (h : HashesRight c self) (call : MasterCall) :
    KeepsKeys c self call ↔ ∀ writes, KeepsStored self (call.stopped c self writes) ∧
      (1 ≤ writes → Present (call.stopped c self writes) self.testnet (call.key c)) := by
  have hfiles := run_files h call
  have hsome : 1 ≤ (importWrites c self (call.key c)).length := by
    rw [importWrites]
    exact Nat.succ_le_succ (Nat.zero_le _)
  constructor
  · exact And.left
  · intro hstopped
    obtain ⟨hstored, hnew⟩ := hstopped (importWrites c self (call.key c)).length
    exact ⟨hstopped, fun testnet index key hkey => (present_congr hfiles).2 (hstored testnet index key hkey),
      (present_congr hfiles).2 (hnew hsome)⟩

theorem present_of_readKey {key : Bytes} (h : readKey (fileAt self testnet index) = some key) : Present self testnet (some key) := by
  obtain ⟨bytes, hfile, -, rfl⟩ := readKey_eq_some h
  exact ⟨index, bytes, hfile, by rw [toBytes_some, List.take_take, Nat.min_self]⟩

/-- A write over a file without a key loses none. -/
theorem stored_write {key : Bytes} {place : Nat} (h : readKey (fileAt self testnet index) = some key)
    (hplace : testnet = self.testnet → index ≠ place) (data : Data) :
    readKey (fileAt (kmSetPrivKey self data place) testnet index) = some key := by
  rw [fileAt_setPrivKey, if_neg fun hboth => hplace hboth.1 hboth.2, h]

/-- A stored key is in some file wherever the call is stopped. -/
theorem stored_present (hright : HashesRight c self) (call : MasterCall) (writes : Nat) {key : Bytes}
    (h : readKey (fileAt self testnet index) = some key) : Present (call.stopped c self writes) testnet (some key) := by
  obtain ⟨place, hfree, hwrites⟩ := importWrites_cases hright (call.key c)
  have hplace : testnet = self.testnet → index ≠ place := by
    rintro rfl rfl
    rw [hfree] at h
    cases h
  have hfirst := stored_write h hplace (call.key c)
  rw [MasterCall.stopped]
  rcases hwrites with ⟨hwrites, -⟩ | ⟨master, hne, hlong, hmaster, hwrites⟩ <;> rw [hwrites]
  · rcases writes with _ | writes
    · exact present_of_readKey h
    · rw [List.take_succ_cons, List.take_nil]
      exact present_of_readKey hfirst
  · have hsecond := stored_write hfirst hplace (some master)
    rcases writes with _ | _ | _ | writes
    · exact present_of_readKey h
    · exact present_of_readKey hfirst
    · exact present_of_readKey hsecond
    · rw [List.take_succ_cons, List.take_succ_cons, List.take_succ_cons, List.take_nil]
      -- the master key is where the new one was
      by_cases hown : testnet = self.testnet ∧ index = 0
      · obtain ⟨rfl, rfl⟩ := hown
        rw [hmaster] at h
        cases h
        obtain ⟨bytes, -, -, rfl⟩ := readKey_eq_some hmaster
        have hfile : fileAt (kmSetPrivKey (kmSetPrivKey self (call.key c) place) (some (bytes.take 32)) place) self.testnet place =
            some (bytes.take 32) := by
          rw [fileAt_setPrivKey, if_pos ⟨rfl, rfl⟩]
          rfl
        exact present_kept hfile rfl fun hboth => hne hboth.2
      · exact present_of_readKey (stored_write hsecond (fun hnet hzero => hown ⟨hnet, hzero⟩) (some ((call.key c).toBytes.take 32)))

/-- Between the two writes of the swap the new key is where it was before, if anywhere. -/
theorem present_between {place : Nat} {master : Bytes} (hfree : readKey (fileAt self self.testnet place) = none)
    (hlong : 32 ≤ key.length) (hmaster : readKey (fileAt self self.testnet 0) = some master) :
    Present (kmSetPrivKey (kmSetPrivKey self key place) (some master) place) self.testnet key ↔ Present self self.testnet key := by
  constructor
  · rintro ⟨i, bytes, hfile, hbytes⟩
    rw [fileAt_setPrivKey] at hfile
    split at hfile
    · cases hfile
      obtain ⟨old, hold, -, rfl⟩ := readKey_eq_some hmaster
      exact ⟨0, old, hold, by rw [← hbytes, toBytes_some, List.take_take, Nat.min_self]⟩
    · rename_i hother
      have hkept : ¬ (self.testnet = self.testnet ∧ i = place) := hother
      rw [fileAt_setPrivKey, if_neg hkept] at hfile
      exact ⟨i, bytes, hfile, hbytes⟩
  · rintro ⟨i, bytes, hfile, hbytes⟩
    have hother : i ≠ place := by
      rintro rfl
      have hshort : bytes.length < 32 := by
        rw [hfile, readKey] at hfree
        split at hfree
        · assumption
        · cases hfree
      have hlengths := congrArg List.length hbytes
      have hkey : key.toBytes.length = key.length := rfl
      rw [List.length_take, List.length_take] at hlengths
      omega
    exact present_kept (by rw [fileAt_setPrivKey, if_neg fun hboth => hother hboth.2, hfile]) hbytes fun hboth => hother hboth.2

theorem keepsKeys_right (h : HashesRight c self) (call : MasterCall) : KeepsKeys c self call ↔ NeedsNoSwap c self call := by
  rw [keepsKeys_iff_stopped h]
  have hstored : ∀ writes testnet index key, readKey (fileAt self testnet index) = some key →
      Present (call.stopped c self writes) testnet (some key) := fun writes _ _ _ hkey => stored_present h call writes hkey
  obtain ⟨place, hfree, hwrites⟩ := importWrites_cases h (call.key c)
  have hadded : Present (kmSetPrivKey self (call.key c) place) self.testnet (call.key c) := present_written self _ place rfl
  rcases hwrites with ⟨hwrites, hreason⟩ | ⟨master, hne, hlong, hmaster, hwrites⟩
  · refine iff_of_true (fun writes => ⟨hstored writes, fun hone => ?_⟩) ?_
    · obtain ⟨writes, rfl⟩ : ∃ n, writes = n + 1 := ⟨writes - 1, by omega⟩
      rw [MasterCall.stopped, hwrites, List.take_succ_cons, List.take_nil]
      exact hadded
    · rcases hreason with hnone | hshort
      · exact Or.inl (readKey_length.2 hnone)
      · exact Or.inr (Or.inl hshort)
  · have hbetween : Present (call.stopped c self 2) self.testnet (call.key c) ↔ Present self self.testnet (call.key c) := by
      rw [MasterCall.stopped, hwrites]
      exact present_between hfree hlong hmaster
    have hneeds : NeedsNoSwap c self call ↔ Present self self.testnet (call.key c) := by
      constructor
      · rintro (hnone | hshort | hpresent)
        · have hempty : readKey (fileAt self self.testnet 0) = none := readKey_length.1 hnone
          rw [hmaster] at hempty
          cases hempty
        · omega
        · exact hpresent
      · exact fun hpresent => Or.inr (Or.inr hpresent)
    rw [hneeds, ← hbetween]
    constructor
    · exact fun hkeeps => (hkeeps 2).2 (by decide)
    · refine fun hpresent writes => ⟨hstored writes, fun hone => ?_⟩
      rcases writes with _ | _ | _ | writes
      · exact absurd hone (by decide)
      · rw [MasterCall.stopped, hwrites]
        exact hadded
      · exact hpresent
      · rw [MasterCall.stopped, hwrites, List.take_succ_cons, List.take_succ_cons, List.take_succ_cons, List.take_nil]
        refine present_written (kmSetPrivKey (kmSetPrivKey self _ place) (some master) place) (some ((call.key c).toBytes.take 32)) 0 ?_
        rw [toBytes_some, List.take_take, Nat.min_self]

/-- In every state that calls lead to, with any stored keys. -/
theorem keepsKeys_iff (c : HdCrypto) (search : BinarySearch) (testnet : Bool) (files : Bool → List (Option Bytes)) (store : File)
    (events : List KeyEvent) (s : KeyRun) (h : after (keyStep c search) (KeyRun.start testnet files store) events = some s)
    (call : MasterCall) : KeepsKeys c s.self call ↔ NeedsNoSwap c s.self call := by
  have hcaches := after_inv (fun s event next hi hnext => @cachesOf_step c search s next event hi hnext)
    (cachesOf_start testnet files store) h
  exact keepsKeys_right hcaches.hashes call

/-- The key of a device, imported again. -/
theorem keepsKeys_again :
    ∃ s, after (keyStep logCrypto .halving) (KeyRun.start false (fun _ => []) none) [.importMasterPrivKey (some (scalarBytes 5))] =
        some s ∧ KeepsKeys logCrypto s.self (.importMasterPrivKey (some (scalarBytes 5))) := by
  refine ⟨_, rfl, (keepsKeys_iff logCrypto .halving false (fun _ => []) none [.importMasterPrivKey (some (scalarBytes 5))] _ rfl _).2 ?_⟩
  exact Or.inr (Or.inr ⟨0, scalarBytes 5, by decide +kernel, by decide⟩)

/-- A second key is imported, and the call is stopped after two writes. -/
theorem not_keepsKeys : ¬ ∀ (c : HdCrypto) (search : BinarySearch) (testnet : Bool) (files : Bool → List (Option Bytes)) (store : File)
    (events : List KeyEvent) (s : KeyRun), after (keyStep c search) (KeyRun.start testnet files store) events = some s →
    ∀ call, KeepsKeys c s.self call := by
  intro h
  obtain ⟨i, bytes, hfile, hbytes⟩ := ((h logCrypto .halving false (fun _ => [some (scalarBytes 5)]) none [] _ rfl
    (.importMasterPrivKey (scalarBytes 6))).1 2).2 (by decide)
  have hfiles : (MasterCall.stopped logCrypto (KeyRun.start false (fun _ => [some (scalarBytes 5)]) none).self
      (.importMasterPrivKey (scalarBytes 6)) 2).files false = [some (scalarBytes 5), some (scalarBytes 5)] := by decide +kernel
  have hall : ∀ (j : Nat) (found : Bytes), [some (scalarBytes 5), some (scalarBytes 5)][j]?.getD none = some found → found = scalarBytes 5 := by
    intro j found hj
    rcases j with _ | _ | j
    · exact (Option.some.inj hj).symm
    · exact (Option.some.inj hj).symm
    · cases hj
  rw [hall i bytes (by rw [← hfiles]; exact hfile)] at hbytes
  revert hbytes
  decide

end BitcoinSpoon.Keys
