/-
  BitcoinSpoon.Keys.Nonces — the nonces of a device (`KMInit`, `KMNextNonce`,
  `code/KeyManager.c`).

  The prefix is drawn once and kept in the basic store; so is the counter, which is saved
  before its value is returned. A process begins with `KMInit`, as README.md says; memory is
  lost between two processes, the store is not. So the nonces of a device are its prefix with
  one number after the other, counted around (`Counted`), and fewer than 2^32 of them are
  all different (`nonces_distinct`). The rest of the store may hold anything.
-/

import BitcoinSpoon.Keys.Settings
import BitcoinSpoon.Loop.Runs
import BitcoinSpoon.Store.Refused
import BitcoinSpoon.Util.ScriptNum

namespace BitcoinSpoon.Keys

open Wire Loop KeysAndValues Storage

def noncePrefixKey : String := "noncePrefix"

def nonceCounterKey : String := "nonceCounter"

variable (search : BinarySearch)

/-- The prefix, and the store with it; `entropy` is what `getEntropy` returns. `none`: there
    is a prefix of less than four bytes, and the read ends behind it. -/
def kmInit (file : File) (entropy : UInt32) : Option (UInt32 × File) := do
  let data := bsLoad search file noncePrefixKey
  if data.length = 0 then
    let file ← bsSave search file noncePrefixKey (some (uint32D entropy.toNat))
    some (entropy, file)
  else if data.length < 4 then none
  else some (UInt32.ofNat (leNat (data.toBytes.take 4)), file)

/-- The two numbers as they are copied into the result. -/
def nonceOf (noncePrefix nonce : UInt32) : UInt64 := UInt64.ofNat (leNat (uint32D noncePrefix.toNat ++ uint32D nonce.toNat))

def storedCounter (file : File) : UInt32 :=
  let data := bsLoad search file nonceCounterKey
  if data.length = 4 then UInt32.ofNat (leNat data.toBytes) else 0

def kmNextNonce (file : File) (noncePrefix : UInt32) : Option (UInt64 × File) := do
  let nonce := storedCounter search file
  let result := nonceOf noncePrefix nonce
  let file ← bsSave search file nonceCounterKey (some (uint32D (nonce + 1).toNat))
  some (result, file)

/-! ## Runs -/

/-- The store, `self->noncePrefix`, and the nonces in the order they were returned. -/
structure Device where
  file : File
  noncePrefix : UInt32
  drawn : List UInt64

inductive DeviceEvent where
  /-- The process has ended, anywhere between two calls, and the next one begins. -/
  | restart (entropy : UInt32)
  | kmInit (entropy : UInt32)
  | kmNextNonce
  deriving DecidableEq

def Device.init (device : Device) (entropy : UInt32) : Option Device :=
  (Keys.kmInit search device.file entropy).map fun result => { device with noncePrefix := result.1, file := result.2 }

def deviceStep (device : Device) : DeviceEvent → Option Device
  | .restart entropy => Device.init search { device with noncePrefix := 0 } entropy
  | .kmInit entropy => Device.init search device entropy
  | .kmNextNonce => (Keys.kmNextNonce search device.file device.noncePrefix).map fun result =>
      { device with file := result.2, drawn := device.drawn ++ [result.1] }

/-- Before the first process. -/
def Device.off (file : File) : Device := ⟨file, 0, []⟩

def drawCount (events : List DeviceEvent) : Nat := events.count .kmNextNonce

/-- The prefix in the store. -/
def storedPrefix (file : File) : Bytes := (bsLoad search file noncePrefixKey).toBytes.take 4

/-- There is no prefix, or it has the bytes that are read. -/
def PrefixReadable (file : File) : Prop :=
  (bsLoad search file noncePrefixKey).length = 0 ∨ 4 ≤ (bsLoad search file noncePrefixKey).length

/-- The stored prefix is in memory too, and the nonces that were returned count up to the
    stored counter. -/
structure Counted (first : UInt32) (device : Device) : Prop where
  stored : storedPrefix search device.file = uint32D device.noncePrefix.toNat
  counter : storedCounter search device.file = first + UInt32.ofNat device.drawn.length
  drawn : device.drawn = (List.range device.drawn.length).map fun i => nonceOf device.noncePrefix (first + UInt32.ofNat i)

variable {search} {file : File} {device next : Device} {first entropy : UInt32}

/-! ## The numbers -/

theorem nonceOf_toNat (noncePrefix nonce : UInt32) : (nonceOf noncePrefix nonce).toNat = noncePrefix.toNat + 2 ^ 32 * nonce.toNat := by
  have hprefix := noncePrefix.toNat_lt
  have hnonce := nonce.toNat_lt
  rw [nonceOf, leNat_append, uint32D, uint32D, leBytes_length, leNat_leBytes _ _ (by omega), leNat_leBytes _ _ (by omega),
    UInt64.toNat_ofNat_of_lt' (by show _ < 2 ^ 64; omega)]
  norm_num

theorem nonceOf_inj {noncePrefix a b : UInt32} (h : nonceOf noncePrefix a = nonceOf noncePrefix b) : a = b := by
  have hnat := congrArg UInt64.toNat h
  rw [nonceOf_toNat, nonceOf_toNat] at hnat
  exact UInt32.toNat_inj.1 (by omega)

theorem nonces_nodup (noncePrefix first : UInt32) {n : Nat} (h : n < 2 ^ 32) :
    ((List.range n).map fun i => nonceOf noncePrefix (first + UInt32.ofNat i)).Nodup := by
  refine List.Nodup.map_on (fun i hi j hj heq => ?_) List.nodup_range
  have hsame := UInt32.add_right_inj _ |>.1 (nonceOf_inj heq)
  have hnat := congrArg UInt32.toNat hsame
  rw [List.mem_range] at hi hj
  rwa [UInt32.toNat_ofNat_of_lt' (by show _ < 2 ^ 32; omega), UInt32.toNat_ofNat_of_lt' (by show _ < 2 ^ 32; omega)] at hnat

theorem uint32_leNat (n : UInt32) : UInt32.ofNat (leNat (uint32D n.toNat)) = n := by
  have hlt := n.toNat_lt
  rw [uint32D, leNat_leBytes _ _ (by omega), UInt32.ofNat_toNat]

/-! ## The two values in the store -/

/-- A small value under a short key is saved, and nothing else changes. -/
theorem bsSave_small {key : String} {bytes : Bytes} (h : ¬ OverLimit (nulEnded (stringNew key), some bytes)) :
    ∃ file', bsSave search file key (some bytes) = some file' ∧ (bsLoad search file' key).toBytes = bytes ∧
      ∀ other, nulEnded (stringNew other) ≠ nulEnded (stringNew key) →
        (bsLoad search file' other).toBytes = (bsLoad search file other).toBytes := by
  obtain ⟨file', hsave, hload⟩ := save_any search file h
  refine ⟨file', hsave, ?_, fun other hother => ?_⟩
  · exact (hload (stringNew key)).trans (if_pos rfl)
  · exact (hload (stringNew other)).trans (if_neg hother)

theorem nonceKeys_ne : nulEnded (stringNew noncePrefixKey) ≠ nulEnded (stringNew nonceCounterKey) := by decide

theorem small_uint32 {key : String} (h : (nulEnded (stringNew key)).length ≤ bsMaxKeySize) (n : Nat) :
    ¬ OverLimit (nulEnded (stringNew key), some (uint32D n)) := by
  rintro (hkey | hvalue)
  · exact absurd h (Nat.not_le.2 hkey)
  · rw [length_some, uint32D, leBytes_length] at hvalue
    exact absurd hvalue (by decide)

theorem storedCounter_congr {file' : File}
    (h : (bsLoad search file' nonceCounterKey).toBytes = (bsLoad search file nonceCounterKey).toBytes) :
    storedCounter search file' = storedCounter search file := by
  rw [storedCounter, storedCounter, Data.length, Data.length, h]

/-! ## One call -/

/-- `KMInit` leaves a prefix in the store and in memory, and an old one where it is. -/
theorem kmInit_spec (h : PrefixReadable search file) (entropy : UInt32) :
    ∃ noncePrefix file', kmInit search file entropy = some (noncePrefix, file') ∧ storedPrefix search file' = uint32D noncePrefix.toNat ∧
      storedCounter search file' = storedCounter search file ∧
      (4 ≤ (bsLoad search file noncePrefixKey).length → file' = file) := by
  rw [kmInit]
  by_cases hnone : (bsLoad search file noncePrefixKey).length = 0
  · rw [if_pos hnone]
    obtain ⟨file', hsave, hload, hother⟩ := @bsSave_small search file _ _ (@small_uint32 noncePrefixKey (by decide) entropy.toNat)
    refine ⟨entropy, file', by rw [hsave]; rfl, ?_, storedCounter_congr (hother _ nonceKeys_ne.symm), fun hlong => by omega⟩
    rw [storedPrefix, hload, List.take_of_length_le (by rw [uint32D, leBytes_length])]
  · rw [if_neg hnone]
    have hlong : 4 ≤ (bsLoad search file noncePrefixKey).length := h.resolve_left hnone
    rw [if_neg (Nat.not_lt.2 hlong)]
    refine ⟨_, file, rfl, ?_, rfl, fun _ => rfl⟩
    rw [storedPrefix]
    have hlength : ((bsLoad search file noncePrefixKey).toBytes.take 4).length = 4 := List.length_take_of_le hlong
    have hlt := leNat_lt ((bsLoad search file noncePrefixKey).toBytes.take 4)
    rw [hlength] at hlt
    rw [UInt32.toNat_ofNat_of_lt' hlt, uint32D]
    have hbytes := leBytes_leNat ((bsLoad search file noncePrefixKey).toBytes.take 4)
    rw [hlength] at hbytes
    exact hbytes.symm

theorem long_of_stored {noncePrefix : UInt32} (h : storedPrefix search file = uint32D noncePrefix.toNat) :
    4 ≤ (bsLoad search file noncePrefixKey).length := by
  have hlength := congrArg List.length h
  rw [storedPrefix, List.length_take, uint32D, leBytes_length] at hlength
  show 4 ≤ (bsLoad search file noncePrefixKey).toBytes.length
  omega

theorem init_counted (h : Counted search first device) (entropy : UInt32) :
    ∃ next, Device.init search device entropy = some next ∧ Counted search first next ∧ next.drawn = device.drawn := by
  have hlong := long_of_stored h.stored
  obtain ⟨noncePrefix, file', hinit, hstored, -, hfile⟩ := kmInit_spec (Or.inr hlong) entropy
  obtain rfl := hfile hlong
  -- the prefix is the one that was stored
  have hsame : noncePrefix = device.noncePrefix := by
    rw [← uint32_leNat noncePrefix, ← hstored, h.stored, uint32_leNat]
  rw [Device.init, hinit]
  refine ⟨_, rfl, ⟨hstored, h.counter, ?_⟩, rfl⟩
  rw [hsame]
  exact h.drawn

theorem next_counted (h : Counted search first device) :
    ∃ next, deviceStep search device .kmNextNonce = some next ∧ Counted search first next ∧ next.drawn.length = device.drawn.length + 1 := by
  obtain ⟨file', hsave, hload, hother⟩ := @bsSave_small search device.file _ _ (@small_uint32 nonceCounterKey (by decide) (storedCounter search device.file + 1).toNat)
  have hnext : deviceStep search device .kmNextNonce =
      some { device with
        file := file'
        drawn := device.drawn ++ [nonceOf device.noncePrefix (storedCounter search device.file)] } := by
    rw [deviceStep, kmNextNonce, hsave]
    rfl
  have hlength : (device.drawn ++ [nonceOf device.noncePrefix (storedCounter search device.file)]).length = device.drawn.length + 1 := by
    rw [List.length_append, List.length_singleton]
  refine ⟨_, hnext, ⟨?_, ?_, ?_⟩, hlength⟩
  · rw [storedPrefix, hother _ nonceKeys_ne]
    exact h.stored
  · have hfour : (bsLoad search file' nonceCounterKey).length = 4 := by rw [Data.length, hload, uint32D, leBytes_length]
    rw [storedCounter]
    dsimp only
    rw [if_pos hfour, hload, uint32_leNat, hlength, h.counter, UInt32.add_assoc]
    congr 1
    rw [UInt32.ofNat_add]
    rfl
  · dsimp only
    rw [hlength, List.range_succ, List.map_append, ← h.drawn, List.map_singleton, h.counter]

/-- Every event of a device that is running. -/
theorem deviceStep_counted (h : Counted search first device) (event : DeviceEvent) :
    ∃ next, deviceStep search device event = some next ∧ Counted search first next ∧
      next.drawn.length = device.drawn.length + drawCount [event] := by
  cases event with
  | restart entropy =>
    obtain ⟨next, hnext, hcounted, hdrawn⟩ := init_counted h entropy
    -- what was in memory is not looked at
    exact ⟨next, hnext, hcounted, by rw [hdrawn]; rfl⟩
  | kmInit entropy =>
    obtain ⟨next, hnext, hcounted, hdrawn⟩ := init_counted h entropy
    exact ⟨next, hnext, hcounted, by rw [hdrawn]; rfl⟩
  | kmNextNonce =>
    obtain ⟨next, hnext, hcounted, hlength⟩ := next_counted h
    exact ⟨next, hnext, hcounted, hlength⟩

theorem run_counted (h : Counted search first device) (events : List DeviceEvent) :
    ∃ reached, after (deviceStep search) device events = some reached ∧ Counted search first reached ∧
      reached.drawn.length = device.drawn.length + drawCount events := by
  induction events generalizing device with
  | nil => exact ⟨device, rfl, h, rfl⟩
  | cons event events ih =>
    obtain ⟨next, hnext, hcounted, hlength⟩ := deviceStep_counted h event
    obtain ⟨reached, hreached, hlast, hcount⟩ := ih hcounted
    refine ⟨reached, by rw [after_cons hnext, hreached], hlast, ?_⟩
    have hcons : drawCount (event :: events) = drawCount events + drawCount [event] := by
      rw [drawCount, drawCount, drawCount, ← List.singleton_append, List.count_append, Nat.add_comm]
    omega

/-- In every run of a device, with a restart anywhere between two calls, the nonces are all
    different, and their low 32 bits are the stored prefix. -/
theorem nonces_distinct (search : BinarySearch) (file : File) (entropy : UInt32) (events : List DeviceEvent)
    (h : PrefixReadable search file) (hcount : drawCount events < 2 ^ 32) :
    ∃ device, after (deviceStep search) (Device.off file) (.restart entropy :: events) = some device ∧
      device.drawn.length = drawCount events ∧ device.drawn.Nodup ∧
      ∀ nonce ∈ device.drawn, nonce.toNat % 2 ^ 32 = leNat (storedPrefix search device.file) := by
  obtain ⟨noncePrefix, file', hinit, hstored, -, -⟩ := kmInit_spec h entropy
  have hfirst : deviceStep search (Device.off file) (.restart entropy) = some ⟨file', noncePrefix, []⟩ := by
    rw [deviceStep, Device.init]
    show Option.map _ (kmInit search file entropy) = _
    rw [hinit]
    rfl
  have hcounted : Counted search (storedCounter search file') ⟨file', noncePrefix, []⟩ := ⟨hstored, (UInt32.add_zero _).symm, rfl⟩
  obtain ⟨device, hdevice, hlast, hlength⟩ := run_counted hcounted events
  rw [List.length_nil, Nat.zero_add] at hlength
  refine ⟨device, by rw [after_cons hfirst, hdevice], hlength, ?_, fun nonce hnonce => ?_⟩
  · rw [hlast.drawn, hlength]
    exact nonces_nodup _ _ hcount
  · rw [hlast.drawn] at hnonce
    obtain ⟨i, -, rfl⟩ := List.mem_map.1 hnonce
    have hprefix := device.noncePrefix.toNat_lt
    rw [nonceOf_toNat, hlast.stored, uint32D, leNat_leBytes _ _ (by omega), Nat.add_mul_mod_self_left, Nat.mod_eq_of_lt (by omega)]

/-- A fresh device, and a restart between two nonces. -/
theorem nonces_distinct_fresh :
    PrefixReadable .halving none ∧ drawCount [.kmNextNonce, .restart 9, .kmNextNonce] < 2 ^ 32 ∧
      ∃ device, after (deviceStep .halving) (Device.off none) (.restart 7 :: [.kmNextNonce, .restart 9, .kmNextNonce]) = some device ∧
        device.drawn.length = drawCount [.kmNextNonce, .restart 9, .kmNextNonce] ∧ device.drawn.Nodup ∧
        ∀ nonce ∈ device.drawn, nonce.toNat % 2 ^ 32 = leNat (storedPrefix .halving device.file) :=
  ⟨Or.inl (by decide), by decide, nonces_distinct .halving none 7 _ (Or.inl (by decide)) (by decide)⟩

end BitcoinSpoon.Keys
