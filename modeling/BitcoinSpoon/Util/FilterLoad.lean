/-
  BitcoinSpoon.Util.FilterLoad — the filter as it is sent to the nodes (`bloomFilter`,
  `code/BTCUtil.c`).

  A filterload is a length, so many bytes, a hash count, a tweak and a flag that says which
  spends a node reports. The flag that is written is always BLOOM_UPDATE_NONE, also for
  `TTUpdateBloomFilter`, which asks for BLOOM_UPDATE_ALL; a length from 253 to 255 is written
  as a mark of `readVarInt`; and an estimate of 0 that may stay one divides by zero
  (`bloomFilter_format_iff`).
-/

import BitcoinSpoon.Util.Bloom

namespace BitcoinSpoon

open Wire

def BLOOM_UPDATE_NONE : UInt32 := 0
def BLOOM_UPDATE_ALL : UInt32 := 1
def BLOOM_ALLOW_LOW_ESTIMATE : UInt32 := 1024

variable (lib : BloomLibrary)

/-- The estimate, rounded up to 3 unless the flag allows less. -/
def roundedEstimate (estimatedElements : Nat) (flag : UInt32) : Nat :=
  if flag &&& BLOOM_ALLOW_LOW_ESTIMATE = 0 then max estimatedElements 3 else estimatedElements

def computedSize (estimatedElements : Nat) (flag : UInt32) : Nat :=
  min (lib.calculateBloomSize (roundedEstimate estimatedElements flag)) 36000

/-- `bloomFilter` for any flag. `none` is the division by 0 in `bloomHashCount`. -/
def bloomFilterFlag (estimatedElements : Nat) (flag : UInt32) : Option Bytes :=
  let bloomSize := computedSize lib estimatedElements flag
  if roundedEstimate estimatedElements flag = 0 then none
  else
    let hashCount := min (lib.bloomHashCount (roundedEstimate estimatedElements flag) bloomSize) 50
    let tweak := 0
    some (varIntD bloomSize ++ List.replicate bloomSize 0 ++ uint32D hashCount ++ uint32D tweak ++
      uint8D BLOOM_UPDATE_NONE.toNat)

/-- The update flag in what the caller passes. -/
def requestedUpdate (flag : UInt32) : UInt32 := flag &&& ~~~BLOOM_ALLOW_LOW_ESTIMATE

structure IsFilterLoad (bytes : Bytes) (size : Nat) (update : UInt32) : Prop where
  /-- The fields, and nothing behind them. -/
  parsed : ∃ (hashCount tweak : Nat) (flags : UInt8), hashCount ≤ 50 ∧ tweak < 2 ^ 32 ∧ flags.toNat = update.toNat ∧
    readVarInt bytes = (size, List.replicate size 0 ++ (uint32D hashCount ++ (uint32D tweak ++ [flags])))
  /-- `bloomFilterAddElement` does not refuse it, and finds the same size. -/
  found : ∀ outcome, bloomHead bytes = some outcome → ∃ head, outcome = some head ∧ head.filterSize = size

variable {lib} {estimatedElements : Nat} {flag : UInt32}

/-- `Util/Bloom.lean` has the filter for BLOOM_UPDATE_ALL only. -/
theorem bloomFilterFlag_all (lib : BloomLibrary) (estimatedElements : Nat) :
    bloomFilterFlag lib estimatedElements BLOOM_UPDATE_ALL = some (bloomFilter lib estimatedElements) := by
  have hrounded : roundedEstimate estimatedElements BLOOM_UPDATE_ALL = max estimatedElements 3 := if_pos (by decide)
  have hpositive : max estimatedElements 3 ≠ 0 := by omega
  unfold bloomFilterFlag computedSize
  rw [hrounded, if_neg hpositive]
  rfl

theorem roundedEstimate_eq_zero : roundedEstimate estimatedElements flag = 0 ↔
    estimatedElements = 0 ∧ flag &&& BLOOM_ALLOW_LOW_ESTIMATE ≠ 0 := by
  unfold roundedEstimate
  by_cases hflag : flag &&& BLOOM_ALLOW_LOW_ESTIMATE = 0
  · rw [if_pos hflag]
    exact iff_of_false (by omega) fun h => h.2 hflag
  · rw [if_neg hflag]
    exact ⟨fun h => ⟨h, hflag⟩, fun h => h.1⟩

theorem computedSize_le : computedSize lib estimatedElements flag ≤ 36000 := Nat.min_le_right _ _

theorem bloomHead_size {bytes rest : Bytes} {size : Nat} (hread : readVarInt bytes = (size, rest)) {head : BloomHead}
    (h : bloomHead bytes = some (some head)) : head.filterSize = size := by
  obtain ⟨p, hbytes, hreads, -⟩ := bloomHead_some h
  have hsame := (hreads head.filter).symm.trans (hbytes ▸ hread)
  exact (Prod.mk.inj hsame).1

theorem bloomFilterFlag_some {bytes : Bytes} (h : bloomFilterFlag lib estimatedElements flag = some bytes) :
    roundedEstimate estimatedElements flag ≠ 0 ∧ ∃ hashCount ≤ 50, bytes = varIntD (computedSize lib estimatedElements flag) ++
      (List.replicate (computedSize lib estimatedElements flag) 0 ++ (uint32D hashCount ++ (uint32D 0 ++ [0]))) := by
  unfold bloomFilterFlag at h
  dsimp only at h
  split at h
  · cases h
  rename_i hzero
  rw [List.append_assoc, List.append_assoc, List.append_assoc] at h
  exact ⟨hzero, _, Nat.min_le_right _ _, (Option.some.inj h).symm⟩

/-- A length that is a mark is read as 0. -/
theorem size_of_isFilterLoad {bytes : Bytes} (h : bloomFilterFlag lib estimatedElements flag = some bytes) {update : UInt32}
    (hload : IsFilterLoad bytes (computedSize lib estimatedElements flag) update) :
    computedSize lib estimatedElements flag < 253 ∨ 255 < computedSize lib estimatedElements flag := by
  by_contra hmark
  obtain ⟨-, hashCount', -, rfl⟩ := bloomFilterFlag_some h
  obtain ⟨k, more, hbits, hvarint⟩ := varIntD_misread hmark
  obtain ⟨⟨hashCount, tweak, flags, -, -, -, hparsed⟩, -⟩ := hload
  have hread := grammar_readVarInt.reads hvarint
    (List.replicate (4 + more) 0 ++ (uint32D hashCount' ++ (uint32D 0 ++ [0])))
  have hzeros : List.replicate (computedSize lib estimatedElements flag) (0 : UInt8) =
      List.replicate k 0 ++ List.replicate (4 + more) 0 := by
    rw [List.replicate_append_replicate, hbits]
  rw [List.append_assoc, ← List.append_assoc (List.replicate k 0), ← hzeros, hparsed] at hread
  have hsize := (Prod.mk.inj hread).1
  omega

/-- The last byte is the flag. -/
theorem flags_eq_zero {size hashCount tweak hashCount' : Nat} {flags : UInt8}
    (h : List.replicate size (0 : UInt8) ++ (uint32D hashCount' ++ (uint32D 0 ++ [0])) =
      List.replicate size 0 ++ (uint32D hashCount ++ (uint32D tweak ++ [flags]))) : flags = 0 := by
  have hlast := congrArg List.getLast? h
  simpa [List.getLast?_append] using hlast.symm

theorem readVarInt_filter (hsize : computedSize lib estimatedElements flag < 253 ∨ 255 < computedSize lib estimatedElements flag)
    (rest : Bytes) : readVarInt (varIntD (computedSize lib estimatedElements flag) ++ rest) =
      (computedSize lib estimatedElements flag, rest) :=
  varIntOk (Nat.lt_of_le_of_lt computedSize_le (by decide)) hsize rest

theorem update_of_isFilterLoad {bytes : Bytes} (h : bloomFilterFlag lib estimatedElements flag = some bytes) {update : UInt32}
    (hload : IsFilterLoad bytes (computedSize lib estimatedElements flag) update) : update = BLOOM_UPDATE_NONE := by
  have hsize := size_of_isFilterLoad h hload
  obtain ⟨-, hashCount', -, rfl⟩ := bloomFilterFlag_some h
  obtain ⟨⟨hashCount, tweak, flags, -, -, hflags, hparsed⟩, -⟩ := hload
  rw [readVarInt_filter hsize] at hparsed
  rw [flags_eq_zero (Prod.mk.inj hparsed).2] at hflags
  exact UInt32.toNat_inj.1 hflags.symm

/-- Where the length reads back, the bytes are a filterload that asks for no update. -/
theorem isFilterLoad_of_size (hsize : computedSize lib estimatedElements flag < 253 ∨ 255 < computedSize lib estimatedElements flag)
    {bytes : Bytes} (h : bloomFilterFlag lib estimatedElements flag = some bytes) :
    IsFilterLoad bytes (computedSize lib estimatedElements flag) BLOOM_UPDATE_NONE := by
  obtain ⟨-, hashCount, hfifty, rfl⟩ := bloomFilterFlag_some h
  have hread := readVarInt_filter hsize (List.replicate (computedSize lib estimatedElements flag) 0 ++
    (uint32D hashCount ++ (uint32D 0 ++ [0])))
  refine ⟨⟨hashCount, 0, 0, hfifty, by decide, rfl, hread⟩, fun outcome houtcome => ?_⟩
  cases outcome with
  | none => exact absurd houtcome (bloomHead_of_size computedSize_le hfifty hsize)
  | some head => exact ⟨head, rfl, bloomHead_size hread houtcome⟩

/-- The filter that is sent has the format exactly when no update is asked for, the estimate is
    not 0 or is rounded up, and the length is not a mark. That of `TTUpdateBloomFilter` is the
    one for BLOOM_UPDATE_ALL. -/
theorem bloomFilter_format_iff (lib : BloomLibrary) (estimatedElements : Nat) (flag : UInt32) :
    ((∃ bytes, bloomFilterFlag lib estimatedElements flag = some bytes ∧
        IsFilterLoad bytes (computedSize lib estimatedElements flag) (requestedUpdate flag)) ↔
      requestedUpdate flag = BLOOM_UPDATE_NONE ∧ (estimatedElements ≠ 0 ∨ flag &&& BLOOM_ALLOW_LOW_ESTIMATE = 0) ∧
        (computedSize lib estimatedElements flag < 253 ∨ 255 < computedSize lib estimatedElements flag)) ∧
      bloomFilterFlag lib estimatedElements BLOOM_UPDATE_ALL = some (bloomFilter lib estimatedElements) := by
  refine ⟨?_, bloomFilterFlag_all lib estimatedElements⟩
  have hdivides : roundedEstimate estimatedElements flag ≠ 0 ↔ estimatedElements ≠ 0 ∨ flag &&& BLOOM_ALLOW_LOW_ESTIMATE = 0 := by
    rw [Ne, roundedEstimate_eq_zero, not_and_or, not_not]
  rw [← hdivides]
  constructor
  · intro hformat
    obtain ⟨bytes, hbytes, hload⟩ := hformat
    exact ⟨update_of_isFilterLoad hbytes hload, (bloomFilterFlag_some hbytes).1, size_of_isFilterLoad hbytes hload⟩
  · intro hcond
    obtain ⟨hupdate, hzero, hsize⟩ := hcond
    obtain ⟨bytes, hbytes⟩ : ∃ bytes, bloomFilterFlag lib estimatedElements flag = some bytes := ⟨_, if_neg hzero⟩
    refine ⟨bytes, hbytes, ?_⟩
    rw [hupdate]
    exact isFilterLoad_of_size hsize hbytes

/-- Three elements and BLOOM_UPDATE_ALL. -/
theorem not_bloomFilter_format : ¬ ∀ (lib : BloomLibrary) (estimatedElements : Nat) (flag : UInt32),
    ∃ bytes, bloomFilterFlag lib estimatedElements flag = some bytes ∧
      IsFilterLoad bytes (computedSize lib estimatedElements flag) (requestedUpdate flag) := by
  intro h
  obtain ⟨bytes, hbytes, hload⟩ := h plainBloom 3 BLOOM_UPDATE_ALL
  exact absurd (update_of_isFilterLoad hbytes hload) (by decide)

end BitcoinSpoon
