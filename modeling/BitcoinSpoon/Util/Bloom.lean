/-
  BitcoinSpoon.Util.Bloom — Bloom filters (`code/BTCUtil.c`).

  A filter is its size, its bits, the number of hashes, a tweak and a flag. Adding an
  element sets bits and changes nothing else, so what has been added is found again, whatever
  else is added (`check_add`, `bloomFilterArray_contains`). `none` is a read behind the
  filter or a division by its size 0.
-/

import BitcoinSpoon.Loop.Rules
import BitcoinSpoon.Util.VarInt

namespace BitcoinSpoon

open Wire Loop

/-- `libraries/murmur3`, and the sizes that are computed in floating point from the number of
    elements and the failure rate. -/
structure BloomLibrary where
  /-- A key and a seed. -/
  murmur3 : Bytes → UInt32 → UInt32
  calculateBloomSize : Nat → Nat
  /-- Of the number of elements and the size. -/
  bloomHashCount : Nat → Nat → Nat

variable (lib : BloomLibrary)

def BLOOM_SEED : UInt32 := 0xFBA4C795

/-- `flag` is BLOOM_UPDATE_ALL; it is not written. -/
def bloomFilter (estimatedElements : Nat) : Bytes :=
  let estimatedElements := max estimatedElements 3
  let bloomSize := min (lib.calculateBloomSize estimatedElements) 36000
  let hashCount := min (lib.bloomHashCount estimatedElements bloomSize) 50
  varIntD bloomSize ++ List.replicate bloomSize 0 ++ uint32D hashCount ++ uint32D 0 ++ uint8D 0

/-- What both loops work on: `filter` are the bytes from the bits on. -/
structure BloomHead where
  filterSize : Nat
  filter : Bytes
  hashCount : Nat
  tweak : Nat

/-- Before the loops. `none` inside is `return 0`. -/
def bloomHead (bloomFilter : Bytes) : Option (Option BloomHead) :=
  if bloomFilter.length < 9 then some none
  else
    let (filterSize, filter) := readVarInt bloomFilter
    if filter.length ≤ filterSize then some none
    else if filter.length < filterSize + 8 then none
    else
      let (hashCount, rest) := uint32readP (filter.drop filterSize)
      let (tweak, _) := uint32readP rest
      if 50 < hashCount then some none
      else if filterSize = 0 ∧ hashCount ≠ 0 then none
      else some (some ⟨filterSize, filter, hashCount, tweak⟩)

def bloomNumber (head : BloomHead) (element : Data) (i : Nat) : Nat :=
  (lib.murmur3 element.toBytes (UInt32.ofNat i * BLOOM_SEED + UInt32.ofNat head.tweak)).toNat % (head.filterSize * 8)

def setBit (filter : Bytes) (number : Nat) : Bytes :=
  filter.modify (number / 8) fun byte => UInt8.ofNat (byte.toNat ||| 1 <<< (number % 8))

def hasBit (filter : Bytes) (number : Nat) : Bool := (filter.getD (number / 8) 0).toNat.testBit (number % 8)

def setBits (head : BloomHead) (element : Data) : Bytes :=
  (List.range head.hashCount).foldl (fun filter i => setBit filter (bloomNumber lib head element i)) head.filter

/-- The filter after the call, and whether it returns 1. -/
def bloomFilterAddElement (bloomFilter : Bytes) (element : Data) : Option (Bytes × Bool) := do
  match ← bloomHead bloomFilter with
  | none => some (bloomFilter, false)
  | some head => some (bloomFilter.take (bloomFilter.length - head.filter.length) ++ setBits lib head element, true)

def bloomFilterCheckElement (bloomFilter : Bytes) (element : Data) : Option Bool := do
  match ← bloomHead bloomFilter with
  | none => some false
  | some head => some ((List.range head.hashCount).all fun i => hasBit head.filter (bloomNumber lib head element i))

def bloomFilterArray (searchElements : Datas) : Option Data :=
  (searchElements.foldlM (fun bloom element => do
    match bloom with
    | none => some none
    | some bytes =>
      let (bytes, added) ← bloomFilterAddElement lib bytes element
      some (if added then some bytes else none))
    (some (bloomFilter lib searchElements.length)))

variable {lib}

/-! ## Bits -/

theorem setBit_length (filter : Bytes) (number : Nat) : (setBit filter number).length = filter.length :=
  List.length_modify ..

theorem setBit_drop {filter : Bytes} {number size : Nat} (h : number < size * 8) :
    (setBit filter number).drop size = filter.drop size :=
  List.drop_modify_of_lt _ _ _ _ (by omega)

theorem toNat_orBit (byte : UInt8) (number : Nat) :
    (UInt8.ofNat (byte.toNat ||| 1 <<< (number % 8))).toNat = byte.toNat ||| 1 <<< (number % 8) := by
  have hbit : 1 <<< (number % 8) < 2 ^ 8 := by
    rw [Nat.one_shiftLeft]
    exact Nat.pow_lt_pow_right (by decide) (Nat.mod_lt _ (by decide))
  exact UInt8.toNat_ofNat_of_lt' (Nat.or_lt_two_pow byte.toNat_lt hbit)

theorem hasBit_setBit {filter : Bytes} {number other : Nat} (h : hasBit filter other = true) :
    hasBit (setBit filter number) other = true := by
  unfold hasBit setBit at *
  rw [List.getD_eq_getElem?_getD, List.getElem?_modify]
  rw [List.getD_eq_getElem?_getD] at h
  cases hbyte : filter[other / 8]? with
  | none =>
    rw [hbyte] at h
    simp at h
  | some byte =>
    rw [hbyte] at h
    change byte.toNat.testBit (other % 8) = true at h
    show (if number / 8 = other / 8 then _ else byte).toNat.testBit (other % 8) = true
    split
    · rw [toNat_orBit, Nat.testBit_or, h, Bool.true_or]
    · exact h

theorem hasBit_setBit_self {filter : Bytes} {number : Nat} (h : number / 8 < filter.length) :
    hasBit (setBit filter number) number = true := by
  unfold hasBit setBit
  rw [List.getD_eq_getElem?_getD, List.getElem?_modify_eq, List.getElem?_eq_getElem h]
  show (UInt8.ofNat _).toNat.testBit (number % 8) = true
  rw [toNat_orBit, Nat.testBit_or, Nat.one_shiftLeft, Nat.testBit_two_pow_self, Bool.or_true]

/-! ## One element -/

/-- The loop keeps the size, what stands behind the bits and the bits that are set. -/
theorem setBits_keeps (head : BloomHead) (element : Data) (hsize : head.hashCount ≠ 0 → head.filterSize ≠ 0) :
    (setBits lib head element).length = head.filter.length ∧
      (setBits lib head element).drop head.filterSize = head.filter.drop head.filterSize ∧
      ∀ number, hasBit head.filter number = true → hasBit (setBits lib head element) number = true := by
  refine foldl_inv (fun filter : Bytes => filter.length = head.filter.length ∧
    filter.drop head.filterSize = head.filter.drop head.filterSize ∧
    ∀ number, hasBit head.filter number = true → hasBit filter number = true) ⟨rfl, rfl, fun _ h => h⟩ ?_
  rintro i hi filter ⟨hlength, hdrop, hbits⟩
  have hcount : head.hashCount ≠ 0 := Nat.ne_of_gt (Nat.lt_of_le_of_lt (Nat.zero_le i) (List.mem_range.1 hi))
  have hlt : bloomNumber lib head element i < head.filterSize * 8 :=
    Nat.mod_lt _ (Nat.mul_pos (Nat.pos_of_ne_zero (hsize hcount)) (by decide))
  exact ⟨by rw [setBit_length, hlength], by rw [setBit_drop hlt, hdrop], fun number h => hasBit_setBit (hbits number h)⟩

/-- It sets the bits of the element. -/
theorem setBits_sets (head : BloomHead) (element : Data) (hsize : head.hashCount ≠ 0 → head.filterSize ≠ 0)
    (hfilter : head.filterSize ≤ head.filter.length) {i : Nat} (hi : i < head.hashCount) :
    hasBit (setBits lib head element) (bloomNumber lib head element i) = true := by
  have hall := foldl_rule (fun (before : List Nat) (filter : Bytes) => filter.length = head.filter.length ∧
      ∀ i ∈ before, hasBit filter (bloomNumber lib head element i) = true)
    (l := List.range head.hashCount) (f := fun filter i => setBit filter (bloomNumber lib head element i)) (s := head.filter)
    ⟨rfl, fun i hi => absurd hi List.not_mem_nil⟩
    (by
      rintro before i after hl filter ⟨hlength, hbits⟩
      refine ⟨by rw [setBit_length, hlength], fun j hj => ?_⟩
      rcases List.mem_append.1 hj with hj | hj
      · exact hasBit_setBit (hbits j hj)
      · obtain rfl := List.mem_singleton.1 hj
        have hmem : j ∈ List.range head.hashCount := by rw [hl]; simp
        have hcount : head.hashCount ≠ 0 := Nat.ne_of_gt (Nat.lt_of_le_of_lt (Nat.zero_le j) (List.mem_range.1 hmem))
        have hlt : bloomNumber lib head element j < head.filterSize * 8 :=
          Nat.mod_lt _ (Nat.mul_pos (Nat.pos_of_ne_zero (hsize hcount)) (by decide))
        exact hasBit_setBit_self (by omega))
  exact hall.2 i (List.mem_range.2 hi)

/-- The head, its varint written as `p`. -/
theorem bloomHead_some {bloom : Bytes} {head : BloomHead} (h : bloomHead bloom = some (some head)) :
    ∃ p, bloom = p ++ head.filter ∧ Reads readVarInt p head.filterSize ∧ 9 ≤ bloom.length ∧
      head.filterSize + 8 ≤ head.filter.length ∧ (head.hashCount ≠ 0 → head.filterSize ≠ 0) ∧ head.hashCount ≤ 50 ∧
      head.hashCount = (uint32readP (head.filter.drop head.filterSize)).1 ∧
      head.tweak = (uint32readP (uint32readP (head.filter.drop head.filterSize)).2).1 := by
  unfold bloomHead at h
  split at h
  · cases h
  rename_i hnine
  have hclamps := grammar_readVarInt.clamps bloom
  cases hread : readVarInt bloom with
  | mk filterSize filter =>
    rw [hread] at h hclamps
    dsimp only at h hclamps
    split at h
    · cases h
    rename_i hfits
    split at h
    · cases h
    rename_i htail
    cases hcount : uint32readP (filter.drop filterSize) with
    | mk hashCount rest =>
      cases htweak : uint32readP rest with
      | mk tweak more =>
        rw [hcount] at h
        dsimp only at h
        rw [htweak] at h
        dsimp only at h
        split at h
        · cases h
        rename_i hfifty
        split at h
        · cases h
        rename_i hzero
        cases h
        rcases hclamps with hend | ⟨p, hp, hbloom⟩
        · rw [hend] at hfits
          exact absurd (Nat.zero_le _) hfits
        · exact ⟨p, hbloom, grammar_readVarInt.reads hp, Nat.le_of_not_lt hnine, Nat.le_of_not_lt htail,
            fun hne hsize => hzero ⟨hsize, hne⟩, Nat.le_of_not_lt hfifty, by rw [hcount], by rw [hcount, htweak]⟩

theorem bloomHead_append {p filter : Bytes} {head : BloomHead} (hp : Reads readVarInt p head.filterSize)
    (hlength : 9 ≤ p.length + filter.length) (htail : head.filterSize + 8 ≤ filter.length)
    (hsize : head.hashCount ≠ 0 → head.filterSize ≠ 0) (hfifty : head.hashCount ≤ 50)
    (hcount : head.hashCount = (uint32readP (filter.drop head.filterSize)).1)
    (htweak : head.tweak = (uint32readP (uint32readP (filter.drop head.filterSize)).2).1) :
    bloomHead (p ++ filter) = some (some { head with filter := filter }) := by
  rw [bloomHead, if_neg (by rw [List.length_append]; omega), hp]
  dsimp only
  rw [if_neg (by omega), if_neg (by omega)]
  cases hread : uint32readP (filter.drop head.filterSize) with
  | mk hashCount rest =>
    cases hmore : uint32readP rest with
    | mk tweak more =>
      rw [hread] at hcount htweak
      rw [hmore] at htweak
      dsimp only at hcount htweak ⊢
      rw [hmore]
      dsimp only
      rw [← hcount, ← htweak, if_neg (by omega), if_neg fun h => hsize h.2 h.1]

/-- Adding replaces the bytes from the bits on. -/
theorem bloomHead_add {bloom : Bytes} {head : BloomHead} (h : bloomHead bloom = some (some head)) (element : Data) :
    bloomHead (bloom.take (bloom.length - head.filter.length) ++ setBits lib head element) =
      some (some { head with filter := setBits lib head element }) := by
  obtain ⟨p, hbloom, hp, hnine, htail, hsize, hfifty, hcount, htweak⟩ := bloomHead_some h
  obtain ⟨hlength, hdrop, -⟩ := @setBits_keeps lib head element hsize
  have hlen : bloom.length = p.length + head.filter.length := by rw [hbloom, List.length_append]
  have htake : bloom.take (bloom.length - head.filter.length) = p := by
    rw [hbloom, List.length_append, Nat.add_sub_cancel, List.take_left]
  rw [htake]
  exact bloomHead_append hp (by omega) (by omega) hsize hfifty (by rw [hdrop]; exact hcount) (by rw [hdrop]; exact htweak)

/-- What is added is found, and what was found still is. -/
theorem check_add {bloom next : Bytes} {element : Data} (h : bloomFilterAddElement lib bloom element = some (next, true)) :
    bloomFilterCheckElement lib next element = some true ∧
      ∀ other, bloomFilterCheckElement lib bloom other = some true → bloomFilterCheckElement lib next other = some true := by
  unfold bloomFilterAddElement at h
  obtain ⟨found, hhead, h⟩ := Option.bind_eq_some_iff.1 h
  cases found with
  | none => cases h
  | some head =>
    obtain ⟨-, -, -, -, htail, hsize, -⟩ := bloomHead_some hhead
    obtain ⟨-, -, hbits⟩ := @setBits_keeps lib head element hsize
    obtain rfl := (Prod.mk.inj (Option.some.inj h)).1
    have hhead' := @bloomHead_add lib _ _ hhead element
    constructor
    · rw [bloomFilterCheckElement, hhead']
      refine congrArg some (List.all_eq_true.2 fun i hi => ?_)
      exact setBits_sets head element hsize (by omega) (List.mem_range.1 hi)
    · intro other hother
      rw [bloomFilterCheckElement, hhead] at hother
      rw [bloomFilterCheckElement, hhead']
      refine congrArg some (List.all_eq_true.2 fun i hi => ?_)
      exact hbits _ (List.all_eq_true.1 (Option.some.inj hother) i hi)

/-! ## A new filter -/

theorem bloomHead_of_read {bloom filter : Bytes} {filterSize : Nat} (hlength : 9 ≤ bloom.length)
    (hread : readVarInt bloom = (filterSize, filter)) (hsize : filterSize < filter.length)
    (hcount : (uint32readP (filter.drop filterSize)).1 ≤ 50) : bloomHead bloom ≠ some none := by
  rw [bloomHead, if_neg (Nat.not_lt.2 hlength), hread]
  dsimp only
  rw [if_neg (Nat.not_le.2 hsize)]
  cases hcounted : uint32readP (filter.drop filterSize) with
  | mk hashCount rest =>
    rw [hcounted] at hcount
    dsimp only at hcount ⊢
    cases uint32readP rest with
    | mk tweak more =>
      dsimp only
      rw [if_neg (Nat.not_lt.2 hcount)]
      split
      · simp
      · split
        · simp
        · simp

/-- From 253 to 255 the size is written as a mark, and the bits behind it are read as a size of 0. -/
theorem varIntD_misread {bloomSize : Nat} (h : ¬ (bloomSize < 253 ∨ 255 < bloomSize)) :
    ∃ k more, bloomSize = k + (4 + more) ∧ IsVarInt 0 (varIntD bloomSize ++ List.replicate k 0) := by
  obtain rfl | rfl | rfl : bloomSize = 253 ∨ bloomSize = 254 ∨ bloomSize = 255 := by omega
  · exact ⟨2, 247, rfl, Or.inr (Or.inl ⟨by decide, by decide⟩)⟩
  · exact ⟨4, 246, rfl, Or.inr (Or.inr (Or.inl ⟨by decide, by decide⟩))⟩
  · exact ⟨8, 243, rfl, Or.inr (Or.inr (Or.inr ⟨by decide, by decide⟩))⟩

theorem length_of_filter {bloomSize hashCount : Nat} :
    9 ≤ (varIntD bloomSize ++ (List.replicate bloomSize 0 ++ (uint32D hashCount ++ (uint32D 0 ++ uint8D 0)))).length := by
  have htail : (uint32D hashCount ++ (uint32D 0 ++ uint8D 0)).length = 9 := by
    rw [List.length_append, uint32D, leBytes_length]
    rfl
  rw [List.length_append, List.length_append, htail]
  omega

/-- A filter whose length reads back is not refused. -/
theorem bloomHead_of_size {bloomSize hashCount : Nat} (hsize : bloomSize ≤ 36000) (hcount : hashCount ≤ 50)
    (hok : bloomSize < 253 ∨ 255 < bloomSize) :
    bloomHead (varIntD bloomSize ++ (List.replicate bloomSize 0 ++ (uint32D hashCount ++ (uint32D 0 ++ uint8D 0)))) ≠ some none := by
  refine bloomHead_of_read length_of_filter (varIntOk (by omega) hok _) ?_ ?_
  · rw [List.length_append, List.length_replicate, List.length_append, uint32D, leBytes_length]
    omega
  · have hfirst : readLE 4 (uint32D hashCount ++ (uint32D 0 ++ uint8D 0)) = (hashCount, uint32D 0 ++ uint8D 0) :=
      Reads.readLE (by omega) _
    rw [List.drop_left' (List.length_replicate ..), uint32readP, hfirst]
    exact hcount

/-- A new filter can be added to, unless that divides by zero. -/
theorem bloomHead_new (lib : BloomLibrary) (estimatedElements : Nat) : bloomHead (bloomFilter lib estimatedElements) ≠ some none := by
  obtain ⟨bloomSize, hashCount, hsize, hcount, hbloom⟩ : ∃ bloomSize hashCount, bloomSize ≤ 36000 ∧ hashCount ≤ 50 ∧
      bloomFilter lib estimatedElements =
        varIntD bloomSize ++ (List.replicate bloomSize 0 ++ (uint32D hashCount ++ (uint32D 0 ++ uint8D 0))) := by
    refine ⟨min (lib.calculateBloomSize (max estimatedElements 3)) 36000, _, Nat.min_le_right _ _,
      Nat.min_le_right (lib.bloomHashCount (max estimatedElements 3)
        (min (lib.calculateBloomSize (max estimatedElements 3)) 36000)) 50, ?_⟩
    simp only [bloomFilter, List.append_assoc]
  rw [hbloom]
  have hnine := @length_of_filter bloomSize hashCount
  by_cases hok : bloomSize < 253 ∨ 255 < bloomSize
  · exact bloomHead_of_size hsize hcount hok
  · obtain ⟨k, more, hbits, hvarint⟩ := varIntD_misread hok
    have hfirst : ∀ rest, readLE 4 (List.replicate 4 0 ++ rest) = (0, rest) := fun rest =>
      @Reads.readLE 4 0 (by decide) rest
    have hread := grammar_readVarInt.reads hvarint
      (List.replicate 4 0 ++ (List.replicate more 0 ++ (uint32D hashCount ++ (uint32D 0 ++ uint8D 0))))
    rw [show List.replicate bloomSize (0 : UInt8) = List.replicate k 0 ++ (List.replicate 4 0 ++ List.replicate more 0) by
      rw [List.replicate_append_replicate, List.replicate_append_replicate, hbits]] at hnine ⊢
    simp only [List.append_assoc] at hnine hread ⊢
    refine bloomHead_of_read hnine hread (by simp) ?_
    rw [List.drop_zero, uint32readP, hfirst]
    exact Nat.zero_le 50

/-! ## All of them -/

theorem bloomFilterArray_contains {searchElements : Datas} {bloom : Bytes}
    (h : bloomFilterArray lib searchElements = some (some bloom)) {element : Data} (hmem : element ∈ searchElements) :
    bloomFilterCheckElement lib bloom element = some true := by
  obtain ⟨last, hlast, hall⟩ : ∃ last : Data, last = some bloom ∧ bloomFilterArray lib searchElements = some last :=
    ⟨some bloom, rfl, h⟩
  have hrule := foldlM_rule (fun (before : Datas) (data : Data) =>
      ∀ bytes, data = some bytes → ∀ e ∈ before, bloomFilterCheckElement lib bytes e = some true) hall
    (fun _ _ e he => absurd he List.not_mem_nil)
    (by
      rintro before e after - data next hdata hstep bytes rfl
      cases data with
      | none => cases hstep
      | some old =>
        obtain ⟨⟨bytes', added⟩, hadd, hnext⟩ := Option.bind_eq_some_iff.1 hstep
        cases added with
        | false => cases hnext
        | true =>
          cases hnext
          obtain ⟨hself, hold⟩ := check_add hadd
          intro d hd
          rcases List.mem_append.1 hd with hd | hd
          · exact hold d (hdata old rfl d hd)
          · obtain rfl := List.mem_singleton.1 hd
            exact hself)
  exact hrule bloom hlast element hmem

/-- There is a filter, whatever is added. -/
theorem bloomFilterArray_some {searchElements : Datas} {last : Data} (h : bloomFilterArray lib searchElements = some last) :
    ∃ bloom, last = some bloom := by
  have hrule := foldlM_rule (fun _ (data : Data) => ∃ bytes, data = some bytes ∧ bloomHead bytes ≠ some none) h
    ⟨_, rfl, bloomHead_new lib _⟩
    (by
      rintro - element - - data next ⟨bytes, rfl, hhead⟩ hstep
      obtain ⟨⟨bytes', added⟩, hadd, hnext⟩ := Option.bind_eq_some_iff.1 hstep
      obtain ⟨found, hfound, hadd⟩ := Option.bind_eq_some_iff.1 hadd
      cases found with
      | none => exact absurd hfound hhead
      | some head =>
        cases hadd
        cases hnext
        refine ⟨_, rfl, ?_⟩
        rw [bloomHead_add hfound]
        simp)
  obtain ⟨bloom, rfl, -⟩ := hrule
  exact ⟨bloom, rfl⟩

/-! ## A transparent instance -/

def plainBloom : BloomLibrary where
  murmur3 key seed := key.foldl (fun hash x => hash * 31 + x.toUInt32) seed
  calculateBloomSize elements := 4 * elements
  bloomHashCount _ _ := 2

end BitcoinSpoon
