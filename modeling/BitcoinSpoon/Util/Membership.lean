/-
  BitcoinSpoon.Util.Membership — a Bloom filter as a set of bits.

  `bloomFilterAddElement` only asks that the bits do not end the filter; where the hash count
  and the tweak do not fit behind them they are read from whatever stands in memory there.
  Here that memory is a list of its own, `behind`, and the calls of `Util/Bloom.lean` are
  those that do not need it (`addElementIn_eq`). A call that returns 1 fixes the bits of
  every element, adding one is adding its bits (`setBits_iff`), and a filter is the set of
  its bits (`eq_of_hasBit`). So nothing that was added is missed, no bit is cleared, no other
  byte changes and the order does not count (`bloomFilter_contains`).
-/

import BitcoinSpoon.Util.Bloom

namespace BitcoinSpoon

open Wire Loop

variable (lib : BloomLibrary) (behind : Bytes)

/-- Before the loops. -/
def bloomHeadIn (bloomFilter : Bytes) : Option (Option BloomHead) :=
  if bloomFilter.length < 9 then some none
  else
    let (filterSize, filter) := readVarInt bloomFilter
    if filter.length ≤ filterSize then some none
    else
      let (hashCount, rest) := uint32readP (filter.drop filterSize ++ behind)
      let (tweak, _) := uint32readP rest
      if 50 < hashCount then some none
      else if filterSize = 0 ∧ hashCount ≠ 0 then none
      else some (some ⟨filterSize, filter, hashCount, tweak⟩)

/-- `bloomFilterAddElement`. -/
def addElementIn (bloomFilter : Bytes) (element : Data) : Option (Bytes × Bool) := do
  match ← bloomHeadIn behind bloomFilter with
  | none => some (bloomFilter, false)
  | some head => some (bloomFilter.take (bloomFilter.length - head.filter.length) ++ setBits lib head element, true)

/-- `bloomFilterCheckElement`. -/
def checkElementIn (bloomFilter : Bytes) (element : Data) : Option Bool := do
  match ← bloomHeadIn behind bloomFilter with
  | none => some false
  | some head => some ((List.range head.hashCount).all fun i => hasBit head.filter (bloomNumber lib head element i))

/-- One element after another, as long as the calls return 1. -/
def addElements (elements : Datas) (bloomFilter : Bytes) : Option Bytes :=
  elements.foldlM
    (fun bloomFilter element => (addElementIn lib behind bloomFilter element).bind fun (next, added) =>
      if added then some next else none)
    bloomFilter

/-- The bits are some of those behind the size, and some of them are set; all else is as it
    was. -/
def OnlySetsBits (before after : Bytes) : Prop :=
  ∃ size bits bits' rest, before = size ++ bits ++ rest ∧ after = size ++ bits' ++ rest ∧ Reads readVarInt size bits.length ∧
    bits'.length = bits.length ∧ ∀ number, hasBit bits number = true → hasBit bits' number = true

variable {lib behind} {bloom filter : Bytes} {head : BloomHead} {element : Data}

/-! ## Sets of bits -/

theorem hasBit_setBit_iff {number other : Nat} (h : number / 8 < filter.length) :
    hasBit (setBit filter number) other = true ↔ hasBit filter other = true ∨ other = number := by
  constructor
  · intro hset
    by_cases hother : other = number
    · exact .inr hother
    refine .inl ?_
    unfold hasBit setBit at hset
    unfold hasBit
    rw [List.getD_eq_getElem?_getD, List.getElem?_modify] at hset
    rw [List.getD_eq_getElem?_getD]
    cases hbyte : filter[other / 8]? with
    | none =>
      rw [hbyte] at hset
      simp at hset
    | some byte =>
      rw [hbyte] at hset
      change (if number / 8 = other / 8 then _ else byte).toNat.testBit (other % 8) = true at hset
      show byte.toNat.testBit (other % 8) = true
      split at hset
      · rename_i hsame
        rw [toNat_orBit, Nat.testBit_or, Nat.one_shiftLeft, Bool.or_eq_true] at hset
        refine hset.resolve_right fun hbit => hother ?_
        have hmod := of_decide_eq_true ((Nat.testBit_two_pow ..).symm.trans hbit)
        omega
      · exact hset
  · rintro (hold | rfl)
    · exact hasBit_setBit hold
    · exact hasBit_setBit_self h

/-- A filter is its length and its bits. -/
theorem eq_of_hasBit {a b : Bytes} (hlength : a.length = b.length) (h : ∀ number, hasBit a number = hasBit b number) : a = b := by
  refine List.ext_getElem hlength fun i hi hi' => ?_
  refine UInt8.toNat_inj.1 (Nat.eq_of_testBit_eq fun j => ?_)
  by_cases hj : j < 8
  · have hbit := h (8 * i + j)
    unfold hasBit at hbit
    rw [show (8 * i + j) / 8 = i by omega, show (8 * i + j) % 8 = j by omega, List.getD_eq_getElem _ _ hi,
      List.getD_eq_getElem _ _ hi'] at hbit
    exact hbit
  · have hsmall : ∀ byte : UInt8, byte.toNat < 2 ^ j := fun byte =>
      Nat.lt_of_lt_of_le byte.toNat_lt (Nat.pow_le_pow_right (by decide) (Nat.le_of_not_lt hj))
    rw [Nat.testBit_lt_two_pow (hsmall _), Nat.testBit_lt_two_pow (hsmall _)]

/-- The numbers of an element. -/
def numbersOf (lib : BloomLibrary) (head : BloomHead) (element : Data) : List Nat :=
  (List.range head.hashCount).map (bloomNumber lib head element)

theorem setBits_iff (hsize : head.hashCount ≠ 0 → head.filterSize ≠ 0) (hfilter : head.filterSize ≤ head.filter.length) (number : Nat) :
    hasBit (setBits lib head element) number = true ↔
      hasBit head.filter number = true ∨ number ∈ numbersOf lib head element := by
  unfold setBits numbersOf
  have hrule := foldl_rule (fun (before : List Nat) (bits : Bytes) => bits.length = head.filter.length ∧
      (hasBit bits number = true ↔ hasBit head.filter number = true ∨ number ∈ before.map (bloomNumber lib head element)))
    (l := List.range head.hashCount) (f := fun filter i => setBit filter (bloomNumber lib head element i)) (s := head.filter)
    ⟨rfl, by simp⟩
    (by
      rintro before i after hsplit bits ⟨hlength, hiff⟩
      have hmem : i ∈ List.range head.hashCount := by rw [hsplit]; simp
      have hcount : head.hashCount ≠ 0 := Nat.ne_of_gt (Nat.lt_of_le_of_lt (Nat.zero_le i) (List.mem_range.1 hmem))
      have hlt : bloomNumber lib head element i < head.filterSize * 8 :=
        Nat.mod_lt _ (Nat.mul_pos (Nat.pos_of_ne_zero (hsize hcount)) (by decide))
      refine ⟨by rw [setBit_length, hlength], ?_⟩
      rw [hasBit_setBit_iff (by omega), hiff, List.map_append, List.mem_append, List.map_singleton, List.mem_singleton, or_assoc])
  exact hrule.2

/-! ## The head -/

theorem bloomHeadIn_some (h : bloomHeadIn behind bloom = some (some head)) :
    ∃ p, bloom = p ++ head.filter ∧ Reads readVarInt p head.filterSize ∧ 9 ≤ bloom.length ∧
      head.filterSize < head.filter.length ∧ (head.hashCount ≠ 0 → head.filterSize ≠ 0) ∧ head.hashCount ≤ 50 ∧
      head.hashCount = (uint32readP (head.filter.drop head.filterSize ++ behind)).1 ∧
      head.tweak = (uint32readP (uint32readP (head.filter.drop head.filterSize ++ behind)).2).1 := by
  unfold bloomHeadIn at h
  split at h
  · cases h
  rename_i hnine
  have hclamps := grammar_readVarInt.clamps bloom
  cases hread : readVarInt bloom with
  | mk filterSize filter =>
    rw [hread] at h hclamps
    dsimp only at h hclamps
    split at h
    · cases h
    rename_i hfits
    cases hcount : uint32readP (filter.drop filterSize ++ behind) with
    | mk hashCount rest =>
      cases htweak : uint32readP rest with
      | mk tweak more =>
        rw [hcount] at h
        dsimp only at h
        rw [htweak] at h
        dsimp only at h
        split at h
        · cases h
        rename_i hfifty
        split at h
        · cases h
        rename_i hzero
        cases h
        rcases hclamps with hend | ⟨p, hp, hbloom⟩
        · rw [hend] at hfits
          exact absurd (Nat.zero_le _) hfits
        · exact ⟨p, hbloom, grammar_readVarInt.reads hp, Nat.le_of_not_lt hnine, Nat.lt_of_not_le hfits,
            fun hne hsize => hzero ⟨hsize, hne⟩, Nat.le_of_not_lt hfifty, by rw [hcount], by rw [hcount, htweak]⟩

theorem bloomHeadIn_append {p filter : Bytes} {head : BloomHead} (hp : Reads readVarInt p head.filterSize)
    (hlength : 9 ≤ p.length + filter.length) (hfits : head.filterSize < filter.length)
    (hsize : head.hashCount ≠ 0 → head.filterSize ≠ 0) (hfifty : head.hashCount ≤ 50)
    (hcount : head.hashCount = (uint32readP (filter.drop head.filterSize ++ behind)).1)
    (htweak : head.tweak = (uint32readP (uint32readP (filter.drop head.filterSize ++ behind)).2).1) :
    bloomHeadIn behind (p ++ filter) = some (some { head with filter := filter }) := by
  rw [bloomHeadIn, if_neg (by rw [List.length_append]; omega), hp]
  dsimp only
  rw [if_neg (by omega)]
  cases hread : uint32readP (filter.drop head.filterSize ++ behind) with
  | mk hashCount rest =>
    cases hmore : uint32readP rest with
    | mk tweak more =>
      rw [hread] at hcount htweak
      rw [hmore] at htweak
      dsimp only at hcount htweak ⊢
      rw [hmore]
      dsimp only
      rw [← hcount, ← htweak, if_neg (by omega), if_neg fun h => hsize h.2 h.1]

theorem readP_append {filter : Bytes} (h : 4 ≤ filter.length) (more : Bytes) :
    uint32readP (filter ++ more) = ((uint32readP filter).1, (uint32readP filter).2 ++ more) := by
  have hmore : 4 ≤ (filter ++ more).length := by
    rw [List.length_append]
    omega
  unfold uint32readP readLE
  rw [if_pos h, if_pos hmore, List.take_append_of_le_length h, List.drop_append_of_le_length h]

/-- The memory does not matter to a filter that has all of its head. -/
theorem bloomHeadIn_eq {found : Option BloomHead} (h : bloomHead bloom = some found) (behind : Bytes) :
    bloomHeadIn behind bloom = some found := by
  unfold bloomHead at h
  unfold bloomHeadIn
  by_cases hnine : bloom.length < 9
  · rw [if_pos hnine] at h ⊢
    exact h
  rw [if_neg hnine] at h ⊢
  cases hread : readVarInt bloom with
  | mk filterSize filter =>
    rw [hread] at h
    dsimp only at h ⊢
    by_cases hfits : filter.length ≤ filterSize
    · rw [if_pos hfits] at h ⊢
      exact h
    rw [if_neg hfits] at h ⊢
    by_cases htail : filter.length < filterSize + 8
    · rw [if_pos htail] at h
      cases h
    rw [if_neg htail] at h
    have hrest : (uint32readP (filter.drop filterSize)).2 = (filter.drop filterSize).drop 4 := by
      unfold uint32readP readLE
      rw [if_pos (by rw [List.length_drop]; omega)]
    rw [readP_append (by rw [List.length_drop]; omega)]
    dsimp only
    rw [readP_append (by rw [hrest, List.length_drop, List.length_drop]; omega)]
    exact h

theorem addElementIn_eq {result : Bytes × Bool} (h : bloomFilterAddElement lib bloom element = some result) (behind : Bytes) :
    addElementIn lib behind bloom element = some result := by
  obtain ⟨found, hfound, hresult⟩ := Option.bind_eq_some_iff.1 h
  exact Option.bind_eq_some_iff.2 ⟨found, bloomHeadIn_eq hfound behind, hresult⟩

/-! ## Many elements -/

/-- The bytes from the bits on, when the elements have been added. -/
structure HasBitsOf (lib : BloomLibrary) (head : BloomHead) (elements : Datas) (filter : Bytes) : Prop where
  length : filter.length = head.filter.length
  drop : filter.drop head.filterSize = head.filter.drop head.filterSize
  bits : ∀ number, hasBit filter number = true ↔
    hasBit head.filter number = true ∨ ∃ element ∈ elements, number ∈ numbersOf lib head element

/-- The order of the elements and how often they occur is not a part of it. -/
theorem HasBitsOf.unique {elements elements' : Datas} {filter' : Bytes} (h : HasBitsOf lib head elements filter)
    (h' : HasBitsOf lib head elements' filter') (hsame : ∀ element, element ∈ elements' ↔ element ∈ elements) : filter' = filter := by
  refine eq_of_hasBit (h'.length.trans h.length.symm) fun number => Bool.eq_iff_iff.2 ?_
  rw [h.bits, h'.bits]
  simp only [hsame]

variable (lib) in
theorem addElementIn_some {p : Bytes} (hbloom : bloom = p ++ head.filter) (h : bloomHeadIn behind bloom = some (some head))
    (element : Data) : addElementIn lib behind bloom element = some (p ++ setBits lib head element, true) := by
  have htake : bloom.take (bloom.length - head.filter.length) = p := by
    rw [hbloom, List.length_append, Nat.add_sub_cancel, List.take_left]
  rw [addElementIn, h, ← htake]
  rfl

variable (lib) in
theorem addElements_filled (elements : Datas) {p : Bytes} (hbloom : bloom = p ++ head.filter)
    (h : bloomHeadIn behind bloom = some (some head)) :
    ∃ filter, addElements lib behind elements bloom = some (p ++ filter) ∧
      bloomHeadIn behind (p ++ filter) = some (some { head with filter := filter }) ∧ HasBitsOf lib head elements filter := by
  induction elements generalizing bloom head with
  | nil =>
    refine ⟨head.filter, congrArg some hbloom, ?_, rfl, rfl, by simp⟩
    rw [← hbloom]
    exact h
  | cons element elements ih =>
    obtain ⟨q, hq, hreads, hnine, hfits, hsize, hfifty, hcount, htweak⟩ := bloomHeadIn_some h
    obtain rfl : q = p := List.append_cancel_right (hq.symm.trans hbloom)
    obtain ⟨hlength, hdrop, -⟩ := @setBits_keeps lib head element hsize
    have hnext := @bloomHeadIn_append behind q (setBits lib head element) head hreads
      (by rw [hlength, ← List.length_append, ← hbloom]; exact hnine) (by rw [hlength]; exact hfits) hsize hfifty
      (by rw [hdrop]; exact hcount) (by rw [hdrop]; exact htweak)
    obtain ⟨filter, hadd, hhead, hfilled⟩ := @ih _ { head with filter := setBits lib head element } rfl hnext
    refine ⟨filter, ?_, hhead, hfilled.length.trans hlength, hfilled.drop.trans hdrop, fun number => ?_⟩
    · have hfirst := addElementIn_some lib hbloom h element
      rw [addElements, List.foldlM_cons, hfirst]
      exact hadd
    · -- the numbers of an element do not depend on the bits
      have hnumbers : ∀ e, numbersOf lib { head with filter := setBits lib head element } e = numbersOf lib head e := fun _ => rfl
      rw [hfilled.bits]
      simp only [hnumbers, setBits_iff hsize hfits.le, List.mem_cons, exists_eq_or_imp, or_assoc]

theorem check_filled {elements : Datas} {p : Bytes} (hhead : bloomHeadIn behind (p ++ filter) = some (some { head with filter := filter }))
    (hfilled : HasBitsOf lib head elements filter) (hmem : element ∈ elements) :
    checkElementIn lib behind (p ++ filter) element = some true := by
  rw [checkElementIn, hhead]
  refine congrArg some (List.all_eq_true.2 fun i hi => ?_)
  exact (hfilled.bits _).2 (.inr ⟨element, hmem, List.mem_map.2 ⟨i, hi, rfl⟩⟩)

theorem hasBit_take_iff (filter : Bytes) (size number : Nat) :
    hasBit (filter.take size) number = true ↔ number / 8 < size ∧ hasBit filter number = true := by
  unfold hasBit
  rw [List.getD_eq_getElem?_getD, List.getD_eq_getElem?_getD, List.getElem?_take]
  split
  · rename_i hlt
    simp [hlt]
  · rename_i hle
    simp [hle]

/-- Whatever stands in memory behind a filter, if an element can be added to it then any can, in
    any order, and all of them are found. -/
theorem bloomFilter_contains (lib : BloomLibrary) (behind bloom : Bytes) (first : Data) (next : Bytes)
    (h : addElementIn lib behind bloom first = some (next, true)) (elements : Datas) :
    ∃ result, addElements lib behind elements bloom = some result ∧
      (∀ element ∈ elements, checkElementIn lib behind result element = some true) ∧ OnlySetsBits bloom result ∧
      ∀ elements' : Datas, (∀ element, element ∈ elements' ↔ element ∈ elements) →
        addElements lib behind elements' bloom = some result := by
  obtain ⟨found, hhead, hnext⟩ := Option.bind_eq_some_iff.1 h
  cases found with
  | none => cases hnext
  | some head =>
    obtain ⟨p, hbloom, hreads, -, hfits, -⟩ := bloomHeadIn_some hhead
    obtain ⟨filter, hadd, hhead', hfilled⟩ := addElements_filled lib elements hbloom hhead
    refine ⟨p ++ filter, hadd, fun element hmem => check_filled hhead' hfilled hmem, ?_, fun elements' hsame => ?_⟩
    · have hbits : (head.filter.take head.filterSize).length = head.filterSize := List.length_take_of_le hfits.le
      have hbits' : (filter.take head.filterSize).length = head.filterSize :=
        List.length_take_of_le (by rw [hfilled.length]; exact hfits.le)
      refine ⟨p, head.filter.take head.filterSize, filter.take head.filterSize, head.filter.drop head.filterSize, ?_, ?_, ?_, ?_, ?_⟩
      · rw [List.append_assoc, List.take_append_drop, hbloom]
      · rw [List.append_assoc, ← hfilled.drop, List.take_append_drop]
      · rw [hbits]
        exact hreads
      · rw [hbits, hbits']
      · intro number hset
        rw [hasBit_take_iff] at hset ⊢
        exact ⟨hset.1, (hfilled.bits number).2 (.inl hset.2)⟩
    · obtain ⟨filter', hadd', -, hfilled'⟩ := addElements_filled lib elements' hbloom hhead
      rw [hadd', hfilled.unique hfilled' hsame]

theorem bloomFilter_contains_two : ∃ result, addElements plainBloom [] [some [1], some [2]] (bloomFilter plainBloom 3) = some result ∧
      (∀ element ∈ [some [1], some [2]], checkElementIn plainBloom [] result element = some true) ∧
      OnlySetsBits (bloomFilter plainBloom 3) result ∧
      ∀ elements' : Datas, (∀ element, element ∈ elements' ↔ element ∈ [some [1], some [2]]) →
        addElements plainBloom [] elements' (bloomFilter plainBloom 3) = some result :=
  bloomFilter_contains plainBloom [] (bloomFilter plainBloom 3) (some [1])
    ((addElements plainBloom [] [some [1]] (bloomFilter plainBloom 3)).getD []) (by decide +kernel) [some [1], some [2]]

end BitcoinSpoon
