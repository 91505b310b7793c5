/-
  BitcoinSpoon.Util.Intersection — the keys two dictionaries share (`code/Data.c`).

  The loops go over the smaller of the two dictionaries. That settles the values as well:
  the header promises those of A, but when A has more keys than B they are B's
  (`dictionaryIntersection_iff`). Whether there is a shared key is answered right
  (`doesIntersect_iff`).
-/

import BitcoinSpoon.Loop.Rules
import BitcoinSpoon.Util.Dictionary

namespace BitcoinSpoon.KeysAndValues

open Wire Loop

variable (search : BinarySearch) (order : KeyOrder Bytes)

/-- `smaller` and `larger`. -/
def bySize (dictA dictB : Elements) : Elements × Elements :=
  if dictionaryCount dictB < dictionaryCount dictA then (dictB, dictA) else (dictA, dictB)

/-- The loop of `DictionaryIntersection`. -/
def sharedElements (smaller larger : Elements) : Elements :=
  smaller.foldl
    (fun result item =>
      if dictionaryHasKey search order larger item.1 then dictionaryAddCopy search order result item.1 item.2 else result)
    []

def dictionaryIntersection (dictA dictB : Elements) : Elements :=
  let (smaller, larger) := bySize dictA dictB
  sharedElements search order smaller larger

def dictionaryDoesIntersect (dictA dictB : Elements) : Bool :=
  let (smaller, larger) := bySize dictA dictB
  smaller.any fun item => dictionaryHasKey search order larger item.1

/-- A dictionary with the order of `DictNew`. -/
structure SortedDict where
  keysAndValues : Elements
  ascending : Ascending defaultOrder keysAndValues

/-- What the header says of `DictionaryIntersection`. -/
def KeepsValuesOfA (search : BinarySearch) (dictA dictB : SortedDict) : Prop :=
  ∀ key, dictionaryGetValueFlexible search defaultOrder
      (dictionaryIntersection search defaultOrder dictA.keysAndValues dictB.keysAndValues) key =
    if dictionaryHasKey search defaultOrder dictB.keysAndValues key then
      dictionaryGetValueFlexible search defaultOrder dictA.keysAndValues key
    else none

/-- What is said of `DictionaryDoesIntersect`. -/
structure TellsIntersection (search : BinarySearch) (dictA dictB : SortedDict) : Prop where
  nonempty : dictionaryDoesIntersect search defaultOrder dictA.keysAndValues dictB.keysAndValues = true ↔
    dictionaryIntersection search defaultOrder dictA.keysAndValues dictB.keysAndValues ≠ []
  symmetric : dictionaryDoesIntersect search defaultOrder dictA.keysAndValues dictB.keysAndValues =
    dictionaryDoesIntersect search defaultOrder dictB.keysAndValues dictA.keysAndValues

variable {search order} {dictA dictB smaller larger : Elements} {key : Bytes} {value : Data}

/-! ## Membership -/

theorem hasKey_iff_mem (h : Ascending order dictA) : dictionaryHasKey search order dictA key = true ↔ ∃ value, (key, value) ∈ dictA := by
  rw [dictionaryHasKey, Option.isSome_iff_exists]
  exact exists_congr fun value => getValue_iff_mem h key value

/-- The loop leaves the elements of the smaller dictionary whose keys the larger one has. -/
theorem sharedElements_spec (hsmaller : Ascending order smaller) :
    Ascending order (sharedElements search order smaller larger) ∧
      ∀ element, element ∈ sharedElements search order smaller larger ↔
        element ∈ smaller ∧ dictionaryHasKey search order larger element.1 = true := by
  refine foldl_rule (fun (before : Elements) (result : Elements) => Ascending order result ∧
      ∀ element, element ∈ result ↔ element ∈ before ∧ dictionaryHasKey search order larger element.1 = true)
    ⟨ascending_nil, by simp⟩ ?_
  rintro before item after hsplit result ⟨hresult, hmem⟩
  -- the key of this element is not in the result yet
  have hfresh : ∀ element ∈ before, element.1 ≠ item.1 := by
    intro element helement
    rw [hsplit] at hsmaller
    exact order.ne_of_lt (hsmaller.split.before element helement)
  by_cases hkey : dictionaryHasKey search order larger item.1 = true
  · rw [if_pos hkey]
    have hadded := @ascending_addCopy search order _ hresult item.1 item.2
    refine ⟨hadded, ?_⟩
    rintro ⟨k, v⟩
    rw [← @getValue_iff_mem search order _ hadded, getValue_addCopy hresult, List.mem_append, List.mem_singleton]
    by_cases hk : k = item.1
    · rw [if_pos hk, Option.some.injEq]
      constructor
      · rintro rfl
        exact ⟨.inr (by rw [hk]), by rw [hk]; exact hkey⟩
      · rintro ⟨hbefore | heq, -⟩
        · exact absurd hk (hfresh _ hbefore)
        · rw [← heq]
    · rw [if_neg hk, getValue_iff_mem hresult, hmem]
      constructor
      · exact fun h => ⟨.inl h.1, h.2⟩
      · rintro ⟨hbefore | heq, h⟩
        · exact ⟨hbefore, h⟩
        · exact absurd (congrArg Prod.fst heq) hk
  · rw [if_neg hkey]
    refine ⟨hresult, fun element => ?_⟩
    rw [hmem, List.mem_append, List.mem_singleton]
    constructor
    · exact fun h => ⟨.inl h.1, h.2⟩
    · rintro ⟨hbefore | rfl, h⟩
      · exact ⟨hbefore, h⟩
      · exact absurd h hkey

theorem bySize_spec (dictA dictB : Elements) :
    (dictionaryCount dictA ≤ dictionaryCount dictB ∧ bySize dictA dictB = (dictA, dictB)) ∨
      (dictionaryCount dictB < dictionaryCount dictA ∧ bySize dictA dictB = (dictB, dictA)) := by
  unfold bySize
  split
  · rename_i hlt
    exact .inr ⟨hlt, rfl⟩
  · rename_i hle
    exact .inl ⟨Nat.le_of_not_lt hle, rfl⟩

theorem ascending_intersection (hA : Ascending order dictA) (hB : Ascending order dictB) :
    Ascending order (dictionaryIntersection search order dictA dictB) := by
  unfold dictionaryIntersection
  rcases bySize_spec dictA dictB with ⟨-, heq⟩ | ⟨-, heq⟩
  · rw [heq]
    exact (sharedElements_spec hA).1
  · rw [heq]
    exact (sharedElements_spec hB).1

/-- Whichever is smaller, the keys are those of both. -/
theorem intersection_keys (hA : Ascending order dictA) (hB : Ascending order dictB) (key : Bytes) :
    (∃ value, (key, value) ∈ dictionaryIntersection search order dictA dictB) ↔
      dictionaryHasKey search order dictA key = true ∧ dictionaryHasKey search order dictB key = true := by
  rw [hasKey_iff_mem hA, hasKey_iff_mem hB]
  unfold dictionaryIntersection
  rcases bySize_spec dictA dictB with ⟨-, heq⟩ | ⟨-, heq⟩
  · rw [heq]
    simp only [(sharedElements_spec hA).2, hasKey_iff_mem hB, exists_and_right]
  · rw [heq]
    simp only [(sharedElements_spec hB).2, hasKey_iff_mem hA, exists_and_right]
    exact and_comm

theorem doesIntersect_iff_shared (hA : Ascending order dictA) (hB : Ascending order dictB) :
    dictionaryDoesIntersect search order dictA dictB = true ↔
      ∃ key, dictionaryHasKey search order dictA key = true ∧ dictionaryHasKey search order dictB key = true := by
  have hany : ∀ {smaller larger : Elements}, Ascending order smaller →
      ((smaller.any fun item => dictionaryHasKey search order larger item.1) = true ↔
        ∃ key, dictionaryHasKey search order smaller key = true ∧ dictionaryHasKey search order larger key = true) := by
    intro smaller larger hsmaller
    rw [List.any_eq_true]
    constructor
    · rintro ⟨⟨key, value⟩, hmem, hkey⟩
      exact ⟨key, (hasKey_iff_mem hsmaller).2 ⟨value, hmem⟩, hkey⟩
    · rintro ⟨key, hmem, hkey⟩
      obtain ⟨value, hmem⟩ := (hasKey_iff_mem hsmaller).1 hmem
      exact ⟨(key, value), hmem, hkey⟩
  unfold dictionaryDoesIntersect
  rcases bySize_spec dictA dictB with ⟨-, heq⟩ | ⟨-, heq⟩
  · rw [heq]
    exact hany hA
  · rw [heq]
    exact (hany hB).trans (exists_congr fun key => and_comm)

/-! ## Both calls -/

theorem doesIntersect_iff (search : BinarySearch) (dictA dictB : SortedDict) : TellsIntersection search dictA dictB where
  nonempty := by
    rw [doesIntersect_iff_shared dictA.ascending dictB.ascending]
    constructor
    · rintro ⟨key, hkey⟩
      obtain ⟨value, hmem⟩ := (intersection_keys dictA.ascending dictB.ascending key).2 hkey
      exact List.ne_nil_of_mem hmem
    · intro hne
      obtain ⟨⟨key, value⟩, hmem⟩ := List.exists_mem_of_ne_nil _ hne
      exact ⟨key, (intersection_keys dictA.ascending dictB.ascending key).1 ⟨value, hmem⟩⟩
  symmetric := by
    rw [Bool.eq_iff_iff, doesIntersect_iff_shared dictA.ascending dictB.ascending,
      doesIntersect_iff_shared dictB.ascending dictA.ascending]
    exact exists_congr fun key => and_comm

theorem keepsValuesOfA_iff (search : BinarySearch) (dictA dictB : SortedDict) :
    KeepsValuesOfA search dictA dictB ↔ dictionaryCount dictA.keysAndValues ≤ dictionaryCount dictB.keysAndValues ∨
      ∀ key a b, dictionaryGetValueFlexible search defaultOrder dictA.keysAndValues key = some a →
        dictionaryGetValueFlexible search defaultOrder dictB.keysAndValues key = some b → a = b := by
  obtain ⟨A, hA⟩ := dictA
  obtain ⟨B, hB⟩ := dictB
  unfold KeepsValuesOfA
  dsimp only
  have hsorted := @ascending_intersection search defaultOrder A B hA hB
  have hvalue : ∀ key, (dictionaryGetValueFlexible search defaultOrder (dictionaryIntersection search defaultOrder A B) key =
        if dictionaryHasKey search defaultOrder B key then dictionaryGetValueFlexible search defaultOrder A key else none) ↔
      ∀ value, (key, value) ∈ dictionaryIntersection search defaultOrder A B ↔
        (key, value) ∈ A ∧ dictionaryHasKey search defaultOrder B key = true := by
    intro key
    rw [Option.ext_iff]
    refine forall_congr' fun value => ?_
    rw [getValue_iff_mem hsorted]
    by_cases hkey : dictionaryHasKey search defaultOrder B key = true
    · rw [if_pos hkey, getValue_iff_mem hA]
      simp [hkey]
    · rw [if_neg hkey]
      simp [hkey]
  simp only [hvalue]
  unfold dictionaryIntersection
  rcases bySize_spec A B with ⟨hle, heq⟩ | ⟨hlt, heq⟩
  · rw [heq]
    exact iff_of_true (fun key value => (sharedElements_spec hA).2 (key, value)) (.inl hle)
  · rw [heq]
    simp only [(sharedElements_spec hB).2, getValue_iff_mem hA, getValue_iff_mem hB, Nat.not_le.2 hlt, false_or]
    constructor
    · intro h key a b ha hb
      have hmem := ((h key b).1 ⟨hb, (hasKey_iff_mem hA).2 ⟨a, ha⟩⟩).1
      exact hA.unique ha hmem
    · intro h key value
      constructor
      · rintro ⟨hb, hkey⟩
        obtain ⟨a, ha⟩ := (hasKey_iff_mem hA).1 hkey
        obtain rfl := h key a value ha hb
        exact ⟨ha, (hasKey_iff_mem hB).2 ⟨_, hb⟩⟩
      · rintro ⟨ha, hkey⟩
        obtain ⟨b, hb⟩ := (hasKey_iff_mem hB).1 hkey
        obtain rfl := h key value b ha hb
        exact ⟨hb, (hasKey_iff_mem hA).2 ⟨_, ha⟩⟩

/-- The values are A's when B is not the smaller dictionary, or where both have the same. -/
theorem dictionaryIntersection_iff (search : BinarySearch) (dictA dictB : SortedDict) :
    KeepsValuesOfA search dictA dictB ∧ TellsIntersection search dictA dictB ↔
      dictionaryCount dictA.keysAndValues ≤ dictionaryCount dictB.keysAndValues ∨
        ∀ key a b, dictionaryGetValueFlexible search defaultOrder dictA.keysAndValues key = some a →
          dictionaryGetValueFlexible search defaultOrder dictB.keysAndValues key = some b → a = b := by
  rw [keepsValuesOfA_iff]
  exact and_iff_left (doesIntersect_iff search dictA dictB)

/-- Two keys in A and one of them, with another value, in B. -/
theorem not_dictionaryIntersection :
    ¬ ∀ (search : BinarySearch) (dictA dictB : SortedDict), KeepsValuesOfA search dictA dictB ∧ TellsIntersection search dictA dictB := by
  intro h
  have hkeeps := (h .halving ⟨[([1], some [10]), ([2], some [20])], by unfold Ascending; decide⟩
    ⟨[([1], some [11])], by unfold Ascending; decide⟩).1 [1]
  exact absurd hkeeps (by decide)

end BitcoinSpoon.KeysAndValues
