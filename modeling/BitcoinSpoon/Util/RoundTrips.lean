/-
  BitcoinSpoon.Util.RoundTrips — lists and dictionaries written and read again
  (`code/Data.c`).

  `DatasDeserialize` moves an `int` through the string and compares it, as an unsigned
  number, with an unsigned length. Below 2^31 bytes nothing wraps and it reads what
  `datasDeserialize` does (`deserialize_cursor`). A dictionary is the list of its keys and
  values in turn; it is read in the order it was written in and never sorted again. So both
  come back, and so does what is nested in them, to any depth (`serialization_round_trips`).
-/

import BitcoinSpoon.Util.Dictionary
import BitcoinSpoon.Util.Serialize
import BitcoinSpoon.Loop.GapScan

namespace BitcoinSpoon

open Wire Loop KeysAndValues

/-! ## The cursor -/

/-- `*(uint32_t*)&data.bytes[i]`; `none` is a read before or behind the bytes. -/
def readLengthAt (data : Bytes) (i : UInt32) : Option UInt32 :=
  if i.toNat < 2 ^ 31 ∧ i.toNat + 4 ≤ data.length then some (UInt32.ofNat (readLE 4 (data.drop i.toNat)).1) else none

/-- The loop of `DatasDeserialize` from `i` on, over an `uint32_t` length. -/
def datasDeserializeAt (data : Bytes) : Nat → UInt32 → Option Datas
  | 0, _ => none
  | rounds + 1, i =>
    let size := UInt32.ofNat data.length
    if ¬ i < size then some []
    else if size - i < 4 then some []
    else do
      let length ← readLengthAt data i
      let i := i + 4
      if size - i < length then some []
      else
        let element := (data.drop i.toNat).take length.toNat
        let rest ← datasDeserializeAt data rounds (i + length)
        some (some element :: rest)

/-- What a call returns. -/
def DeserializesTo (data : Data) (datas : Datas) : Prop :=
  Returns (fun rounds => datasDeserializeAt data.toBytes rounds 0) datas

theorem readLE_four_lt (bytes : Bytes) (h : 4 ≤ bytes.length) : (readLE 4 bytes).1 < 2 ^ 32 := by
  rw [readLE, if_pos h]
  have hlt := leNat_lt (bytes.take 4)
  rwa [List.length_take, Nat.min_eq_left h] at hlt

/-- Below 2^31 bytes the bytes left are counted without a wrap. -/
theorem left_lt_iff {n : Nat} (hsize : n < 2 ^ 31) {i k : UInt32} (hi : i.toNat ≤ n) : UInt32.ofNat n - i < k ↔ n - i.toNat < k.toNat := by
  have hn : (UInt32.ofNat n).toNat = n := UInt32.toNat_ofNat_of_lt' (by simp [UInt32.size]; omega)
  rw [UInt32.lt_iff_toNat_lt, UInt32.toNat_sub_of_le _ _ (UInt32.le_iff_toNat_le.2 (by rw [hn]; exact hi)), hn]

/-- The cursor at `i` reads what the bytes from `i` on say. -/
theorem datasDeserializeAt_eq {data : Bytes} (hsize : data.length < 2 ^ 31) {rounds : Nat} {i : UInt32}
    (hi : i.toNat ≤ data.length) (hrounds : data.length - i.toNat < rounds) (more : Nat) (hmore : data.length - i.toNat ≤ more) :
    datasDeserializeAt data rounds i = some (datasDeserializeFrom more (data.drop i.toNat)) := by
  have hlen : (UInt32.ofNat data.length).toNat = data.length := UInt32.toNat_ofNat_of_lt' (by simp [UInt32.size]; omega)
  induction rounds generalizing i more with
  | zero => omega
  | succ rounds ih =>
    have hend : ¬ 4 ≤ data.length - i.toNat → datasDeserializeFrom more (data.drop i.toNat) = [] := by
      intro hshort
      cases more with
      | zero => rfl
      | succ more => rw [datasDeserializeFrom, if_pos (by rw [List.length_drop]; omega)]
    rw [datasDeserializeAt]
    dsimp only
    by_cases hlt : i < UInt32.ofNat data.length
    · have hlt' := UInt32.lt_iff_toNat_lt.1 hlt
      rw [hlen] at hlt'
      have hfew : UInt32.ofNat data.length - i < 4 ↔ data.length - i.toNat < 4 := left_lt_iff hsize hi
      rw [if_neg (not_not.2 hlt)]
      by_cases hfour : data.length - i.toNat < 4
      · rw [if_pos (hfew.2 hfour), hend (by omega)]
      have hdrop : (data.drop i.toNat).length = data.length - i.toNat := List.length_drop
      have hread : readLengthAt data i = some (UInt32.ofNat (readLE 4 (data.drop i.toNat)).1) := if_pos ⟨by omega, by omega⟩
      have hfits := readLE_four_lt (data.drop i.toNat) (by omega)
      have hsplit : readLE 4 (data.drop i.toNat) = ((readLE 4 (data.drop i.toNat)).1, data.drop (i.toNat + 4)) := by
        rw [readLE, if_pos (by omega), List.drop_drop]
      obtain ⟨length, hlength⟩ : ∃ length, (readLE 4 (data.drop i.toNat)).1 = length := ⟨_, rfl⟩
      rw [hlength] at hread hfits hsplit
      have hlength' : (UInt32.ofNat length).toNat = length := UInt32.toNat_ofNat_of_lt' hfits
      have hnext : (i + 4).toNat = i.toNat + 4 := by
        rw [UInt32.toNat_add]
        exact Nat.mod_eq_of_lt (by show i.toNat + 4 < 2 ^ 32; omega)
      obtain ⟨more, rfl⟩ : ∃ k, more = k + 1 := ⟨more - 1, by omega⟩
      have hlong : UInt32.ofNat data.length - (i + 4) < UInt32.ofNat length ↔ data.length - (i.toNat + 4) < length := by
        rw [left_lt_iff hsize (by omega), hnext, hlength']
      rw [if_neg (mt hfew.1 hfour), hread, datasDeserializeFrom, if_neg (by omega), hsplit]
      simp only [Option.bind_eq_bind, Option.bind_some]
      rw [List.length_drop]
      by_cases htoo : data.length - (i.toNat + 4) < length
      · rw [if_pos (hlong.2 htoo), if_pos htoo]
      · have hthere : (i + 4 + UInt32.ofNat length).toNat = i.toNat + 4 + length := by
          rw [UInt32.toNat_add, hnext, hlength']
          exact Nat.mod_eq_of_lt (by show _ < 2 ^ 32; omega)
        rw [if_neg (mt hlong.1 htoo), if_neg htoo, ih (by omega) (by omega) more (by omega), hthere, hnext, hlength', List.drop_drop]
        rfl
    · rw [if_pos hlt]
      have hge : ¬ i.toNat < data.length := by
        rw [UInt32.lt_iff_toNat_lt, hlen] at hlt
        exact hlt
      rw [hend (by omega)]

/-- Below 2^31 bytes the cursor reads the list. -/
theorem deserialize_cursor {data : Data} (hsize : data.length < 2 ^ 31) : DeserializesTo data (datasDeserialize data) := by
  have hzero : (0 : UInt32).toNat = 0 := rfl
  refine ⟨data.length + 1, ?_⟩
  have heq := @datasDeserializeAt_eq data.toBytes hsize (data.length + 1) 0 (by omega) (by rw [hzero]; exact Nat.lt_succ_self _)
    data.length (by rw [hzero]; exact Nat.le_refl _)
  rwa [hzero, List.drop_zero] at heq

/-! ## Dictionaries -/

def dictionarySerialize (dict : Elements) : Data :=
  datasSerialize (dict.flatMap fun item => [some item.1, item.2])

/-- The loop of `DictionaryDeserialize`. -/
def dictionaryElements : Datas → Elements
  | key :: value :: datas => (key.toBytes, value) :: dictionaryElements datas
  | _ => []

/-- `none` is `abort()`. -/
def dictionaryOfDatas (datas : Datas) : Option Elements :=
  if datas.length % 2 ≠ 0 then none else some (dictionaryElements datas)

/-- `DictDeserialize`, for less than 2^31 bytes. -/
def dictDeserialize (data : Data) : Option Elements := dictionaryOfDatas (datasDeserialize data)

/-- What a call of `DictionaryDeserialize` does. -/
def DictionaryDeserializesTo (data : Data) (dict : Option Elements) : Prop :=
  ∃ datas, DeserializesTo data datas ∧ dictionaryOfDatas datas = dict

/-- The values come back, none of them NULL. -/
def filledValues (dict : Elements) : Elements := dict.map fun item => (item.1, filled item.2)

theorem mem_datas_of_dict {dict : Elements} {item : Bytes × Data} (h : item ∈ dict) :
    item.2 ∈ dict.flatMap fun item => [some item.1, item.2] :=
  List.mem_flatMap.2 ⟨item, h, by simp⟩

theorem datas_of_dict_length (dict : Elements) : (dict.flatMap fun item => [some item.1, item.2]).length = 2 * dict.length := by
  induction dict with
  | nil => rfl
  | cons item dict ih =>
    rw [List.flatMap_cons, List.length_append, ih, List.length_cons]
    show 2 + 2 * dict.length = 2 * (dict.length + 1)
    omega

theorem dictionaryElements_filled (dict : Elements) :
    dictionaryElements ((dict.flatMap fun item => [some item.1, item.2]).map filled) = filledValues dict := by
  induction dict with
  | nil => rfl
  | cons item dict ih => exact congrArg ((item.1, filled item.2) :: ·) ih

theorem ascending_filledValues {order : KeyOrder Bytes} {dict : Elements} (h : Ascending order dict) :
    Ascending order (filledValues dict) :=
  List.pairwise_map.2 h

theorem lookup_filledValues {search : BinarySearch} {order : KeyOrder Bytes} {dict : Elements} (h : Ascending order dict) (key : Bytes) :
    dictionaryGetValueFlexible search order (filledValues dict) key =
      (dictionaryGetValueFlexible search order dict key).map filled := by
  ext value
  rw [getValue_iff_mem (ascending_filledValues h), Option.map_eq_some_iff, filledValues, List.mem_map]
  constructor
  · rintro ⟨⟨k, old⟩, hmem, heq⟩
    cases heq
    exact ⟨old, (getValue_iff_mem h _ old).2 hmem, rfl⟩
  · rintro ⟨old, hget, rfl⟩
    exact ⟨(key, old), (getValue_iff_mem h key old).1 hget, rfl⟩

/-! ## Round trips -/

/-- An element is shorter than the list it is written in. -/
theorem length_le_serialize {datas : Datas} {d : Data} (h : d ∈ datas) : d.length ≤ (datasSerialize datas).length := by
  induction datas with
  | nil => cases h
  | cons first datas ih =>
    have hcons : (datasSerialize (first :: datas)).length = 4 + first.length + (datasSerialize datas).length := by
      simp [datasSerialize, uint32D, Data.length, Nat.add_assoc]
    rw [hcons]
    rcases List.mem_cons.1 h with rfl | h
    · omega
    · have hle := ih h
      omega

theorem deserializes_serialize {datas : Datas} (h : (datasSerialize datas).length < 2 ^ 31) :
    DeserializesTo (datasSerialize datas) (datas.map filled) := by
  have hfits : Fits datas := by
    intro d hd
    have hle := length_le_serialize hd
    omega
  rw [← datasDeserialize_serialize hfits]
  exact deserialize_cursor h

theorem dictionary_deserializes {dict : Elements} (h : (dictionarySerialize dict).length < 2 ^ 31) :
    DictionaryDeserializesTo (dictionarySerialize dict) (some (filledValues dict)) := by
  refine ⟨_, deserializes_serialize h, ?_⟩
  rw [dictionaryOfDatas, if_neg (by rw [List.length_map, datas_of_dict_length]; omega), dictionaryElements_filled]

theorem dictDeserialize_serialize {dict : Elements} (h : (dictionarySerialize dict).length < 2 ^ 31) :
    dictDeserialize (dictionarySerialize dict) = some (filledValues dict) := by
  have hfits : Fits (dict.flatMap fun item => [some item.1, item.2]) := by
    intro d hd
    have hle : d.length ≤ (dictionarySerialize dict).length := length_le_serialize hd
    omega
  rw [dictDeserialize, dictionarySerialize, datasDeserialize_serialize hfits, dictionaryOfDatas,
    if_neg (by rw [List.length_map, datas_of_dict_length]; omega), dictionaryElements_filled]

/-- The values of what was read are there. -/
theorem filledValues_dictDeserialize {data : Data} {dict : Elements} (h : dictDeserialize data = some dict) :
    filledValues dict = dict := by
  have hall : ∀ (n : Nat) (datas : Datas), datas.length ≤ n → (∀ d ∈ datas, filled d = d) →
      filledValues (dictionaryElements datas) = dictionaryElements datas := by
    intro n
    induction n with
    | zero =>
      intro datas hlength _
      rw [List.length_eq_zero_iff.1 (Nat.le_zero.1 hlength)]
      rfl
    | succ n ih =>
      intro datas hlength hfilled
      match datas with
      | [] => rfl
      | [_] => rfl
      | key :: value :: datas =>
        have hrest := ih datas (by simp only [List.length_cons] at hlength; omega) fun d hd =>
          hfilled d (List.mem_cons_of_mem _ (List.mem_cons_of_mem _ hd))
        have hvalue := hfilled value (List.mem_cons_of_mem _ List.mem_cons_self)
        show (key.toBytes, filled value) :: filledValues (dictionaryElements datas) = _
        rw [hrest, hvalue]
        rfl
  rw [dictDeserialize, dictionaryOfDatas] at h
  split at h
  · cases h
  · cases h
    refine hall _ _ (Nat.le_refl _) fun d hd => ?_
    obtain ⟨bytes, rfl, -⟩ := mem_datasDeserialize hd
    rfl

/-! ## Nesting -/

/-- Byte strings, lists and dictionaries of the default order, one inside another. -/
inductive Value where
  | bytes (data : Data)
  | list (count : Nat) (items : Fin count → Value)
  | dict (keys : List Bytes) (ascending : keys.Pairwise fun a b => defaultOrder.compare a b < 0) (items : Fin keys.length → Value)

def Value.serialize : Value → Data
  | .bytes data => data
  | .list _ items => datasSerialize (List.ofFn fun i => (items i).serialize)
  | .dict keys _ items => dictionarySerialize (List.ofFn fun i => (keys[i], (items i).serialize))

/-- Reading `data` level by level gives the value. -/
def Value.ReadFrom : Value → Data → Prop
  | .bytes expected, data => data.toBytes = expected.toBytes
  | .list count items, data => ∃ datas, DeserializesTo data datas ∧ datas.length = count ∧
      ∀ (i : Fin count) (d : Data), datas[i]? = some d → (items i).ReadFrom d
  | .dict keys _ items, data => ∃ dict, DictionaryDeserializesTo data (some dict) ∧ dict.map Prod.fst = keys ∧
      ∀ (i : Fin keys.length) (item : Bytes × Data), dict[i]? = some item → (items i).ReadFrom item.2

theorem readFrom_serialize (value : Value) (h : value.serialize.length < 2 ^ 31) (data : Data)
    (hdata : data.toBytes = value.serialize.toBytes) : value.ReadFrom data := by
  induction value generalizing data with
  | bytes expected => exact hdata
  | list count items ih =>
    rw [Value.serialize] at h hdata
    have hread := deserializes_serialize h
    have hsmall : ∀ i, (items i).serialize.length < 2 ^ 31 := by
      intro i
      have hle := length_le_serialize (List.mem_ofFn.2 ⟨i, rfl⟩ : (items i).serialize ∈ List.ofFn fun i => (items i).serialize)
      omega
    refine ⟨_, (by rw [DeserializesTo, hdata]; exact hread), by simp, fun i d hd => ?_⟩
    refine ih i (hsmall i) d ?_
    simp at hd
    rw [← hd]
    rfl
  | dict keys ascending items ih =>
    rw [Value.serialize] at h hdata
    obtain ⟨datas, hread, hdict⟩ := dictionary_deserializes h
    have hsmall : ∀ i, (items i).serialize.length < 2 ^ 31 := by
      intro i
      have hmem : (keys[i], (items i).serialize) ∈ List.ofFn fun i => (keys[i], (items i).serialize) := List.mem_ofFn.2 ⟨i, rfl⟩
      have hle := length_le_serialize (mem_datas_of_dict hmem)
      rw [dictionarySerialize] at h
      dsimp only at hle
      omega
    refine ⟨_, ⟨datas, (by rw [DeserializesTo, hdata]; exact hread), hdict⟩, ?_, fun i item hitem => ?_⟩
    · simp [filledValues, Function.comp_def]
    · refine ih i (hsmall i) item.2 ?_
      simp [filledValues] at hitem
      rw [← hitem]
      rfl

/-- Lists and dictionaries come back, and so does what is nested in them. -/
theorem serialization_round_trips :
    (∀ datas : Datas, (datasSerialize datas).length < 2 ^ 31 → DeserializesTo (datasSerialize datas) (datas.map filled)) ∧
      (∀ dict : Elements, Ascending defaultOrder dict → (dictionarySerialize dict).length < 2 ^ 31 →
        ∃ read, DictionaryDeserializesTo (dictionarySerialize dict) (some read) ∧ Ascending defaultOrder read ∧
          ∀ search key, dictionaryGetValueFlexible search defaultOrder read key =
            (dictionaryGetValueFlexible search defaultOrder dict key).map filled) ∧
      ∀ value : Value, value.serialize.length < 2 ^ 31 → value.ReadFrom value.serialize :=
  ⟨fun _ h => deserializes_serialize h,
    fun _ hsorted h => ⟨_, dictionary_deserializes h, ascending_filledValues hsorted, fun _ => lookup_filledValues hsorted⟩,
    fun value h => readFrom_serialize value h _ rfl⟩

end BitcoinSpoon
