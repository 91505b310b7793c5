/-
  BitcoinSpoon.Util.Dictionary — dictionaries as the source keeps them (`code/Data.c`).

  The elements are a list sorted by key. `DatasSearch` finds one with the library's
  `bsearch`, and notes the element that was compared last and how: a new key goes next to
  it, on the side the comparison says. To replace a value is to remove the element and to
  insert another. A key is compared by its contents.

  After every step the elements are strictly sorted and are a finite map
  (`dictionary_refines`), which is what the other modules use (`Util/Data.lean`).
-/

import BitcoinSpoon.Loop.BinarySearch
import BitcoinSpoon.Loop.SortedMap
import BitcoinSpoon.Util.Data

namespace BitcoinSpoon.KeysAndValues

open Wire Loop

/-- `DictionaryElement`s. -/
abbrev Elements := List (Bytes × Data)

variable (search : BinarySearch) (order : KeyOrder Bytes)

/-- `compareKeys` of the key searched for and the element at `index`. -/
def compareKeys (keysAndValues : Elements) (key : Bytes) (index : Nat) : Int :=
  (keysAndValues[index]?.map fun element => order.compare key element.1).getD 0

/-- `DatasSearch` with `compareKeys`. -/
def datasSearch (keysAndValues : Elements) (key : Bytes) : Probe :=
  bsearch search (compareKeys order keysAndValues key) keysAndValues.length

def dictionaryRemove (keysAndValues : Elements) (key : Bytes) : Elements :=
  match (datasSearch search order keysAndValues key).found with
  | some index => keysAndValues.eraseIdx index
  | none => keysAndValues

/-- `DictionaryAddRefFlexible`; `dataCompareLastTouchedPtr` and `dataCompareLastResult` give
    the place. -/
def dictionaryAddCopy (keysAndValues : Elements) (key : Bytes) (value : Data) : Elements :=
  let result := datasSearch search order keysAndValues key
  let rest := match result.found with
    | some index => keysAndValues.eraseIdx index
    | none => keysAndValues
  rest.insertIdx result.place (key, value)

def dictionaryGetValueFlexible (keysAndValues : Elements) (key : Bytes) : Option Data :=
  (datasSearch search order keysAndValues key).found.bind fun index => keysAndValues[index]?.map Prod.snd

def dictionaryGetValue (keysAndValues : Elements) (key : Bytes) : Data :=
  (dictionaryGetValueFlexible search order keysAndValues key).getD none

def dictionaryHasKey (keysAndValues : Elements) (key : Bytes) : Bool :=
  (dictionaryGetValueFlexible search order keysAndValues key).isSome

def dictionaryCount (keysAndValues : Elements) : Nat := keysAndValues.length

/-! ## The search -/

variable {search order} {keysAndValues : Elements} {key : Bytes} {value : Data}

theorem compareKeys_get {index : Nat} {element : Bytes × Data} (h : keysAndValues[index]? = some element) :
    compareKeys order keysAndValues key index = order.compare key element.1 := by
  rw [compareKeys, h]
  rfl

theorem compareKeys_falls (h : Ascending order keysAndValues) :
    SignsFall (compareKeys order keysAndValues key) keysAndValues.length := by
  intro i j hij hj hle
  have hi := Nat.lt_trans hij hj
  have hget : ∀ {k : Nat} (hk : k < keysAndValues.length), keysAndValues[k]? = some keysAndValues[k] :=
    fun hk => List.getElem?_eq_getElem hk
  rw [compareKeys_get (hget hi)] at hle
  rw [compareKeys_get (hget hj)]
  have hlt := List.pairwise_iff_getElem.1 h i j hi hj hij
  rcases Int.lt_or_eq_of_le hle with hneg | hzero
  · exact order.trans _ _ _ hneg hlt
  · rw [(order.eq_iff _ _).1 hzero]
    exact hlt

/-- What a search says: the elements split at the key, and the place is between the parts. -/
theorem datasSearch_spec (h : Ascending order keysAndValues) (key : Bytes) :
    ∃ pre post, SplitAt order key pre post ∧ (datasSearch search order keysAndValues key).place = pre.length ∧
      ((∃ old, keysAndValues = pre ++ (key, old) :: post ∧
          (datasSearch search order keysAndValues key).found = some pre.length) ∨
        (keysAndValues = pre ++ post ∧ (datasSearch search order keysAndValues key).found = none)) := by
  cases hfound : (datasSearch search order keysAndValues key).found with
  | some index =>
    obtain ⟨hlt, hzero, hplace⟩ := bsearch_found hfound
    rw [compareKeys_get (List.getElem?_eq_getElem hlt), order.eq_iff] at hzero
    have hsplit : keysAndValues = keysAndValues.take index ++ (key, keysAndValues[index].2) :: keysAndValues.drop (index + 1) := by
      conv_lhs => rw [← List.take_append_drop index keysAndValues, List.drop_eq_getElem_cons hlt]
      rw [hzero]
    have hlength : (keysAndValues.take index).length = index := List.length_take_of_le (Nat.le_of_lt hlt)
    refine ⟨_, _, ?_, hplace.trans hlength.symm, Or.inl ⟨_, hsplit, congrArg some hlength.symm⟩⟩
    rw [hsplit] at h
    exact h.split
  | none =>
    obtain ⟨hle, hbelow, habove⟩ := bsearch_missing (compareKeys_falls h) hfound
    refine ⟨keysAndValues.take (datasSearch search order keysAndValues key).place,
      keysAndValues.drop (datasSearch search order keysAndValues key).place, ⟨?_, ?_⟩,
      (List.length_take_of_le hle).symm, Or.inr ⟨(List.take_append_drop _ _).symm, rfl⟩⟩
    · intro element hmem
      obtain ⟨i, hi⟩ := List.getElem?_of_mem hmem
      rw [List.getElem?_take] at hi
      split at hi
      · rename_i hlt
        have hsign := hbelow i hlt
        rw [compareKeys_get hi] at hsign
        exact (order.swap _ _).2 hsign
      · cases hi
    · intro element hmem
      obtain ⟨i, hi⟩ := List.getElem?_of_mem hmem
      rw [List.getElem?_drop] at hi
      have hsign : compareKeys order keysAndValues key ((datasSearch search order keysAndValues key).place + i) < 0 :=
        habove _ (Nat.le_add_right _ i) (List.getElem?_eq_some_iff.1 hi).1
      rwa [compareKeys_get hi] at hsign

theorem eraseIdx_middle (pre post : Elements) (element : Bytes × Data) :
    (pre ++ element :: post).eraseIdx pre.length = pre ++ post := by
  rw [List.eraseIdx_append_of_length_le (Nat.le_refl _), Nat.sub_self, List.eraseIdx_cons_zero]

theorem insertIdx_middle (pre post : Elements) (element : Bytes × Data) :
    (pre ++ post).insertIdx pre.length element = pre ++ element :: post := by
  induction pre with
  | nil => rfl
  | cons first pre ih => exact congrArg (first :: ·) ih

/-! ## The operations -/

/-- What the operations do with the elements before and behind the key. -/
theorem operations_spec (h : Ascending order keysAndValues) (key : Bytes) :
    ∃ pre post, SplitAt order key pre post ∧
      (∀ value, dictionaryAddCopy search order keysAndValues key value = pre ++ (key, value) :: post) ∧
      dictionaryRemove search order keysAndValues key = pre ++ post ∧
      ((∃ old, keysAndValues = pre ++ (key, old) :: post ∧
          dictionaryGetValueFlexible search order keysAndValues key = some old) ∨
        (keysAndValues = pre ++ post ∧ dictionaryGetValueFlexible search order keysAndValues key = none)) := by
  obtain ⟨pre, post, hsplit, hplace, ⟨old, hold, hfound⟩ | ⟨hnew, hfound⟩⟩ := @datasSearch_spec search order keysAndValues h key
  · refine ⟨pre, post, hsplit, fun value => ?_, ?_, Or.inl ⟨old, hold, ?_⟩⟩
    · rw [dictionaryAddCopy, hfound, hplace]
      dsimp only
      rw [hold, eraseIdx_middle, insertIdx_middle]
    · rw [dictionaryRemove, hfound]
      dsimp only
      rw [hold, eraseIdx_middle]
    · rw [dictionaryGetValueFlexible, hfound, Option.bind_some, hold]
      simp
  · refine ⟨pre, post, hsplit, fun value => ?_, ?_, Or.inr ⟨hnew, ?_⟩⟩
    · rw [dictionaryAddCopy, hfound, hplace]
      dsimp only
      rw [hnew, insertIdx_middle]
    · rw [dictionaryRemove, hfound]
      exact hnew
    · rw [dictionaryGetValueFlexible, hfound]
      rfl

theorem getValue_iff_mem (h : Ascending order keysAndValues) (key : Bytes) (value : Data) :
    dictionaryGetValueFlexible search order keysAndValues key = some value ↔ (key, value) ∈ keysAndValues := by
  obtain ⟨pre, post, hsplit, -, -, ⟨old, hold, hget⟩ | ⟨hnew, hget⟩⟩ := @operations_spec search order keysAndValues h key
  · rw [hget]
    constructor
    · intro heq
      cases heq
      rw [hold]
      simp
    · intro hmem
      exact congrArg some (h.unique (by rw [hold]; simp) hmem)
  · rw [hget]
    refine iff_of_false (fun heq => by cases heq) fun hmem => ?_
    rw [hnew] at hmem
    exact hsplit.ne hmem rfl

theorem ascending_addCopy (h : Ascending order keysAndValues) (key : Bytes) (value : Data) :
    Ascending order (dictionaryAddCopy search order keysAndValues key value) := by
  obtain ⟨pre, post, hsplit, hadd, -, hl⟩ := @operations_spec search order keysAndValues h key
  rw [hadd]
  refine hsplit.put ?_
  rcases hl with ⟨old, hold, -⟩ | ⟨hnew, -⟩
  · rw [hold] at h
    exact h.drop
  · rwa [hnew] at h

theorem getValue_addCopy (h : Ascending order keysAndValues) (key other : Bytes) (value : Data) :
    dictionaryGetValueFlexible search order (dictionaryAddCopy search order keysAndValues key value) other =
      if other = key then some value else dictionaryGetValueFlexible search order keysAndValues other := by
  obtain ⟨pre, post, hsplit, hadd, -, hl⟩ := @operations_spec search order keysAndValues h key
  ext found
  rw [getValue_iff_mem (ascending_addCopy h key value), hadd]
  by_cases hother : other = key
  · subst hother
    have hparts : (other, found) ∉ pre ++ post := fun hmem => hsplit.ne hmem rfl
    simp only [List.mem_append, List.mem_cons, Prod.mk.injEq, true_and, if_true, Option.some.injEq] at hparts ⊢
    tauto
  · rw [if_neg hother, getValue_iff_mem h]
    rcases hl with ⟨old, hold, -⟩ | ⟨hnew, -⟩
    · rw [hold]
      simp [hother]
    · rw [hnew]
      simp [hother]

theorem ascending_remove (h : Ascending order keysAndValues) (key : Bytes) :
    Ascending order (dictionaryRemove search order keysAndValues key) := by
  obtain ⟨pre, post, -, -, hremove, hl⟩ := @operations_spec search order keysAndValues h key
  rw [hremove]
  rcases hl with ⟨old, hold, -⟩ | ⟨hnew, -⟩
  · rw [hold] at h
    exact h.drop
  · rwa [hnew] at h

theorem getValue_remove (h : Ascending order keysAndValues) (key other : Bytes) :
    dictionaryGetValueFlexible search order (dictionaryRemove search order keysAndValues key) other =
      if other = key then none else dictionaryGetValueFlexible search order keysAndValues other := by
  obtain ⟨pre, post, hsplit, -, hremove, hl⟩ := @operations_spec search order keysAndValues h key
  ext found
  rw [getValue_iff_mem (ascending_remove h key), hremove]
  by_cases hother : other = key
  · subst hother
    rw [if_pos rfl]
    exact iff_of_false (fun hmem => hsplit.ne hmem rfl) (by simp)
  · rw [if_neg hother, getValue_iff_mem h]
    rcases hl with ⟨old, hold, -⟩ | ⟨hnew, -⟩
    · rw [hold]
      simp [hother]
    · rw [hnew]

variable {m : Finmap fun _ : Bytes => Data}

theorem represents_addCopy (h : Represents order keysAndValues m) (key : Bytes) (value : Data) :
    Represents order (dictionaryAddCopy search order keysAndValues key value) (m.insert key value) := by
  obtain ⟨pre, post, hsplit, hadd, -, hl⟩ := @operations_spec search order keysAndValues h.ascending key
  rw [hadd]
  refine h.put hsplit ?_
  rcases hl with ⟨old, hold, -⟩ | ⟨hnew, -⟩
  · exact Or.inr ⟨old, hold⟩
  · exact Or.inl hnew

theorem represents_remove (h : Represents order keysAndValues m) (key : Bytes) :
    Represents order (dictionaryRemove search order keysAndValues key) (m.erase key) := by
  obtain ⟨pre, post, hsplit, -, hremove, hl⟩ := @operations_spec search order keysAndValues h.ascending key
  rw [hremove]
  refine h.drop hsplit ?_
  rcases hl with ⟨old, hold, -⟩ | ⟨hnew, -⟩
  · exact Or.inr ⟨old, hold⟩
  · exact Or.inl hnew

theorem getValue_eq (h : Represents order keysAndValues m) (key : Bytes) :
    dictionaryGetValueFlexible search order keysAndValues key = m.lookup key := by
  ext value
  rw [getValue_iff_mem h.ascending, ← h.lookup]

/-! ## The default order -/

theorem compare_go_eq_iff (a b : Bytes) : dataCompare.go a b = 0 ↔ a = b := by
  induction a generalizing b with
  | nil => cases b <;> simp [dataCompare.go]; omega
  | cons x xs ih =>
    cases b with
    | nil => simp [dataCompare.go]; omega
    | cons y ys =>
      rw [dataCompare.go, List.cons.injEq]
      split
      · rename_i hxy
        rw [ih]
        simp [hxy]
      · rename_i hxy
        have hne : x.toNat ≠ y.toNat := fun h => hxy (UInt8.toNat_inj.1 h)
        simp only [hxy, false_and, iff_false]
        omega

theorem compare_go_swap (a b : Bytes) : dataCompare.go a b = - dataCompare.go b a := by
  induction a generalizing b with
  | nil => cases b <;> simp [dataCompare.go]
  | cons x xs ih =>
    cases b with
    | nil => simp [dataCompare.go]
    | cons y ys =>
      rw [dataCompare.go, dataCompare.go, ih]
      by_cases hxy : x = y
      · rw [if_pos hxy, if_pos hxy.symm]
      · rw [if_neg hxy, if_neg (Ne.symm hxy)]
        omega

theorem compare_go_trans (a b d : Bytes) (hab : dataCompare.go a b < 0) (hbd : dataCompare.go b d < 0) : dataCompare.go a d < 0 := by
  induction a generalizing b d with
  | nil =>
    cases d with
    | nil => cases b <;> simp [dataCompare.go] at hab hbd; omega
    | cons z zs => simp [dataCompare.go]; omega
  | cons x xs ih =>
    cases b with
    | nil => simp [dataCompare.go] at hab; omega
    | cons y ys =>
      cases d with
      | nil => simp [dataCompare.go] at hbd; omega
      | cons z zs =>
        have hnat : ∀ u v : UInt8, u = v ↔ u.toNat = v.toNat := fun u v => UInt8.toNat_inj.symm
        simp only [dataCompare.go, hnat] at hab hbd ⊢
        split at hab <;> split at hbd <;> split
        · exact ih ys zs hab hbd
        all_goals omega

/-- `DataCompare`, on contents. -/
def defaultOrder : KeyOrder Bytes where
  compare := dataCompare.go
  eq_iff := compare_go_eq_iff
  swap a b := by
    rw [compare_go_swap a b]
    omega
  trans := compare_go_trans

/-! ## Runs -/

inductive Operation where
  | add (key : Bytes) (value : Data)
  | remove (key : Bytes)

/-- On the elements. -/
def apply (search : BinarySearch) (order : KeyOrder Bytes) (keysAndValues : Elements) : Operation → Elements
  | .add key value => dictionaryAddCopy search order keysAndValues key value
  | .remove key => dictionaryRemove search order keysAndValues key

/-- On the map. -/
def applyMap (m : Finmap fun _ : Bytes => Data) : Operation → Finmap fun _ : Bytes => Data
  | .add key value => m.insert key value
  | .remove key => m.erase key

theorem represents_run (search : BinarySearch) (order : KeyOrder Bytes) (operations : List Operation) {keysAndValues : Elements}
    {m : Finmap fun _ : Bytes => Data} (h : Represents order keysAndValues m) :
    Represents order (operations.foldl (apply search order) keysAndValues) (operations.foldl applyMap m) := by
  induction operations generalizing keysAndValues m with
  | nil => exact h
  | cons operation operations ih =>
    cases operation with
    | add key value => exact ih (represents_addCopy h key value)
    | remove key => exact ih (represents_remove h key)

/-- The dictionary of `Util/Data.lean` keeps the elements in another order and gives the same
    answers. -/
theorem find_adds (search : BinarySearch) (order : KeyOrder Bytes) (items : List (Bytes × Data)) (key : Bytes) :
    dictionaryFind (items.foldl (fun dict item => BitcoinSpoon.dictionaryAddCopy dict item.1 item.2) Dictionary.empty) key =
      dictionaryGetValueFlexible search order
        (items.foldl (fun elements item => dictionaryAddCopy search order elements item.1 item.2) []) key := by
  have hall : ∀ (dict : Dictionary Bytes) (elements : Elements) (m : Finmap fun _ : Bytes => Data),
      Represents order elements m → (∀ k, dictionaryFind dict k = m.lookup k) →
      dictionaryFind (items.foldl (fun dict item => BitcoinSpoon.dictionaryAddCopy dict item.1 item.2) dict) key =
        dictionaryGetValueFlexible search order
          (items.foldl (fun elements item => dictionaryAddCopy search order elements item.1 item.2) elements) key := by
    induction items with
    | nil =>
      intro dict elements m hm hfind
      show dictionaryFind dict key = dictionaryGetValueFlexible search order elements key
      rw [hfind, getValue_eq hm]
    | cons item items ih =>
      intro dict elements m hm hfind
      refine ih _ _ _ (represents_addCopy hm item.1 item.2) fun k => ?_
      rw [find_addCopy]
      by_cases hk : k = item.1
      · rw [if_pos hk, hk, Finmap.lookup_insert]
      · rw [if_neg hk, hfind, Finmap.lookup_insert_of_ne m hk]
  refine hall Dictionary.empty [] ∅ represents_nil fun k => ?_
  rw [Finmap.lookup_empty]
  exact find_empty k

/-- After any operations, the elements are strictly sorted, no key is there twice, and every
    question gets the answer of the map; after adds alone also that of the dictionary of
    `Util/Data.lean`. -/
theorem dictionary_refines (search : BinarySearch) (order : KeyOrder Bytes) (operations : List Operation) :
    Ascending order (operations.foldl (apply search order) []) ∧
      ((operations.foldl (apply search order) []).map Prod.fst).Nodup ∧
      (∀ key, dictionaryGetValue search order (operations.foldl (apply search order) []) key =
        ((operations.foldl applyMap ∅).lookup key).getD none) ∧
      (∀ key, dictionaryHasKey search order (operations.foldl (apply search order) []) key =
        ((operations.foldl applyMap ∅).lookup key).isSome) ∧
      dictionaryCount (operations.foldl (apply search order) []) = (operations.foldl applyMap ∅).keys.card ∧
      ∀ items : List (Bytes × Data), operations = items.map (fun item => .add item.1 item.2) → ∀ key,
        dictionaryFind (items.foldl (fun dict item => BitcoinSpoon.dictionaryAddCopy dict item.1 item.2) Dictionary.empty) key =
          dictionaryGetValueFlexible search order (operations.foldl (apply search order) []) key := by
  have hall := represents_run search order operations represents_nil
  refine ⟨hall.ascending, hall.ascending.keys_nodup, fun key => ?_, fun key => ?_, hall.length, fun items hitems key => ?_⟩
  · rw [dictionaryGetValue, getValue_eq hall]
  · rw [dictionaryHasKey, getValue_eq hall]
  · rw [hitems, List.foldl_map]
    exact find_adds search order items key

end BitcoinSpoon.KeysAndValues
