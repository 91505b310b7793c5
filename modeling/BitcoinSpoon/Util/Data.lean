/-
  BitcoinSpoon.Util.Data — byte strings, lists of them and dictionaries (`code/Data.c`).

  A C `Data` is a pointer and a length. `none` is `DataNull()`, the NULL pointer;
  `some []` is an allocated string of length 0. The two differ where the source tests
  `.bytes` and are the same to everything that looks at contents (`dataEqual`,
  `datasHasMatchingData`, appending). Memory is not modelled: a copy is the value, and
  nothing runs out.
-/

import BitcoinSpoon.Wire.Cursor

namespace BitcoinSpoon

open Wire

abbrev Data := Option Bytes

abbrev Datas := List Data

namespace Data

/-- The contents; a NULL pointer has none. -/
def toBytes (d : Data) : Bytes := d.getD []

def length (d : Data) : Nat := (toBytes d).length

end Data

@[simp] theorem toBytes_none : Data.toBytes none = [] := rfl
@[simp] theorem toBytes_some (b : Bytes) : Data.toBytes (some b) = b := rfl
@[simp] theorem length_none : Data.length none = 0 := rfl
@[simp] theorem length_some (b : Bytes) : Data.length (some b) = b.length := rfl

theorem toBytes_eq_nil {d : Data} : d.toBytes = [] ↔ d.length = 0 := List.length_eq_zero_iff.symm

/-- `DataCompare(a, b) == 0`: the same contents. -/
def dataEqual (a b : Data) : Bool := a.toBytes == b.toBytes

@[simp] theorem dataEqual_iff {a b : Data} : dataEqual a b = true ↔ a.toBytes = b.toBytes := by simp [dataEqual]

/-- Bytes in `memcmp` order, then the shorter string first. -/
def dataCompare (a b : Data) : Int :=
  go a.toBytes b.toBytes
where
  go : Bytes → Bytes → Int
    | x :: xs, y :: ys => if x = y then go xs ys else (x.toNat : Int) - y.toNat
    | xs, ys => (xs.length : Int) - ys.length

/-- `DataAddCopy` / `DataAdd` / `DataAppend`: the concatenation, never NULL. -/
def dataAdd (first second : Data) : Data := some (first.toBytes ++ second.toBytes)

@[simp] theorem toBytes_dataAdd (a b : Data) : (dataAdd a b).toBytes = a.toBytes ++ b.toBytes := rfl

/-! ## Lists -/

def datasFirst (datas : Datas) : Data := datas.head?.getD none

def datasLast (datas : Datas) : Data := datas.getLast?.getD none

@[simp] theorem datasLast_nil : datasLast [] = none := rfl
@[simp] theorem datasLast_concat (datas : Datas) (d : Data) : datasLast (datas ++ [d]) = d := by simp [datasLast]
@[simp] theorem datasLast_singleton (d : Data) : datasLast [d] = d := rfl

theorem dropLast_concat_datasLast {datas : Datas} (h : datas ≠ []) : datas.dropLast ++ [datasLast datas] = datas := by
  rw [datasLast, List.getLast?_eq_some_getLast h]
  exact List.dropLast_concat_getLast h

def datasHasMatchingData (datas : Datas) (data : Data) : Bool := datas.any (dataEqual · data)

/-- `DatasAddCopyIndex`. -/
def datasAddCopyIndex (datas : Datas) (data : Data) (index : Nat) : Datas := datas.insertIdx index data

theorem datasAddCopyIndex_concat (datas : Datas) (last d : Data) :
    datasAddCopyIndex (datas ++ [last]) d ((datas ++ [last]).length - 1) = datas ++ [d, last] := by
  have h : (datas ++ [last]).length - 1 = datas.length := by simp
  rw [h, datasAddCopyIndex]
  induction datas with
  | nil => rfl
  | cons x xs ih => simpa using ih (by simp)

/-- `DatasSort` with `DataCompare`. -/
def datasSort (datas : Datas) : Datas := datas.mergeSort fun a b => dataCompare a b ≤ 0

/-! ## Dictionaries

The source keeps the elements sorted by key and finds them by binary search; a key
occurs once. No modelled function depends on the order of the elements. -/

structure Dictionary (κ : Type) where
  elements : List (κ × Data)
  keys_nodup : (elements.map Prod.fst).Nodup

variable {κ : Type} [DecidableEq κ]

def Dictionary.empty : Dictionary κ := ⟨[], List.nodup_nil⟩

def setElement (elements : List (κ × Data)) (key : κ) (value : Data) : List (κ × Data) :=
  match elements with
  | [] => [(key, value)]
  | (k, v) :: rest => if k = key then (key, value) :: rest else (k, v) :: setElement rest key value

def findElement (elements : List (κ × Data)) (key : κ) : Option Data :=
  match elements with
  | [] => none
  | (k, v) :: rest => if k = key then some v else findElement rest key

theorem setElement_keys (elements : List (κ × Data)) (key : κ) (value : Data) :
    (setElement elements key value).map Prod.fst =
      if key ∈ elements.map Prod.fst then elements.map Prod.fst else elements.map Prod.fst ++ [key] := by
  induction elements with
  | nil => rfl
  | cons e rest ih =>
    simp only [setElement]
    split
    · rename_i he; simp [he]
    · rename_i he
      simp only [List.map_cons, ih, List.mem_cons, Ne.symm he, false_or]
      split <;> simp

theorem setElement_nodup {elements : List (κ × Data)} (h : (elements.map Prod.fst).Nodup) (key : κ) (value : Data) :
    ((setElement elements key value).map Prod.fst).Nodup := by
  rw [setElement_keys]
  split
  · exact h
  · rename_i hk
    exact List.nodup_append.mpr ⟨h, by simp, fun a ha b hb => by
      obtain rfl := List.mem_singleton.mp hb
      rintro rfl; exact hk ha⟩

theorem findElement_setElement (elements : List (κ × Data)) (key k : κ) (value : Data) :
    findElement (setElement elements key value) k = if k = key then some value else findElement elements k := by
  induction elements with
  | nil => simp only [setElement, findElement, eq_comm]
  | cons e rest ih =>
    simp only [setElement]
    by_cases he : e.1 = key
    · simp only [he, if_true, findElement]
      by_cases hk : k = key
      · simp [hk]
      · simp [hk, Ne.symm hk]
    · simp only [he, if_false, findElement, ih]
      by_cases hk : e.1 = k
      · have : k ≠ key := fun h => he (hk.trans h)
        simp [hk, this]
      · simp [hk]

def dictionaryAddCopy (dict : Dictionary κ) (key : κ) (value : Data) : Dictionary κ :=
  ⟨setElement dict.elements key value, setElement_nodup dict.keys_nodup key value⟩

/-- The element under `key`, if there is one. -/
def dictionaryFind (dict : Dictionary κ) (key : κ) : Option Data := findElement dict.elements key

/-- NULL when the key is not there. -/
def dictionaryGetValue (dict : Dictionary κ) (key : κ) : Data := (dictionaryFind dict key).getD none

@[simp] theorem find_empty (k : κ) : dictionaryFind (Dictionary.empty : Dictionary κ) k = none := rfl

theorem find_addCopy (dict : Dictionary κ) (key k : κ) (value : Data) :
    dictionaryFind (dictionaryAddCopy dict key value) k = if k = key then some value else dictionaryFind dict k :=
  findElement_setElement dict.elements key k value

end BitcoinSpoon
