/-
  BitcoinSpoon.Util.Dict — dictionaries used as sets of byte strings (`code/Data.c`), and
  the sets of what a script pushes (`code/Transaction.c`).

  Keys are compared by contents, so a NULL key is the empty one. The sets are cached in the
  inputs and outputs when they are first asked for; the cache is left out.
-/

import BitcoinSpoon.Transaction.Basic

namespace BitcoinSpoon

open Wire

abbrev Dict := Dictionary Bytes

def dictNew : Dict := Dictionary.empty

def dictHasKey (dict : Dict) (key : Data) : Bool := (dictionaryFind dict key.toBytes).isSome

def dictGet (dict : Dict) (key : Data) : Data := dictionaryGetValue dict key.toBytes

def dictAdd (dict : Dict) (key value : Data) : Dict := dictionaryAddCopy dict key.toBytes value

def dictAddDict (dict addition : Dict) : Dict :=
  addition.elements.foldl (fun dict item => dictAdd dict (some item.1) item.2) dict

/-- The keys of the smaller one are looked up in the larger one. -/
def dictDoesIntersect (dictA dictB : Dict) : Bool :=
  if dictB.elements.length < dictA.elements.length then dictB.elements.any fun item => dictHasKey dictA (some item.1)
  else dictA.elements.any fun item => dictHasKey dictB (some item.1)

/-! ## Keys -/

/-- The contents of `key` are a key of `dict`. -/
def IsKey (dict : Dict) (key : Bytes) : Prop := dictHasKey dict (some key) = true

@[simp] theorem isKey_new (key : Bytes) : ¬ IsKey dictNew key := by simp [IsKey, dictHasKey, dictNew]

theorem isKey_iff_mem {dict : Dict} {key : Bytes} : IsKey dict key ↔ ∃ item ∈ dict.elements, item.1 = key := by
  rw [IsKey, dictHasKey, dictionaryFind, toBytes_some]
  induction dict.elements with
  | nil => simp [findElement]
  | cons item rest ih =>
    obtain ⟨k, v⟩ := item
    rw [findElement]
    split
    · rename_i hk
      simp [hk]
    · rename_i hk
      rw [ih]
      simp [hk]

@[simp] theorem isKey_add {dict : Dict} {key value : Data} {k : Bytes} :
    IsKey (dictAdd dict key value) k ↔ k = key.toBytes ∨ IsKey dict k := by
  rw [IsKey, dictHasKey, dictAdd, toBytes_some, find_addCopy]
  split
  · rename_i hk
    simp [hk]
  · rename_i hk
    simp [hk, IsKey, dictHasKey]

theorem isKey_foldl_add {items : List (Bytes × Data)} {dict : Dict} {k : Bytes} :
    IsKey (items.foldl (fun dict item => dictAdd dict (some item.1) item.2) dict) k ↔
      IsKey dict k ∨ ∃ item ∈ items, item.1 = k := by
  induction items generalizing dict with
  | nil => simp
  | cons item items ih =>
    rw [List.foldl_cons, ih, isKey_add, toBytes_some]
    simp only [List.mem_cons, exists_eq_or_imp]
    rw [or_comm (a := k = item.1), or_assoc, eq_comm]

@[simp] theorem isKey_addDict {dict addition : Dict} {k : Bytes} :
    IsKey (dictAddDict dict addition) k ↔ IsKey dict k ∨ IsKey addition k := by
  rw [dictAddDict, isKey_foldl_add, ← isKey_iff_mem]

theorem dictDoesIntersect_iff {dictA dictB : Dict} :
    dictDoesIntersect dictA dictB = true ↔ ∃ key, IsKey dictA key ∧ IsKey dictB key := by
  have hone : ∀ dictA dictB : Dict, (dictA.elements.any fun item => dictHasKey dictB (some item.1)) = true ↔
      ∃ key, IsKey dictA key ∧ IsKey dictB key := by
    intro dictA dictB
    rw [List.any_eq_true]
    constructor
    · rintro ⟨item, hmem, hkey⟩
      exact ⟨item.1, isKey_iff_mem.2 ⟨item, hmem, rfl⟩, hkey⟩
    · rintro ⟨key, hA, hB⟩
      obtain ⟨item, hmem, rfl⟩ := isKey_iff_mem.1 hA
      exact ⟨item, hmem, hB⟩
  unfold dictDoesIntersect
  split
  · rw [hone]
    exact exists_congr fun key => and_comm
  · rw [hone]

/-! ## What a script pushes -/

/-- The keys, with NULL as their value. -/
def dictOfKeys (keys : Datas) : Dict := keys.foldl (fun dict key => dictAdd dict key none) dictNew

theorem isKey_ofKeys {keys : Datas} {k : Bytes} : IsKey (dictOfKeys keys) k ↔ ∃ key ∈ keys, key.toBytes = k := by
  have hall := @isKey_foldl_add (keys.map fun key => (key.toBytes, none)) dictNew k
  rw [List.foldl_map] at hall
  simpa [dictOfKeys, dictAdd] using hall

/-- Everything pushed: the script, the witness and the script it spends; a token without
    data is the empty key. -/
def transactionInputGetScriptTokensPushDataSet (input : TransactionInput) : Dict :=
  dictOfKeys ((scriptToTokens input.scriptData).map (·.data) ++ input.witnessStack ++
    (scriptToTokens input.fundingOutput.script).map (·.data))

/-- What is pushed and not empty. -/
def transactionOutputGetScriptTokensPushDataSet (output : TransactionOutput) : Dict :=
  dictOfKeys (((scriptToTokens output.script).map (·.data)).filter fun data => data.length ≠ 0)

end BitcoinSpoon
