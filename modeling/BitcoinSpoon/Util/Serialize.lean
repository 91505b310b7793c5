/-
  BitcoinSpoon.Util.Serialize — lists and integers as bytes (`code/Data.c`).

  A list is written as its elements, each after its length in four bytes. Reading stops
  where the bytes left are no whole element. What is written is read again
  (`datasDeserialize_serialize`), an element that was NULL as an empty one.
-/

import BitcoinSpoon.Util.Script

namespace BitcoinSpoon

open Wire

def datasSerialize (datas : Datas) : Data := some (datas.flatMap fun itr => uint32D itr.length ++ itr.toBytes)

/-- The loop of `DatasDeserialize`; every round but the last takes four bytes. -/
def datasDeserializeFrom : Nat → Bytes → Datas
  | 0, _ => []
  | rounds + 1, data =>
    if data.length < 4 then []
    else
      let (length, data) := readLE 4 data
      if data.length < length then [] else some (data.take length) :: datasDeserializeFrom rounds (data.drop length)

def datasDeserialize (data : Data) : Datas := datasDeserializeFrom data.length data.toBytes

/-- An `int32_t`. -/
def dataInt (value : Int32) : Data := some (uint32D value.toUInt32.toNat)

/-- `none` is `abort()`. -/
def dataGetInt (data : Data) : Option Int32 :=
  match data with
  | none => some 0
  | some bytes => if bytes.length ≠ 4 then none else some (UInt32.ofNat (readLE 4 bytes).1).toInt32

/-- An element past the end is read from memory that is none of the list's: `none`. -/
def datasAt (datas : Datas) (index : Nat) : Option Data := if datas.length = 0 then some none else datas[index]?

/-! ## Round trips -/

/-- An element that was NULL is there and empty. -/
def filled (d : Data) : Data := some d.toBytes

@[simp] theorem filled_toBytes (d : Data) : (filled d).toBytes = d.toBytes := rfl

@[simp] theorem filled_length (d : Data) : (filled d).length = d.length := rfl

/-- The list fits the `uint32_t` lengths of its elements. -/
def Fits (datas : Datas) : Prop := ∀ d ∈ datas, d.length < 2 ^ 32

/-- What is read is there, and of a length that was read. -/
theorem mem_datasDeserialize {data w : Data} (h : w ∈ datasDeserialize data) : ∃ bytes : Bytes, w = some bytes ∧ bytes.length < 2 ^ 32 := by
  have hall : ∀ (rounds : Nat) (bytes : Bytes), ∀ w ∈ datasDeserializeFrom rounds bytes,
      ∃ bytes : Bytes, w = some bytes ∧ bytes.length < 2 ^ 32 := by
    intro rounds
    induction rounds with
    | zero => intro bytes w hw; cases hw
    | succ rounds ih =>
      intro bytes w hw
      unfold datasDeserializeFrom at hw
      split at hw
      · cases hw
      rename_i hlong
      have hread : (readLE 4 bytes).1 < 2 ^ 32 := by
        rw [readLE, if_pos (Nat.le_of_not_lt hlong)]
        have hlt := leNat_lt (bytes.take 4)
        rwa [List.length_take, Nat.min_eq_left (Nat.le_of_not_lt hlong)] at hlt
      cases hsplit : readLE 4 bytes with
      | mk length rest =>
        rw [hsplit] at hw hread
        dsimp only at hw hread
        split at hw
        · cases hw
        · rcases List.mem_cons.1 hw with rfl | hw
          · refine ⟨_, rfl, ?_⟩
            rw [List.length_take]
            omega
          · exact ih _ w hw
  exact hall _ _ w h

theorem fits_datasDeserialize (data : Data) : Fits (datasDeserialize data) := by
  intro w hw
  obtain ⟨bytes, rfl, hlength⟩ := mem_datasDeserialize hw
  exact hlength

theorem datasDeserializeFrom_flatMap {datas : Datas} (h : Fits datas) {rounds : Nat}
    (hrounds : (datas.flatMap fun itr => uint32D itr.length ++ itr.toBytes).length ≤ rounds) :
    datasDeserializeFrom rounds (datas.flatMap fun itr => uint32D itr.length ++ itr.toBytes) = datas.map filled := by
  induction datas generalizing rounds with
  | nil => cases rounds <;> rfl
  | cons d datas ih =>
    have hd := h d List.mem_cons_self
    have hlen : d.toBytes.length = d.length := rfl
    rw [List.flatMap_cons, List.append_assoc] at hrounds ⊢
    generalize hrest : datas.flatMap (fun itr => uint32D itr.length ++ itr.toBytes) = rest at hrounds ih ⊢
    have hsize : (uint32D d.length).length = 4 := leBytes_length 4 _
    rw [List.length_append, List.length_append, hsize] at hrounds
    obtain ⟨more, rfl⟩ : ∃ more, rounds = more + 1 := ⟨rounds - 1, by omega⟩
    have hread : readLE 4 (uint32D d.length ++ (d.toBytes ++ rest)) = (d.length, d.toBytes ++ rest) :=
      Reads.readLE (by omega) _
    have hshort : ¬ (uint32D d.length ++ (d.toBytes ++ rest)).length < 4 := by
      rw [List.length_append, hsize]
      omega
    rw [datasDeserializeFrom, if_neg hshort, hread]
    dsimp only
    rw [if_neg (by rw [List.length_append]; omega), List.take_left' hlen, List.drop_left' hlen,
      ih (fun x hx => h x (List.mem_cons_of_mem _ hx)) (by omega)]
    rfl

theorem datasDeserialize_serialize {datas : Datas} (h : Fits datas) :
    datasDeserialize (datasSerialize datas) = datas.map filled :=
  datasDeserializeFrom_flatMap h (Nat.le_refl _)

theorem dataGetInt_dataInt (value : Int32) : dataGetInt (dataInt value) = some value := by
  have hlen : (uint32D value.toUInt32.toNat).length = 4 := leBytes_length 4 _
  have hread : readLE 4 (uint32D value.toUInt32.toNat ++ []) = (value.toUInt32.toNat, []) :=
    Reads.readLE value.toUInt32.toNat_lt _
  rw [List.append_nil] at hread
  rw [dataInt, dataGetInt, if_neg (not_not.2 hlen), hread]
  simp

theorem dataGetInt_filled (value : Int32) : dataGetInt (filled (dataInt value)) = some value := dataGetInt_dataInt value

@[simp] theorem dataInt_length (value : Int32) : (dataInt value).length = 4 := leBytes_length 4 _

end BitcoinSpoon
