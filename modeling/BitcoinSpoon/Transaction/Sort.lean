/-
  BitcoinSpoon.Transaction.Sort — the order of inputs and outputs (`TransactionSort`,
  `code/Transaction.c`; `DataCompare`, `code/Data.c`).

  The comparisons end in a difference of two 32-bit numbers that is read as an `int`. Its
  sign is that of the order for numbers less than 2³¹ apart and the opposite one for all
  others: output indices of one transaction, and lengths where one string begins with the
  other. Apart from such pairs the result is sorted, and by nothing but its keys
  (`transactionSort_iff`).
-/

import BitcoinSpoon.Loop.SortKeys
import BitcoinSpoon.Transaction.Basic
import BitcoinSpoon.Util.Dictionary

namespace BitcoinSpoon

open Wire Loop

/-! ## The comparisons -/

/-- As far as the shorter one goes. -/
def memcmp : Bytes → Bytes → Int
  | x :: xs, y :: ys => if x = y then memcmp xs ys else x.toNat - y.toNat
  | _, _ => 0

/-- The difference of two `uint32_t`, as an `int`. -/
def intDifference (a b : UInt32) : Int := (a - b).toInt32.toInt

/-- `DataCompare`, its lengths the 32-bit numbers they are. -/
def dataCompareInt (dataA dataB : Data) : Int :=
  let result := memcmp dataA.toBytes dataB.toBytes
  if dataA.length = dataB.length ∨ result ≠ 0 then result
  else intDifference (UInt32.ofNat dataA.length) (UInt32.ofNat dataB.length)

def inputSorter (in1 in2 : TransactionInput) : Int :=
  let result := dataCompareInt (some in1.previousTransactionHash.toBytes.reverse) (some in2.previousTransactionHash.toBytes.reverse)
  if result = 0 then intDifference in1.outputIndex in2.outputIndex else result

def outputSorter (out1 out2 : TransactionOutput) : Int :=
  let result : Int := 0
  let result := if out1.value > out2.value then 1 else result
  let result := if out1.value < out2.value then -1 else result
  if result = 0 then dataCompareInt out1.script out2.script else result

def transactionSort (lib : (α : Type) → SortLibrary α) (tx : Transaction) : Transaction :=
  { tx with
    inputs := (lib TransactionInput).qsort inputSorter tx.inputs
    outputs := (lib TransactionOutput).qsort outputSorter tx.outputs }

/-! ## The order -/

def bytesKey (b : Bytes) : List Nat := b.map UInt8.toNat

/-- The reversed previous hash as bytes, then the output index. -/
def inputKey (input : TransactionInput) : List Nat ×ₗ Nat :=
  toLex (bytesKey input.previousTransactionHash.toBytes.reverse, input.outputIndex.toNat)

/-- The value, then the bytes of the script. -/
def outputKey (output : TransactionOutput) : Nat ×ₗ List Nat := toLex (output.value.toNat, bytesKey output.script.toBytes)

def TransactionInput.spends (input : TransactionInput) : Bytes × UInt32 :=
  (input.previousTransactionHash.toBytes, input.outputIndex)

structure SortsAsBip69 (lib : (α : Type) → SortLibrary α) (tx : Transaction) : Prop where
  inputs_perm : (transactionSort lib tx).inputs.Perm tx.inputs
  inputs_sorted : (transactionSort lib tx).inputs.Pairwise fun a b => inputKey a ≤ inputKey b
  outputs_perm : (transactionSort lib tx).outputs.Perm tx.outputs
  outputs_sorted : (transactionSort lib tx).outputs.Pairwise fun a b => outputKey a ≤ outputKey b
  /-- Outputs are the same when their values and the bytes of their scripts are. -/
  order_free : ∀ tx' : Transaction, tx'.inputs.Perm tx.inputs → tx'.outputs.Perm tx.outputs →
    (transactionSort lib tx').inputs = (transactionSort lib tx).inputs ∧
      (transactionSort lib tx').outputs.map outputKey = (transactionSort lib tx).outputs.map outputKey

/-- `Data.length` is an `unsigned int`. -/
def Transaction.LengthsFit (tx : Transaction) : Prop :=
  (∀ input ∈ tx.inputs, input.previousTransactionHash.length < 2 ^ 32) ∧ ∀ output ∈ tx.outputs, output.script.length < 2 ^ 32

/-- Where `b` goes on after `a`, it does for less than 2³¹ bytes. -/
def LengthsNear (a b : Bytes) : Prop := a <+: b → b.length < a.length + 2 ^ 31

def InputsNear (a b : TransactionInput) : Prop :=
  LengthsNear a.previousTransactionHash.toBytes.reverse b.previousTransactionHash.toBytes.reverse ∧
    (a.previousTransactionHash.toBytes = b.previousTransactionHash.toBytes → b.outputIndex.toNat < a.outputIndex.toNat + 2 ^ 31)

def OutputsNear (a b : TransactionOutput) : Prop := a.value = b.value → LengthsNear a.script.toBytes b.script.toBytes

/-! ## Differences -/

theorem intDifference_eq (a b : UInt32) : intDifference a b = ((a.toNat : Int) - b.toNat).bmod (2 ^ 32) := by
  show (a - b).toBitVec.toInt = _
  rw [UInt32.toBitVec_sub, BitVec.toInt_sub, BitVec.toInt_eq_toNat_bmod, BitVec.toInt_eq_toNat_bmod, Int.sub_bmod_bmod,
    Int.bmod_sub_bmod]
  rfl

theorem intDifference_near {a b : UInt32} (hab : a.toNat < b.toNat + 2 ^ 31) (hba : b.toNat < a.toNat + 2 ^ 31) :
    intDifference a b = (a.toNat : Int) - b.toNat := by
  rw [intDifference_eq, Int.bmod_eq_of_le] <;> omega

theorem intDifference_inverted {a b : UInt32} (h : a.toNat + 2 ^ 31 ≤ b.toNat) : intDifference b a < 0 := by
  have hb := b.toNat_lt
  rw [intDifference_eq, Int.bmod_def]
  omega

/-! ## Bytes -/

theorem memcmp_zero {a b : Bytes} (h : memcmp a b = 0) :
    dataCompare.go a b = (a.length : Int) - b.length ∧ (a <+: b ∨ b <+: a) := by
  induction a generalizing b with
  | nil => exact ⟨by cases b <;> simp [dataCompare.go], .inl List.nil_prefix⟩
  | cons x a ih =>
    cases b with
    | nil => exact ⟨by simp [dataCompare.go], .inr List.nil_prefix⟩
    | cons y b =>
      rw [memcmp] at h
      by_cases hxy : x = y
      · rw [if_pos hxy] at h
        obtain ⟨hgo, hpre⟩ := ih h
        refine ⟨?_, ?_⟩
        · rw [dataCompare.go, if_pos hxy, hgo, List.length_cons, List.length_cons]
          omega
        · rw [hxy, List.cons_prefix_cons, List.cons_prefix_cons]
          simpa using hpre
      · rw [if_neg hxy] at h
        have hne : x.toNat ≠ y.toNat := fun heq => hxy (UInt8.toNat_inj.mp heq)
        omega

theorem memcmp_differs {a b : Bytes} (h : memcmp a b ≠ 0) : dataCompare.go a b = memcmp a b := by
  induction a generalizing b with
  | nil => cases b <;> exact absurd rfl h
  | cons x a ih =>
    cases b with
    | nil => exact absurd rfl h
    | cons y b =>
      rw [memcmp] at h ⊢
      rw [dataCompare.go]
      by_cases hxy : x = y
      · rw [if_pos hxy] at h ⊢
        rw [if_pos hxy]
        exact ih h
      · rw [if_neg hxy, if_neg hxy]

theorem memcmp_begins {a b : Bytes} (h : a <+: b) : memcmp b a = 0 := by
  induction a generalizing b with
  | nil => cases b <;> rfl
  | cons x a ih =>
    obtain ⟨rest, rfl⟩ := h
    rw [List.cons_append, memcmp, if_pos rfl]
    exact ih (List.prefix_append a rest)

theorem compare_go_lt (a b : Bytes) : dataCompare.go a b < 0 ↔ bytesKey a < bytesKey b := by
  induction a generalizing b with
  | nil =>
    cases b with
    | nil => simp [dataCompare.go, bytesKey]
    | cons y b => simp [dataCompare.go, bytesKey]; omega
  | cons x a ih =>
    cases b with
    | nil => simp [dataCompare.go, bytesKey]; omega
    | cons y b =>
      show _ ↔ x.toNat :: bytesKey a < y.toNat :: bytesKey b
      rw [dataCompare.go, List.cons_lt_cons_iff, ← ih]
      by_cases hxy : x = y
      · simp [hxy]
      · have hne : x.toNat ≠ y.toNat := fun heq => hxy (UInt8.toNat_inj.mp heq)
        rw [if_neg hxy]
        omega

theorem compare_go_agrees (a b : Bytes) : Agrees (dataCompare.go a b) (bytesKey a) (bytesKey b) := by
  refine ⟨compare_go_lt a b, ?_⟩
  rw [← compare_go_lt, KeysAndValues.compare_go_swap a b]
  omega

section

variable {a b : Data} (ha : a.length < 2 ^ 32) (hb : b.length < 2 ^ 32)

include ha hb

theorem dataCompareInt_agrees (hab : LengthsNear a.toBytes b.toBytes) (hba : LengthsNear b.toBytes a.toBytes) :
    Agrees (dataCompareInt a b) (bytesKey a.toBytes) (bytesKey b.toBytes) := by
  have heq : dataCompareInt a b = dataCompare.go a.toBytes b.toBytes := by
    unfold dataCompareInt
    dsimp only
    by_cases hdiffers : memcmp a.toBytes b.toBytes = 0
    · obtain ⟨hgo, hpre⟩ := memcmp_zero hdiffers
      rw [hgo]
      by_cases hlen : a.length = b.length
      · rw [if_pos (.inl hlen), hdiffers]
        show 0 = (a.length : Int) - b.length
        omega
      · rw [if_neg (by simp [hlen, hdiffers])]
        have hnear : a.length < b.length + 2 ^ 31 ∧ b.length < a.length + 2 ^ 31 := by
          cases hpre with
          | inl hpre =>
            have hle : a.length ≤ b.length := hpre.length_le
            exact ⟨by omega, hab hpre⟩
          | inr hpre =>
            have hle : b.length ≤ a.length := hpre.length_le
            exact ⟨hba hpre, by omega⟩
        have ha' : (UInt32.ofNat a.length).toNat = a.length := UInt32.toNat_ofNat_of_lt' ha
        have hb' : (UInt32.ofNat b.length).toNat = b.length := UInt32.toNat_ofNat_of_lt' hb
        rw [intDifference_near (by rw [ha', hb']; exact hnear.1) (by rw [ha', hb']; exact hnear.2), ha', hb']
        rfl
    · rw [if_pos (.inr hdiffers), memcmp_differs hdiffers]
  rw [heq]
  exact compare_go_agrees _ _

theorem dataCompareInt_inverted (h : ¬ LengthsNear a.toBytes b.toBytes) :
    bytesKey a.toBytes < bytesKey b.toBytes ∧ dataCompareInt b a < 0 := by
  unfold LengthsNear at h
  rw [Classical.not_imp, not_lt] at h
  obtain ⟨hpre, hfar⟩ := h
  have hfar' : a.length + 2 ^ 31 ≤ b.length := hfar
  have hzero := memcmp_begins hpre
  refine ⟨?_, ?_⟩
  · rw [← compare_go_lt, KeysAndValues.compare_go_swap, (memcmp_zero hzero).1]
    show -((b.length : Int) - a.length) < 0
    omega
  · unfold dataCompareInt
    dsimp only
    rw [if_neg (by simp [hzero]; omega)]
    refine intDifference_inverted ?_
    rw [UInt32.toNat_ofNat_of_lt' ha, UInt32.toNat_ofNat_of_lt' hb]
    exact hfar'

end

/-! ## The sorters -/

theorem bytesKey_inj {a b : Bytes} (h : bytesKey a = bytesKey b) : a = b :=
  List.map_injective_iff.mpr (fun _ _ => UInt8.toNat_inj.mp) h

theorem flipped_length (d : Data) : Data.length (some d.toBytes.reverse) = d.length := List.length_reverse

theorem natAgrees_difference (a b : Nat) : Agrees ((a : Int) - b) a b := ⟨by omega, by omega⟩

theorem inputSorter_agrees {a b : TransactionInput} (ha : a.previousTransactionHash.length < 2 ^ 32)
    (hb : b.previousTransactionHash.length < 2 ^ 32) (hab : InputsNear a b) (hba : InputsNear b a) :
    Agrees (inputSorter a b) (inputKey a) (inputKey b) := by
  unfold inputSorter inputKey
  refine Agrees.lex (dataCompareInt_agrees (by rwa [flipped_length]) (by rwa [flipped_length]) hab.1 hba.1) fun hkey => ?_
  have hhash := List.reverse_injective (bytesKey_inj hkey)
  rw [intDifference_near (hba.2 hhash.symm) (hab.2 hhash)]
  exact natAgrees_difference _ _

theorem inputSorter_inverted {a b : TransactionInput} (ha : a.previousTransactionHash.length < 2 ^ 32)
    (hb : b.previousTransactionHash.length < 2 ^ 32) (h : ¬ InputsNear a b) :
    inputKey a < inputKey b ∧ inputSorter b a < 0 := by
  unfold InputsNear at h
  unfold inputSorter inputKey
  rw [Prod.Lex.toLex_lt_toLex]
  dsimp only
  by_cases hlen : LengthsNear a.previousTransactionHash.toBytes.reverse b.previousTransactionHash.toBytes.reverse
  · rw [not_and, Classical.not_imp, not_lt] at h
    obtain ⟨hhash, hfar⟩ := h hlen
    have htie : dataCompareInt (some b.previousTransactionHash.toBytes.reverse) (some a.previousTransactionHash.toBytes.reverse) = 0 := by
      rw [hhash, dataCompareInt, if_pos (.inl rfl)]
      exact memcmp_begins List.prefix_rfl
    rw [if_pos htie]
    exact ⟨.inr ⟨by rw [hhash], by omega⟩, intDifference_inverted hfar⟩
  · obtain ⟨hlt, hneg⟩ := dataCompareInt_inverted (a := some a.previousTransactionHash.toBytes.reverse)
      (b := some b.previousTransactionHash.toBytes.reverse) (by rwa [flipped_length]) (by rwa [flipped_length]) hlen
    rw [if_neg (by omega)]
    exact ⟨.inl hlt, hneg⟩

/-- The value decides, and the script where the values tie. -/
theorem outputSorter_eq (a b : TransactionOutput) :
    outputSorter a b =
      if (if a.value < b.value then (-1 : Int) else if a.value > b.value then 1 else 0) = 0 then dataCompareInt a.script b.script
      else if a.value < b.value then -1 else if a.value > b.value then 1 else 0 := rfl

theorem valueAgrees (a b : UInt64) :
    Agrees (if a < b then (-1 : Int) else if a > b then 1 else 0) a.toNat b.toNat := by
  unfold Agrees
  by_cases hlt : a < b
  · rw [if_pos hlt]
    rw [UInt64.lt_iff_toNat_lt] at hlt
    omega
  · rw [if_neg hlt]
    rw [UInt64.lt_iff_toNat_lt] at hlt
    by_cases hgt : b < a
    · rw [if_pos hgt]
      rw [UInt64.lt_iff_toNat_lt] at hgt
      omega
    · rw [if_neg hgt]
      rw [UInt64.lt_iff_toNat_lt] at hgt
      omega

theorem outputSorter_agrees {a b : TransactionOutput} (ha : a.script.length < 2 ^ 32) (hb : b.script.length < 2 ^ 32)
    (hab : OutputsNear a b) (hba : OutputsNear b a) : Agrees (outputSorter a b) (outputKey a) (outputKey b) := by
  rw [outputSorter_eq, outputKey, outputKey]
  refine Agrees.lex (valueAgrees a.value b.value) fun hvalue => ?_
  have hsame := UInt64.toNat_inj.mp hvalue
  exact dataCompareInt_agrees ha hb (hab hsame) (hba hsame.symm)

theorem outputSorter_inverted {a b : TransactionOutput} (ha : a.script.length < 2 ^ 32) (hb : b.script.length < 2 ^ 32)
    (h : ¬ OutputsNear a b) : outputKey a < outputKey b ∧ outputSorter b a < 0 := by
  unfold OutputsNear at h
  rw [Classical.not_imp] at h
  obtain ⟨hvalue, hfar⟩ := h
  obtain ⟨hlt, hneg⟩ := dataCompareInt_inverted ha hb hfar
  rw [outputSorter_eq, outputKey, outputKey, Prod.Lex.toLex_lt_toLex, hvalue]
  refine ⟨.inr ⟨rfl, hlt⟩, ?_⟩
  rw [if_pos (by simp)]
  exact hneg

/-! ## The transaction -/

section

variable {lib : (α : Type) → SortLibrary α} {tx : Transaction}

/-- Two arrangements of inputs without a repeated outpoint, both in order. -/
theorem inputs_eq_of_sorted {l m : List TransactionInput}
    (hdistinct : tx.inputs.Pairwise fun a b => a.spends ≠ b.spends) (hl : l.Perm tx.inputs) (hm : m.Perm tx.inputs)
    (hlsorted : l.Pairwise fun a b => inputKey a ≤ inputKey b) (hmsorted : m.Pairwise fun a b => inputKey a ≤ inputKey b) :
    l = m := by
  have : Std.Symm fun a b : TransactionInput => a.spends ≠ b.spends := ⟨fun _ _ h => h.symm⟩
  refine List.Perm.eq_of_pairwise (fun a b ha hb hab hba => ?_) hlsorted hmsorted (hl.trans hm.symm)
  have hkey : inputKey a = inputKey b := le_antisymm hab hba
  have hpair := toLex_inj.mp hkey
  rw [Prod.mk.injEq] at hpair
  have hhash := List.reverse_injective (bytesKey_inj hpair.1)
  have hindex := UInt32.toNat_inj.mp hpair.2
  by_contra hne
  exact hdistinct.forall (hl.subset ha) (hm.subset hb) hne (by rw [TransactionInput.spends, hhash, hindex]; rfl)

theorem SortsAsBip69.sortsBy (h : SortsAsBip69 lib tx) :
    SortsBy inputKey inputSorter (lib TransactionInput) tx.inputs ∧
      SortsBy outputKey outputSorter (lib TransactionOutput) tx.outputs := by
  refine ⟨⟨h.inputs_perm, h.inputs_sorted, fun m hm => ?_⟩, h.outputs_perm, h.outputs_sorted, fun m hm => ?_⟩
  · exact congrArg (List.map inputKey) (h.order_free { tx with inputs := m } hm (List.Perm.refl _)).1
  · exact (h.order_free { tx with outputs := m } (List.Perm.refl _) hm).2

/-- The comparisons have the sign of the order on every pair. -/
theorem sortsAsBip69_of_agrees (hlib : ∀ α, (lib α).Lawful)
    (hdistinct : tx.inputs.Pairwise fun a b => a.spends ≠ b.spends)
    (hinputs : ∀ a ∈ tx.inputs, ∀ b ∈ tx.inputs, Agrees (inputSorter a b) (inputKey a) (inputKey b))
    (houtputs : ∀ a ∈ tx.outputs, ∀ b ∈ tx.outputs, Agrees (outputSorter a b) (outputKey a) (outputKey b)) :
    SortsAsBip69 lib tx := by
  have hin := qsort_sortedBy (hlib TransactionInput) hinputs
  have hout := sortsBy_of_agrees (hlib TransactionOutput) houtputs
  refine ⟨hin.1, hin.2, hout.1, hout.2.1, fun tx' hi ho => ⟨?_, hout.2.2 _ ho⟩⟩
  have hin' := qsort_sortedBy (hlib TransactionInput) fun a ha b hb => hinputs a (hi.subset ha) b (hi.subset hb)
  exact inputs_eq_of_sorted hdistinct (hin'.1.trans hi) hin.1 hin'.2 hin.2

/-- Whatever `qsort` does with comparisons that are not consistent: the result is that of
    BIP69 exactly when no two numbers that are compared are 2³¹ or more apart. -/
theorem transactionSort_iff (hfit : tx.LengthsFit) (hdistinct : tx.inputs.Pairwise fun a b => a.spends ≠ b.spends) :
    (∀ lib : (α : Type) → SortLibrary α, (∀ α, (lib α).Lawful) → SortsAsBip69 lib tx) ↔
      (∀ a ∈ tx.inputs, ∀ b ∈ tx.inputs, InputsNear a b) ∧ ∀ a ∈ tx.outputs, ∀ b ∈ tx.outputs, OutputsNear a b := by
  constructor
  · intro h
    obtain ⟨hinputs, houtputs⟩ := (h (fun _ => bareLibrary) fun _ => bareLibrary_lawful).sortsBy
    refine ⟨fun a ha b hb => ?_, fun a ha b hb => ?_⟩
    · by_contra hfar
      obtain ⟨hkey, hneg⟩ := inputSorter_inverted (hfit.1 a ha) (hfit.1 b hb) hfar
      exact not_sortsBy_of_inverted ha hb hkey hneg hinputs
    · by_contra hfar
      obtain ⟨hkey, hneg⟩ := outputSorter_inverted (hfit.2 a ha) (hfit.2 b hb) hfar
      exact not_sortsBy_of_inverted ha hb hkey hneg houtputs
  · intro ⟨hinputs, houtputs⟩ lib hlib
    exact sortsAsBip69_of_agrees hlib hdistinct
      (fun a ha b hb => inputSorter_agrees (hfit.1 a ha) (hfit.1 b hb) (hinputs a ha b hb) (hinputs b hb a ha))
      (fun a ha b hb => outputSorter_agrees (hfit.2 a ha) (hfit.2 b hb) (houtputs a ha b hb) (houtputs b hb a ha))

end

/-- An input that spends this output of the transaction with the zero hash. -/
def spendingOutput (index : UInt32) : TransactionInput :=
  ⟨⟨none, 0⟩, some (List.replicate 32 0), index, none, 0xffffffff, [], 0⟩

theorem transactionSort_two :
    SortsAsBip69 (fun _ => bareLibrary) ⟨1, [spendingOutput 1, spendingOutput 0], [⟨some [0x51], 2⟩, ⟨some [], 2⟩], 0⟩ :=
  (transactionSort_iff (by unfold Transaction.LengthsFit; decide) (by decide)).mpr
    ⟨by unfold InputsNear LengthsNear; decide, by unfold OutputsNear LengthsNear; decide⟩ (fun _ => bareLibrary)
      fun _ => bareLibrary_lawful

/-- The outputs 0 and 0xffffffff of one transaction: the second one is sorted first. -/
theorem not_transactionSort :
    ¬ ∀ (lib : (α : Type) → SortLibrary α) (tx : Transaction), (∀ α, (lib α).Lawful) →
      tx.inputs.Pairwise (fun a b => a.spends ≠ b.spends) → SortsAsBip69 lib tx := by
  intro h
  have hsorts := h (fun _ => bareLibrary) ⟨1, [spendingOutput 0, spendingOutput 0xffffffff], [], 0⟩
    (fun _ => bareLibrary_lawful) (by decide)
  have hinverted : inputSorter (spendingOutput 0xffffffff) (spendingOutput 0) < 0 := by decide +kernel
  have hkey : inputKey (spendingOutput 0) < inputKey (spendingOutput 0xffffffff) := by
    unfold inputKey
    rw [Prod.Lex.toLex_lt_toLex]
    exact .inr ⟨rfl, by decide⟩
  exact not_sortsBy_of_inverted (by simp) (by simp) hkey hinverted hsorts.sortsBy.1

end BitcoinSpoon
