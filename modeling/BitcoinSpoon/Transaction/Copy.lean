/-
  BitcoinSpoon.Transaction.Copy — copies through the wire format (`TransactionCopy`,
  `code/Transaction.c`).

  The copy is what `TransactionNew` makes of `TransactionData`, with the funding outputs
  set again. A serializable transaction comes back with the same data as soon as it has an
  input, or no output either. With outputs only, the two counts are taken for the marker
  and the flag of a witness transaction, and no outcome of that is a copy: what the parser
  reads and the serializer writes back is never heavier than the bytes that were there,
  and the flag is lost (`transactionCopy_faithful`).
-/

import BitcoinSpoon.Transaction.RoundTrip

namespace BitcoinSpoon

open Wire

/-! ## Building -/

def transactionEmpty : Transaction := ⟨2, [], [], 0⟩

def transactionAddInput (tx : Transaction) (txHash : Data) (index : UInt32) (pubScript : Data) (value : UInt64) : Transaction :=
  { tx with
    inputs := tx.inputs ++
      [{ fundingOutput := ⟨pubScript, value⟩, previousTransactionHash := txHash, outputIndex := index, scriptData := none
         sequence := 0xffffffff, witnessStack := [], witnessFlag := 0 }] }

def transactionAddOutput (tx : Transaction) (pubScript : Data) (value : UInt64) : Transaction :=
  { tx with outputs := tx.outputs ++ [⟨pubScript, value⟩] }

def inputZero : TransactionInput := ⟨⟨none, 0⟩, none, 0, none, 0, [], 0⟩

/-- The inputs up to `index`, all there. -/
def transactionInputAt (tx : Transaction) (index : Nat) : Transaction :=
  { tx with inputs := tx.inputs ++ List.replicate (index + 1 - tx.inputs.length) inputZero }

def transactionOutputAt (tx : Transaction) (index : Nat) : Transaction :=
  { tx with outputs := tx.outputs ++ List.replicate (index + 1 - tx.outputs.length) ⟨none, 0⟩ }

/-- What the program makes of them; it writes through the pointers it gets. -/
inductive Built : Transaction → Prop where
  | empty : Built transactionEmpty
  | parsed {data : Data} {tx : Transaction} (h : transactionNew data = some tx) : Built tx
  | addInput {tx : Transaction} (h : Built tx) (txHash : Data) (index : UInt32) (pubScript : Data) (value : UInt64) :
      Built (transactionAddInput tx txHash index pubScript value)
  | addOutput {tx : Transaction} (h : Built tx) (pubScript : Data) (value : UInt64) :
      Built (transactionAddOutput tx pubScript value)
  | inputAt {tx : Transaction} (h : Built tx) (index : Nat) (write : TransactionInput → TransactionInput) :
      Built ((transactionInputAt tx index).modifyInput index write)
  | outputAt {tx : Transaction} (h : Built tx) (index : Nat) (write : TransactionOutput → TransactionOutput) :
      Built { transactionOutputAt tx index with outputs := (transactionOutputAt tx index).outputs.modify index write }

/-! ## Copying -/

def copyFunding : List TransactionInput → List TransactionInput → List TransactionInput
  | inputNew :: inputsNew, inputOld :: inputsOld =>
    { inputNew with fundingOutput := inputOld.fundingOutput } :: copyFunding inputsNew inputsOld
  | inputsNew, _ => inputsNew

def transactionCopy (tx : Transaction) : Option Transaction :=
  match transactionNew (some (transactionData tx)) with
  | none => none
  | some result =>
    -- the loop runs over the old inputs, and past the end of the new ones
    if result.inputs.length < tx.inputs.length then none
    else some { result with inputs := copyFunding result.inputs tx.inputs }

def CopiesFaithfully (tx : Transaction) : Prop :=
  ∃ copy, transactionCopy tx = some copy ∧ transactionData copy = transactionData tx ∧
    copy.inputs.map (·.fundingOutput) = tx.inputs.map (·.fundingOutput)

theorem copyFunding_length (inputsNew inputsOld : List TransactionInput) :
    (copyFunding inputsNew inputsOld).length = inputsNew.length := by
  induction inputsNew generalizing inputsOld with
  | nil => cases inputsOld <;> rfl
  | cons inputNew inputsNew ih =>
    cases inputsOld with
    | nil => rfl
    | cons inputOld inputsOld => rw [copyFunding, List.length_cons, List.length_cons, ih]

/-- The funding outputs are not serialized. -/
theorem copyFunding_map {β : Type} (f : TransactionInput → β) (hf : ∀ input output, f { input with fundingOutput := output } = f input)
    (inputsNew inputsOld : List TransactionInput) : (copyFunding inputsNew inputsOld).map f = inputsNew.map f := by
  induction inputsNew generalizing inputsOld with
  | nil => cases inputsOld <;> rfl
  | cons inputNew inputsNew ih =>
    cases inputsOld with
    | nil => rfl
    | cons inputOld inputsOld => rw [copyFunding, List.map_cons, List.map_cons, ih, hf]

theorem copyFunding_funding {inputsNew inputsOld : List TransactionInput} (h : inputsNew.length = inputsOld.length) :
    (copyFunding inputsNew inputsOld).map (·.fundingOutput) = inputsOld.map (·.fundingOutput) := by
  induction inputsNew generalizing inputsOld with
  | nil => rw [List.length_eq_zero_iff.mp h.symm]; rfl
  | cons inputNew inputsNew ih =>
    cases inputsOld with
    | nil => cases h
    | cons inputOld inputsOld => rw [copyFunding, List.map_cons, List.map_cons, ih (Nat.succ.inj h)]

theorem transactionData_copyFunding (tx : Transaction) (inputsOld : List TransactionInput) :
    transactionData { tx with inputs := copyFunding tx.inputs inputsOld } = transactionData tx := by
  have hdata : (copyFunding tx.inputs inputsOld).flatMap transactionInputData = tx.inputs.flatMap transactionInputData := by
    rw [List.flatMap_def, List.flatMap_def, copyFunding_map _ fun _ _ => rfl]
  have hwitness : (copyFunding tx.inputs inputsOld).flatMap transactionInputWitnessData =
      tx.inputs.flatMap transactionInputWitnessData := by
    rw [List.flatMap_def, List.flatMap_def, copyFunding_map _ fun _ _ => rfl]
  have hhas : transactionHasWitnessData { tx with inputs := copyFunding tx.inputs inputsOld } = transactionHasWitnessData tx := by
    have hmap := copyFunding_map (fun input => decide (input.witnessStack.length ≠ 0)) (fun _ _ => rfl) tx.inputs inputsOld
    have hany : ∀ inputs : List TransactionInput, (inputs.any fun input => decide (input.witnessStack.length ≠ 0)) =
        (inputs.map fun input => decide (input.witnessStack.length ≠ 0)).any id := by
      intro inputs
      rw [List.any_map]
      rfl
    exact (hany _).trans ((congrArg (List.any · id) hmap).trans (hany _).symm)
  unfold transactionData
  rw [hhas]
  dsimp only
  rw [hdata, hwitness, copyFunding_length]

/-- The copy of a transaction that is read back with as many inputs. -/
theorem copies_of_strict {tx result : Transaction} (h : IsStrict result (transactionData tx))
    (hlen : result.inputs.length = tx.inputs.length) : CopiesFaithfully tx := by
  have hnew : transactionNew (some (transactionData tx)) = some result := transactionNew_of_isWhole h.isWhole
  refine ⟨{ result with inputs := copyFunding result.inputs tx.inputs }, ?_, ?_, copyFunding_funding hlen⟩
  · unfold transactionCopy
    rw [hnew]
    dsimp only
    rw [if_neg (by omega)]
  · rw [transactionData_copyFunding]
    exact tight_transaction.writes h

theorem parsedInputs_length (tx : Transaction) : (parsedTransaction tx).inputs.length = tx.inputs.length := by
  show (parsedInputs tx).length = _
  rw [parsedInputs, List.length_map]

/-- Two counts of 0 are no marker. -/
theorem isStrict_empty {tx : Transaction} (hin : tx.inputs = []) (hout : tx.outputs = []) (h : Serializable tx) :
    IsStrict (parsedTransaction tx) (transactionData tx) := by
  have hb := isBody_parsed h
  have hhas : transactionHasWitnessData tx = false := by rw [transactionHasWitnessData, hin]; rfl
  rw [hhas] at hb
  rw [transactionData_eq, hhas]
  refine ⟨_, .inr ⟨hb, ?_⟩, rfl⟩
  rw [bodyData, hin, hout]
  rfl

/-! ## Weight

What is read and written back weighs no more than the bytes that were there: numbers keep
their digits, and what was cut off becomes zeros or nothing. -/

def weight (b : Bytes) : Nat := (b.map UInt8.toNat).sum

@[simp] theorem weight_nil : weight [] = 0 := rfl

@[simp] theorem weight_cons (x : UInt8) (b : Bytes) : weight (x :: b) = x.toNat + weight b := by
  simp [weight]

@[simp] theorem weight_append (a b : Bytes) : weight (a ++ b) = weight a + weight b := by
  simp [weight]

def Light {α : Type} (r : Reader α) (enc : α → Bytes) : Prop := ∀ b, weight (enc (r b).1) + weight (r b).2 ≤ weight b

theorem weight_zeros (k : Nat) : weight (leBytes k 0) = 0 := by
  induction k with
  | zero => rfl
  | succ k ih =>
    rw [leBytes, weight_cons, Nat.zero_div, ih]
    rfl

theorem weight_leBytes_le {j k : Nat} (h : j ≤ k) (n : Nat) : weight (leBytes j n) ≤ weight (leBytes k n) := by
  induction j generalizing k n with
  | zero => exact Nat.zero_le _
  | succ j ih =>
    obtain ⟨k, rfl⟩ : ∃ k', k = k' + 1 := ⟨k - 1, by omega⟩
    rw [leBytes, leBytes, weight_cons, weight_cons]
    exact Nat.add_le_add_left (ih (by omega) _) _

theorem light_readLE (k : Nat) : Light (readLE k) (leBytes k) := by
  intro b
  unfold readLE
  by_cases h : k ≤ b.length
  · rw [if_pos h]
    have hback := leBytes_leNat (b.take k)
    rw [List.length_take_of_le h] at hback
    rw [hback, ← weight_append, List.take_append_drop]
  · rw [if_neg h, weight_zeros]
    exact Nat.zero_le _

/-- The number behind its mark weighs no less than in its shortest form. -/
theorem weight_varIntD_le {k n mark : Nat} (hn : n < 256 ^ k)
    (hk : k = 2 ∧ mark = 253 ∨ k = 4 ∧ mark = 254 ∨ k = 8 ∧ mark = 255) :
    weight (varIntD n) ≤ mark + weight (leBytes k n) := by
  have h64 : n < 2 ^ 64 := by
    refine Nat.lt_of_lt_of_le hn ?_
    rcases hk with ⟨rfl, _⟩ | ⟨rfl, _⟩ | ⟨rfl, _⟩ <;> decide
  -- a longer form is not used for a number of `k` bytes
  have hform : ∀ j (m : UInt8), j ≤ k → m.toNat ≤ mark → weight (m :: leBytes j n) ≤ mark + weight (leBytes k n) := by
    intro j m hj hm
    rw [weight_cons]
    exact Nat.add_le_add hm (weight_leBytes_le hj n)
  have hff : (0xff : UInt8).toNat = 255 := rfl
  have hfe : (0xfe : UInt8).toNat = 254 := rfl
  have hfd : (0xfd : UInt8).toNat = 253 := rfl
  have hpow : (256 : Nat) ^ 2 = 2 ^ 16 ∧ (256 : Nat) ^ 4 = 2 ^ 32 := by decide
  rw [varIntD_eq h64]
  split
  · refine hform 8 0xff ?_ ?_ <;> rcases hk with ⟨rfl, rfl⟩ | ⟨rfl, rfl⟩ | ⟨rfl, rfl⟩ <;> omega
  split
  · refine hform 4 0xfe ?_ ?_ <;> rcases hk with ⟨rfl, rfl⟩ | ⟨rfl, rfl⟩ | ⟨rfl, rfl⟩ <;> omega
  split
  · refine hform 2 0xfd ?_ ?_ <;> rcases hk with ⟨rfl, rfl⟩ | ⟨rfl, rfl⟩ | ⟨rfl, rfl⟩ <;> omega
  · exact Nat.le_add_left_of_le (weight_leBytes_le (by omega) n)

theorem readLE_lt (k : Nat) (b : Bytes) : (readLE k b).1 < 256 ^ k := by
  unfold readLE
  by_cases h : k ≤ b.length
  · rw [if_pos h]
    have hlt := leNat_lt (b.take k)
    rwa [List.length_take_of_le h] at hlt
  · rw [if_neg h]
    exact Nat.pow_pos (by decide)

/-- What is read behind a mark of a `varInt`. -/
theorem light_marked {k mark : Nat} (hk : k = 2 ∧ mark = 253 ∨ k = 4 ∧ mark = 254 ∨ k = 8 ∧ mark = 255) (b : Bytes) :
    weight (varIntD (readLE k b).1) + weight (readLE k b).2 ≤ mark + weight b := by
  have hread := light_readLE k b
  have hform := weight_varIntD_le (readLE_lt k b) hk
  omega

theorem light_readVarInt : Light readVarInt varIntD := by
  intro b
  cases b with
  | nil => decide
  | cons x b =>
    have hx := x.toNat_lt
    rw [readVarInt_cons, weight_cons]
    split
    · rename_i h
      rw [varIntD_eq (by omega), if_neg (by omega), if_neg (by omega), if_neg (by omega)]
      show weight [UInt8.ofNat x.toNat] + weight b ≤ _
      rw [UInt8.ofNat_toNat]
      simp
    split
    · have hmark : x.toNat = 253 := by omega
      rw [hmark]
      exact light_marked (by decide) b
    split
    · have hmark : x.toNat = 254 := by omega
      rw [hmark]
      exact light_marked (by decide) b
    · have hmark : x.toNat = 255 := by omega
      rw [hmark]
      exact light_marked (by decide) b

theorem light_readVarBytes : Light readVarBytes witnessItemData := by
  intro b
  have hcount := light_readVarInt b
  have hread : readVarBytes b = readRaw (readVarInt b).1 (readVarInt b).2 := rfl
  rw [hread]
  unfold readRaw
  by_cases h : (readVarInt b).1 ≤ (readVarInt b).2.length
  · rw [if_pos h]
    have hsplit := congrArg weight (List.take_append_drop (readVarInt b).1 (readVarInt b).2)
    rw [weight_append] at hsplit
    dsimp only
    rw [witnessItemData, weight_append, length_some, List.length_take_of_le h, toBytes_some]
    omega
  · rw [if_neg h]
    exact Nat.zero_le _

theorem light_many {α : Type} {r : Reader α} {enc : α → Bytes} (h : Light r enc) (n : Nat) :
    Light (many r n) fun as => as.flatMap enc := by
  induction n with
  | zero => exact fun b => Nat.le_of_eq (Nat.zero_add _)
  | succ n ih =>
    intro b
    have hone := h b
    have hrest := ih (r b).2
    show weight (((r b).1 :: (many r n (r b).2).1).flatMap enc) + weight (many r n (r b).2).2 ≤ weight b
    rw [List.flatMap_cons, weight_append]
    dsimp only at hrest
    omega

theorem light_readCounted {α : Type} {r : Reader α} {enc : α → Bytes} (h : Light r enc) :
    Light (readCounted r) (countedData enc) := by
  intro b
  have hcount := light_readVarInt b
  have hmany := light_many h (readVarInt b).1 (readVarInt b).2
  have hread : readCounted r b = many r (readVarInt b).1 (readVarInt b).2 := rfl
  rw [hread, countedData, many_length, weight_append]
  dsimp only at hmany
  omega

theorem light_readOutput : Light readOutput transactionOutputData := by
  intro b
  have hvalue := light_readLE 8 b
  have hscript := light_readVarBytes (readLE 8 b).2
  have hlt : (readLE 8 b).1 < 2 ^ 64 := readLE_lt 8 b
  have hread : readOutput b = (⟨(readVarBytes (readLE 8 b).2).1, UInt64.ofNat (readLE 8 b).1⟩, (readVarBytes (readLE 8 b).2).2) := by
    rw [readOutput, bind_run, bind_run, pure_run]
    rfl
  rw [hread, transactionOutputData_eq]
  dsimp only
  rw [UInt64.toNat_ofNat_of_lt' hlt, uint64D, weight_append]
  omega

/-! ## Outputs without inputs -/

theorem readWitnesses_length (inputs : List TransactionInput) (b : Bytes) : (readWitnesses inputs b).1.length = inputs.length := by
  induction inputs generalizing b with
  | nil => rfl
  | cons input inputs ih =>
    show ((readWitness input b).1 :: (readWitnesses inputs (readWitness input b).2).1).length = inputs.length + 1
    rw [List.length_cons, ih]

theorem readCounted_nil {α : Type} {r : Reader α} {b : Bytes} (h : (readCounted r b).1 = []) :
    readCounted r b = ([], (readVarInt b).2) := by
  have hread : readCounted r b = many r (readVarInt b).1 (readVarInt b).2 := rfl
  have hnone : (readVarInt b).1 = 0 := by
    rw [← many_length r (readVarInt b).1 (readVarInt b).2, ← hread, h]
    rfl
  rw [hread, hnone]
  rfl

theorem readBody_marked (version : UInt32) (b : Bytes) :
    (readBody version true b).1 =
      { version
        inputs := (readWitnesses (readCounted readInput b).1 (readCounted readOutput (readCounted readInput b).2).2).1
        outputs := (readCounted readOutput (readCounted readInput b).2).1
        locktime := UInt32.ofNat (readLE 4 (readWitnesses (readCounted readInput b).1
          (readCounted readOutput (readCounted readInput b).2).2).2).1 } := by
  rw [readBody, bind_run, bind_run, bind_run, bind_run, pure_run]
  rfl

/-- A body that was taken for a marked one and has no inputs. -/
theorem weight_body {version : UInt32} {b : Bytes} (h : (readBody version true b).1.inputs = []) :
    weight (bodyData false (readBody version true b).1) ≤ weight b := by
  rw [readBody_marked] at h ⊢
  dsimp only at h
  have hinputs : (readCounted readInput b).1 = [] := by
    have hlen := readWitnesses_length (readCounted readInput b).1 (readCounted readOutput (readCounted readInput b).2).2
    rw [h] at hlen
    exact List.eq_nil_of_length_eq_zero hlen.symm
  rw [readCounted_nil hinputs]
  dsimp only
  have hcount := light_readVarInt b
  have houtputs := light_readCounted light_readOutput (readVarInt b).2
  have hlock := light_readLE 4 (readCounted readOutput (readVarInt b).2).2
  have hlt := readLE_lt 4 (readCounted readOutput (readVarInt b).2).2
  have hnone : ∀ rest, readWitnesses [] rest = ([], rest) := fun _ => rfl
  have hzero : weight (countedData transactionInputData []) = 0 := rfl
  rw [hnone, bodyData, witnessSectionData, if_neg Bool.false_ne_true, List.nil_append, weight_append, weight_append, hzero,
    UInt32.toNat_ofNat_of_lt' hlt, uint32D]
  dsimp only
  omega

/-- The flag is lost. -/
theorem weight_marked_lt {version : UInt32} {flag : UInt8} {b : Bytes} (hflag : flag ≠ 0)
    (h : (readTransaction (uint32D version.toNat ++ 0x00 :: flag :: b)).1.inputs = []) :
    weight (transactionData (readTransaction (uint32D version.toNat ++ 0x00 :: flag :: b)).1) <
      weight (uint32D version.toNat ++ 0x00 :: flag :: b) := by
  have hread : readTransaction (uint32D version.toNat ++ 0x00 :: flag :: b) = readBody version true b := by
    have hversion : uint32readP (uint32D version.toNat ++ 0x00 :: flag :: b) = (version.toNat, 0x00 :: flag :: b) :=
      Reads.readLE version.toNat_lt _
    unfold readTransaction
    rw [bind_run, hversion]
    dsimp only
    rw [UInt32.ofNat_toNat, readMarkedBody_marked version hflag]
  rw [hread] at h ⊢
  have hbody := weight_body h
  have hhas : transactionHasWitnessData (readBody version true b).1 = false := by rw [transactionHasWitnessData, h]; rfl
  have hversion : (readBody version true b).1.version = version := by rw [readBody_marked]
  have hpos : flag.toNat ≠ 0 := fun hzero => hflag (UInt8.toNat_inj.mp hzero)
  rw [transactionData_eq, hhas, hversion, if_neg Bool.false_ne_true, List.nil_append, weight_append, weight_append,
    weight_cons, weight_cons]
  omega

theorem varIntD_flag {n : Nat} (hn : n < 2 ^ 64) (h0 : n ≠ 0) : ∃ flag rest, varIntD n = flag :: rest ∧ flag ≠ 0 := by
  rw [varIntD_eq hn]
  split
  · exact ⟨_, _, rfl, by decide⟩
  split
  · exact ⟨_, _, rfl, by decide⟩
  split
  · exact ⟨_, _, rfl, by decide⟩
  · refine ⟨UInt8.ofNat n, [], rfl, fun hzero => ?_⟩
    have hnat := congrArg UInt8.toNat hzero
    rw [UInt8.toNat_ofNat_of_lt' (show n < UInt8.size by have : UInt8.size = 256 := rfl; omega)] at hnat
    exact h0 hnat

theorem not_copies_without_inputs {tx : Transaction} (hin : tx.inputs = []) (hout : tx.outputs ≠ [])
    (hcount : tx.outputs.length < 2 ^ 32) : ¬ CopiesFaithfully tx := by
  intro ⟨copy, hcopy, hdata, hfunding⟩
  obtain ⟨flag, rest, hvar, hflag⟩ := varIntD_flag (show tx.outputs.length < 2 ^ 64 by omega)
    fun h => hout (List.eq_nil_of_length_eq_zero h)
  have hhas : transactionHasWitnessData tx = false := by rw [transactionHasWitnessData, hin]; rfl
  have hwritten : transactionData tx = uint32D tx.version.toNat ++ 0x00 :: flag ::
      (rest ++ (tx.outputs.flatMap transactionOutputData ++ ([] ++ uint32D tx.locktime.toNat))) := by
    rw [transactionData_eq, hhas, if_neg Bool.false_ne_true, List.nil_append, bodyData, hin, countedData, countedData, hvar]
    simp [witnessSectionData]
    rfl
  unfold transactionCopy at hcopy
  rw [transactionNew_eq] at hcopy
  by_cases hleft : (readTransaction (transactionData tx)).2 = []
  · rw [show Data.toBytes (some (transactionData tx)) = transactionData tx from rfl, if_neg (not_not.mpr hleft)] at hcopy
    dsimp only at hcopy
    rw [if_neg (by rw [hin]; exact Nat.not_lt_zero _)] at hcopy
    rw [← Option.some.inj hcopy] at hdata hfunding
    have hnone : (readTransaction (transactionData tx)).1.inputs = [] := by
      have hlen := congrArg List.length hfunding
      rw [List.length_map, List.length_map, copyFunding_length, hin] at hlen
      exact List.eq_nil_of_length_eq_zero hlen
    rw [transactionData_copyFunding] at hdata
    rw [hwritten] at hnone hdata
    have hlt := weight_marked_lt hflag hnone
    rw [hdata] at hlt
    exact Nat.lt_irrefl _ hlt
  · rw [show Data.toBytes (some (transactionData tx)) = transactionData tx from rfl, if_pos hleft] at hcopy
    cases hcopy

/-- Outputs alone are never copied; otherwise it is enough that every count and length and
    every previous hash reads back. -/
theorem transactionCopy_faithful (tx : Transaction) (hcount : tx.outputs.length < 2 ^ 32) :
    (CopiesFaithfully tx → tx.inputs ≠ [] ∨ tx.outputs = []) ∧
      (Serializable tx → (CopiesFaithfully tx ↔ tx.inputs ≠ [] ∨ tx.outputs = [])) := by
  have hneeds : CopiesFaithfully tx → tx.inputs ≠ [] ∨ tx.outputs = [] := by
    intro h
    by_contra hnot
    rw [not_or, not_not] at hnot
    exact not_copies_without_inputs hnot.1 hnot.2 hcount h
  refine ⟨hneeds, fun hser => ⟨hneeds, fun hsome => ?_⟩⟩
  by_cases hin : tx.inputs = []
  · have hout : tx.outputs = [] := hsome.resolve_left fun hne => hne hin
    exact copies_of_strict (isStrict_empty hin hout hser) (parsedInputs_length tx)
  · exact copies_of_strict (isStrict_parsed hin hser) (parsedInputs_length tx)

/-- One output and no input yet. -/
def oneOutput : Transaction := transactionAddOutput transactionEmpty (some [0x51]) 5000

/-- That one is not copied, and one with inputs and a witness is. -/
theorem transactionCopy_oneOutput : ¬ CopiesFaithfully oneOutput ∧ CopiesFaithfully mixedTransaction := by
  refine ⟨fun h => ?_, ((transactionCopy_faithful mixedTransaction (by decide)).2 serializable_mixedTransaction).2 (Or.inl (by decide))⟩
  exact absurd ((transactionCopy_faithful oneOutput (by decide)).1 h) (by decide)

theorem not_transactionCopy : ¬ ∀ tx, Built tx → CopiesFaithfully tx := by
  intro h
  exact not_copies_without_inputs rfl (by decide) (by decide) (h oneOutput (Built.empty.addOutput _ _))

end BitcoinSpoon
