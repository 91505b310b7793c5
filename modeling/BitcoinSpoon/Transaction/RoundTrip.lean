/-
  BitcoinSpoon.Transaction.RoundTrip — `TransactionNew` against `TransactionData`.

  `TransactionData` writes the shortest form of every field it has, so on a whole
  transaction it writes no more than was read, and writes the same exactly when the bytes
  were in the strict format (`tight_transaction`). From this both directions follow:

  - what `TransactionNew` accepts is whole and written as `TransactionData` writes it
    exactly when the bytes are in the strict format (`accepts_only_complete_iff`);
  - a `Serializable` transaction with an input is written in the strict format, and so
    comes back with the same contents (`transactionNew_transactionData`). The one decision
    the parser takes from the data, whether there is a witness section, agrees with the
    serializer's as soon as there is an input: a count of 1 or more does not start with a
    zero byte.
-/

import BitcoinSpoon.Transaction.Format

namespace BitcoinSpoon

open Wire

/-! ## The serializer writes the strict format -/

theorem tight_varBytes : Tight witnessItemData (IsVarBytes IsVarInt) (IsVarBytes Shortest) where
  length_le := by
    rintro _ _ ⟨q, b, hq, rfl, rfl⟩
    simp only [witnessItemData, length_some, toBytes_some, List.length_append]
    exact Nat.add_le_add_right (varIntD_length_le hq) _
  canonical := by
    rintro _ _ ⟨q, b, hq, rfl, rfl⟩ h
    have heq : varIntD b.length = q := List.append_cancel_right h
    exact ⟨q, b, ⟨hq, heq.symm⟩, rfl, rfl⟩
  writes := by
    rintro _ _ ⟨q, b, ⟨_, rfl⟩, rfl, rfl⟩
    rfl

def countedData {α : Type} (enc : α → Bytes) (as : List α) : Bytes := varIntD as.length ++ as.flatMap enc

theorem tight_counted {α : Type} {enc : α → Bytes} {P Q : α → Bytes → Prop} (h : Tight enc P Q) :
    Tight (countedData enc) (IsCounted IsVarInt P) (IsCounted Shortest Q) where
  length_le := by
    rintro as _ ⟨q, ps, hq, hps, rfl⟩
    rw [countedData, List.length_append, List.length_append]
    exact Nat.add_le_add (varIntD_length_le hq) (h.flatMap_length_le hps)
  canonical := by
    rintro as _ ⟨q, ps, hq, hps, rfl⟩ heq
    obtain ⟨h1, h2⟩ := append_eq_of_length_le (varIntD_length_le hq) (h.flatMap_length_le hps) heq
    exact ⟨q, ps, ⟨hq, h1.symm⟩, h.flatMap_canonical hps h2, rfl⟩
  writes := by
    rintro as _ ⟨q, ps, ⟨_, rfl⟩, hps, rfl⟩
    rw [countedData, h.flatMap_writes hps]

theorem transactionInputData_eq (input : TransactionInput) :
    transactionInputData input =
      input.previousTransactionHash.toBytes ++ (uint32D input.outputIndex.toNat ++
        (witnessItemData input.scriptData ++ uint32D input.sequence.toNat)) := by
  simp only [transactionInputData, witnessItemData, List.append_assoc]

theorem transactionOutputData_eq (output : TransactionOutput) :
    transactionOutputData output = uint64D output.value.toNat ++ witnessItemData output.script := by
  simp only [transactionOutputData, witnessItemData, List.append_assoc]

theorem tight_input : Tight transactionInputData (IsInput IsVarInt) (IsInput Shortest) where
  length_le := by
    rintro input _ ⟨hash, script, hl, hs, rfl, hh, -⟩
    have := tight_varBytes.length_le hs
    rw [transactionInputData_eq, hh]
    simp only [toBytes_some, List.length_append]
    omega
  canonical := by
    rintro input _ ⟨hash, script, hl, hs, rfl, hh, hrest⟩ heq
    rw [transactionInputData_eq, hh] at heq
    have h1 := List.append_cancel_left (List.append_cancel_left heq)
    exact ⟨hash, script, hl, tight_varBytes.canonical hs (List.append_cancel_right h1), rfl, hh, hrest⟩
  writes := by
    rintro input _ ⟨hash, script, hl, hs, rfl, hh, -⟩
    rw [transactionInputData_eq, hh, tight_varBytes.writes hs, toBytes_some]

theorem tight_output : Tight transactionOutputData (IsOutput IsVarInt) (IsOutput Shortest) where
  length_le := by
    rintro output _ ⟨script, hs, rfl⟩
    rw [transactionOutputData_eq, List.length_append, List.length_append]
    exact Nat.add_le_add_left (tight_varBytes.length_le hs) _
  canonical := by
    rintro output _ ⟨script, hs, rfl⟩ heq
    rw [transactionOutputData_eq] at heq
    exact ⟨script, tight_varBytes.canonical hs (List.append_cancel_left heq), rfl⟩
  writes := by
    rintro output _ ⟨script, hs, rfl⟩
    rw [transactionOutputData_eq, tight_varBytes.writes hs]

theorem tight_witness (base : TransactionInput) :
    Tight transactionInputWitnessData (IsWitness IsVarInt base) (IsWitness Shortest base) where
  length_le h := (tight_counted tight_varBytes).length_le h.1
  canonical h heq := ⟨(tight_counted tight_varBytes).canonical h.1 heq, h.2⟩
  writes h := (tight_counted tight_varBytes).writes h.1

theorem tight_witnesses (bases : List TransactionInput) :
    Tight (List.flatMap transactionInputWitnessData) (IsWitnesses IsVarInt bases) (IsWitnesses Shortest bases) := by
  induction bases with
  | nil =>
    constructor
    · rintro _ _ ⟨rfl, rfl⟩; exact Nat.le_refl _
    · rintro _ _ ⟨rfl, rfl⟩ _; exact ⟨rfl, rfl⟩
    · rintro _ _ ⟨rfl, rfl⟩; rfl
  | cons base bases ih =>
    constructor
    · rintro _ _ ⟨input, rest, q, s, hq, hs, rfl, rfl⟩
      rw [List.flatMap_cons, List.length_append, List.length_append]
      exact Nat.add_le_add ((tight_witness base).length_le hq) (ih.length_le hs)
    · rintro _ _ ⟨input, rest, q, s, hq, hs, rfl, rfl⟩ heq
      rw [List.flatMap_cons] at heq
      obtain ⟨h1, h2⟩ := append_eq_of_length_le ((tight_witness base).length_le hq) (ih.length_le hs) heq
      exact ⟨input, rest, q, s, (tight_witness base).canonical hq h1, ih.canonical hs h2, rfl, rfl⟩
    · rintro _ _ ⟨input, rest, q, s, hq, hs, rfl, rfl⟩
      rw [List.flatMap_cons, (tight_witness base).writes hq, ih.writes hs]

def witnessSectionData (hasWitness : Bool) (inputs : List TransactionInput) : Bytes :=
  if hasWitness then inputs.flatMap transactionInputWitnessData else []

theorem tight_witnessSection (hasWitness : Bool) (bases : List TransactionInput) :
    Tight (witnessSectionData hasWitness) (IsWitnessSection IsVarInt hasWitness bases)
      (IsWitnessSection Shortest hasWitness bases) := by
  cases hasWitness with
  | true => exact tight_witnesses bases
  | false =>
    constructor
    · rintro _ _ ⟨_, rfl⟩; exact Nat.le_refl _
    · rintro _ _ h _; exact h
    · rintro _ _ ⟨_, rfl⟩; rfl

/-- A witness does not change how the rest of the input is written. -/
theorem countedData_of_isWitnessSection {V : Nat → Bytes → Prop} {hasWitness : Bool} {bases inputs : List TransactionInput}
    {p : Bytes} (h : IsWitnessSection V hasWitness bases inputs p) :
    countedData transactionInputData inputs = countedData transactionInputData bases := by
  cases hasWitness with
  | false => rw [h.1]
  | true =>
    have hm : inputs.map transactionInputData = bases.map transactionInputData := by
      change IsWitnesses V bases inputs p at h
      induction bases generalizing inputs p with
      | nil => rw [h.1]
      | cons base bases ih =>
        obtain ⟨input, rest, q, s, hq, hs, rfl, rfl⟩ := h
        rw [List.map_cons, List.map_cons, ih hs, hq.2]
        rfl
    have hl := congrArg List.length hm
    rw [List.length_map, List.length_map] at hl
    rw [countedData, countedData, List.flatMap, List.flatMap, hm, hl]

/-- The serialization after the version and the marker. -/
def bodyData (hasWitness : Bool) (tx : Transaction) : Bytes :=
  countedData transactionInputData tx.inputs ++ (countedData transactionOutputData tx.outputs ++
    (witnessSectionData hasWitness tx.inputs ++ uint32D tx.locktime.toNat))

theorem tight_body (hasWitness : Bool) :
    Tight (bodyData hasWitness) (IsBody IsVarInt hasWitness) (IsBody Shortest hasWitness) where
  length_le := by
    rintro tx _ ⟨bases, i, o, w, hi, ho, hw, rfl⟩
    have h1 := (tight_counted tight_input).length_le hi
    have h2 := (tight_counted tight_output).length_le ho
    have h3 := (tight_witnessSection _ _).length_le hw
    rw [bodyData, countedData_of_isWitnessSection hw]
    simp only [List.length_append]
    omega
  canonical := by
    rintro tx _ ⟨bases, i, o, w, hi, ho, hw, rfl⟩ heq
    have h1 := (tight_counted tight_input).length_le hi
    have h2 := (tight_counted tight_output).length_le ho
    have h3 := (tight_witnessSection _ _).length_le hw
    rw [bodyData, countedData_of_isWitnessSection hw] at heq
    obtain ⟨e1, heq⟩ := append_eq_of_length_le h1 (by simp only [List.length_append]; omega) heq
    obtain ⟨e2, heq⟩ := append_eq_of_length_le h2 (by simp only [List.length_append]; omega) heq
    exact ⟨bases, i, o, w, (tight_counted tight_input).canonical hi e1, (tight_counted tight_output).canonical ho e2,
      (tight_witnessSection _ _).canonical hw (List.append_cancel_right heq), rfl⟩
  writes := by
    rintro tx _ ⟨bases, i, o, w, hi, ho, hw, rfl⟩
    rw [bodyData, countedData_of_isWitnessSection hw, (tight_counted tight_input).writes hi,
      (tight_counted tight_output).writes ho, (tight_witnessSection _ _).writes hw]

theorem transactionData_eq (tx : Transaction) :
    transactionData tx =
      uint32D tx.version.toNat ++ ((if transactionHasWitnessData tx then [0x00, 0x01] else []) ++
        bodyData (transactionHasWitnessData tx) tx) := by
  have hm : uint16D 0x0100 = [0x00, 0x01] := rfl
  simp only [transactionData, bodyData, countedData, witnessSectionData, hm, List.append_assoc]

theorem isInput_witnessStack {V : Nat → Bytes → Prop} {inputs : List TransactionInput} {ps : List Bytes}
    (h : List.Forall₂ (IsInput V) inputs ps) : ∀ input ∈ inputs, input.witnessStack = [] := by
  intro input hi
  induction h with
  | nil => cases hi
  | cons ha _ ih =>
    rcases List.mem_cons.mp hi with rfl | hi
    · obtain ⟨_, _, _, _, _, _, _, hw, _⟩ := ha
      exact hw
    · exact ih hi

/-- Without a witness section there is no witness. -/
theorem transactionHasWitnessData_of_isBody {V : Nat → Bytes → Prop} {tx : Transaction} {p : Bytes}
    (h : IsBody V false tx p) : transactionHasWitnessData tx = false := by
  obtain ⟨bases, i, o, w, ⟨_, _, _, hi, _⟩, _, ⟨hb, _⟩, _⟩ := h
  rw [transactionHasWitnessData, List.any_eq_false]
  intro input hm
  rw [isInput_witnessStack hi input (hb ▸ hm)]
  decide

theorem bodyData_length_le (tx : Transaction) : (bodyData false tx).length ≤ (bodyData true tx).length := by
  simp only [bodyData, witnessSectionData, Bool.false_eq_true, if_false, if_true, List.length_append, List.length_nil]
  omega

theorem tight_transaction : Tight transactionData IsWhole IsStrict where
  length_le := by
    rintro tx _ ⟨_, ⟨flag, body, hf, hb, rfl⟩ | ⟨hb, hm⟩, rfl⟩
    · have hl := (tight_body true).length_le hb
      have hle := bodyData_length_le tx
      rw [transactionData_eq]
      cases transactionHasWitnessData tx <;> simp only [Bool.false_eq_true, if_true, if_false, List.length_append,
        List.length_cons, List.length_nil] <;> omega
    · have hl := (tight_body false).length_le hb
      rw [transactionData_eq, transactionHasWitnessData_of_isBody hb]
      simp only [Bool.false_eq_true, if_false, List.nil_append, List.length_append]
      omega
  canonical := by
    rintro tx _ ⟨_, ⟨flag, body, hf, hb, rfl⟩ | ⟨hb, hm⟩, rfl⟩ heq
    · rw [transactionData_eq] at heq
      replace heq := List.append_cancel_left heq
      cases hw : transactionHasWitnessData tx with
      | true =>
        rw [hw, if_pos rfl] at heq
        simp only [List.cons_append, List.nil_append, List.cons.injEq, true_and] at heq
        obtain ⟨rfl, hbody⟩ := heq
        exact ⟨_, Or.inl ⟨_, body, ⟨rfl, hw⟩, (tight_body true).canonical hb hbody, rfl⟩, rfl⟩
      | false =>
        -- the marker and the empty witness section are not written back
        exfalso
        have hl := (tight_body true).length_le hb
        have hle := bodyData_length_le tx
        have hlen := congrArg List.length heq
        simp only [hw, Bool.false_eq_true, if_false, List.nil_append, List.length_cons] at hlen
        omega
    · rw [transactionData_eq, transactionHasWitnessData_of_isBody hb] at heq
      exact ⟨_, Or.inr ⟨(tight_body false).canonical hb (List.append_cancel_left heq), hm⟩, rfl⟩
  writes := by
    rintro tx _ ⟨_, ⟨flag, body, ⟨rfl, hw⟩, hb, rfl⟩ | ⟨hb, hm⟩, rfl⟩
    · rw [transactionData_eq, hw, if_pos rfl, (tight_body true).writes hb]
      rfl
    · rw [transactionData_eq, transactionHasWitnessData_of_isBody hb, (tight_body false).writes hb]
      rfl

/-- What `TransactionNew` accepts is whole and is what `TransactionData` writes, exactly
    when bytes are left over, which it refuses, or the bytes are in the strict format. -/
theorem accepts_only_complete_iff (d : Data) :
    (∀ tx, transactionNew d = some tx → IsWhole tx d.toBytes ∧ transactionData tx = d.toBytes) ↔
      (∃ tx p rest, IsWhole tx p ∧ rest ≠ [] ∧ d.toBytes = p ++ rest) ∨ ∃ tx, IsStrict tx d.toBytes := by
  constructor
  · intro h
    cases hnew : transactionNew d with
    | none => exact Or.inl ((transactionNew_eq_none_iff d).mp hnew)
    | some tx =>
      obtain ⟨hw, hd⟩ := h tx hnew
      exact Or.inr ⟨tx, tight_transaction.canonical hw hd⟩
  · rintro (h | ⟨tx, hs⟩) tx' hnew
    · rw [(transactionNew_eq_none_iff d).mpr h] at hnew
      cases hnew
    · have hw := hs.isWhole
      rw [transactionNew_of_isWhole hw] at hnew
      obtain rfl := Option.some.inj hnew
      exact ⟨hw, tight_transaction.writes hs⟩

/-- Nothing at all is accepted, as the empty transaction. -/
theorem not_accepts_only_complete_nil :
    ¬ ∀ tx, transactionNew (some []) = some tx → transactionData tx = Data.toBytes (some []) := by
  intro h
  have := congrArg List.length (h ⟨0, [], [], 0⟩ rfl)
  exact absurd this (by decide)

/-! ## Decoding undoes encoding

What comes back is the transaction up to what is not serialized: NULL script data comes
back as an empty string, and the funding outputs and the display flags are not carried. -/

structure InputContents where
  previousTransactionHash : Bytes
  outputIndex : UInt32
  scriptData : Bytes
  sequence : UInt32
  witnessStack : List Bytes
  deriving DecidableEq

def TransactionInput.contents (input : TransactionInput) : InputContents where
  previousTransactionHash := input.previousTransactionHash.toBytes
  outputIndex := input.outputIndex
  scriptData := input.scriptData.toBytes
  sequence := input.sequence
  witnessStack := input.witnessStack.map Data.toBytes

structure OutputContents where
  value : UInt64
  script : Bytes
  deriving DecidableEq

def TransactionOutput.contents (output : TransactionOutput) : OutputContents where
  value := output.value
  script := output.script.toBytes

/-- The same version, locktime, inputs and outputs on the wire. -/
structure SameContents (a b : Transaction) : Prop where
  version : a.version = b.version
  locktime : a.locktime = b.locktime
  inputs : a.inputs.map TransactionInput.contents = b.inputs.map TransactionInput.contents
  outputs : a.outputs.map TransactionOutput.contents = b.outputs.map TransactionOutput.contents

structure TransactionInput.Serializable (input : TransactionInput) : Prop where
  hash : input.previousTransactionHash.length = 32
  script : VarIntOk input.scriptData.length
  stack : VarIntOk input.witnessStack.length
  items : ∀ item ∈ input.witnessStack, VarIntOk item.length

/-- Every count and length is one that reads back. -/
structure Serializable (tx : Transaction) : Prop where
  inputCount : VarIntOk tx.inputs.length
  inputs : ∀ input ∈ tx.inputs, input.Serializable
  outputCount : VarIntOk tx.outputs.length
  outputs : ∀ output ∈ tx.outputs, VarIntOk output.script.length

def parsedItem (item : Data) : Data := some item.toBytes

/-- The input as it is read back, before the witness section. -/
def TransactionInput.parsed (input : TransactionInput) : TransactionInput where
  fundingOutput := ⟨none, 0⟩
  previousTransactionHash := parsedItem input.previousTransactionHash
  outputIndex := input.outputIndex
  scriptData := parsedItem input.scriptData
  sequence := input.sequence
  witnessStack := []
  witnessFlag := 0

def TransactionInput.parsedWitness (input : TransactionInput) : TransactionInput :=
  { input.parsed with
    witnessStack := input.witnessStack.map parsedItem
    witnessFlag := guessWitnessFlag input.parsed.scriptData (input.witnessStack.map parsedItem) }

def TransactionOutput.parsed (output : TransactionOutput) : TransactionOutput where
  script := parsedItem output.script
  value := output.value

/-- What comes back of the inputs: without a witness section, no stacks. -/
def parsedInputs (tx : Transaction) : List TransactionInput :=
  tx.inputs.map (if transactionHasWitnessData tx then TransactionInput.parsedWitness else TransactionInput.parsed)

/-- What `TransactionNew` makes of the serialization of `tx`. -/
def parsedTransaction (tx : Transaction) : Transaction where
  version := tx.version
  inputs := parsedInputs tx
  outputs := tx.outputs.map TransactionOutput.parsed
  locktime := tx.locktime

theorem isVarBytes_parsedItem {d : Data} (h : VarIntOk d.length) :
    IsVarBytes Shortest (parsedItem d) (witnessItemData d) :=
  ⟨_, _, ⟨h.isVarInt, rfl⟩, rfl, rfl⟩

/-- A list whose elements come back as `f` makes them. -/
theorem isCounted_map {α β : Type} {enc : α → Bytes} {f : α → β} {P : β → Bytes → Prop} {as : List α}
    (hl : VarIntOk as.length) (h : ∀ a ∈ as, P (f a) (enc a)) : IsCounted Shortest P (as.map f) (countedData enc as) := by
  refine ⟨varIntD as.length, as.map enc, ?_, ?_, rfl⟩
  · rw [List.length_map]
    exact ⟨hl.isVarInt, rfl⟩
  · rw [List.forall₂_map_left_iff, List.forall₂_map_right_iff, List.forall₂_same]
    exact h

theorem isInput_parsed {input : TransactionInput} (h : input.Serializable) :
    IsInput Shortest input.parsed (transactionInputData input) :=
  ⟨_, _, h.hash, isVarBytes_parsedItem h.script, transactionInputData_eq input, rfl, rfl, rfl, rfl⟩

theorem isOutput_parsed {output : TransactionOutput} (h : VarIntOk output.script.length) :
    IsOutput Shortest output.parsed (transactionOutputData output) :=
  ⟨_, isVarBytes_parsedItem h, transactionOutputData_eq output⟩

theorem isWitnesses_parsed {inputs : List TransactionInput} (h : ∀ input ∈ inputs, input.Serializable) :
    IsWitnesses Shortest (inputs.map TransactionInput.parsed) (inputs.map TransactionInput.parsedWitness)
      (inputs.flatMap transactionInputWitnessData) := by
  induction inputs with
  | nil => exact ⟨rfl, rfl⟩
  | cons input inputs ih =>
    have hi := h input List.mem_cons_self
    have hw : IsWitness Shortest input.parsed input.parsedWitness (transactionInputWitnessData input) :=
      ⟨isCounted_map hi.stack fun item hm => isVarBytes_parsedItem (hi.items item hm), rfl⟩
    exact ⟨_, _, _, _, hw, ih fun x hx => h x (List.mem_cons_of_mem _ hx), rfl, rfl⟩

theorem isBody_parsed {tx : Transaction} (h : Serializable tx) :
    IsBody Shortest (transactionHasWitnessData tx) (parsedTransaction tx)
      (bodyData (transactionHasWitnessData tx) tx) := by
  refine ⟨tx.inputs.map TransactionInput.parsed, _, _, _, isCounted_map h.inputCount fun input hi =>
    isInput_parsed (h.inputs input hi), isCounted_map h.outputCount fun output ho => isOutput_parsed (h.outputs output ho),
    ?_, rfl⟩
  unfold parsedTransaction parsedInputs witnessSectionData
  cases transactionHasWitnessData tx with
  | true => exact isWitnesses_parsed h.inputs
  | false => exact ⟨rfl, rfl⟩

/-- A number that reads back starts with a zero byte only if it is 0. -/
theorem not_hasWitnessMarker_varIntD {n : Nat} (h : VarIntOk n) (hn : n ≠ 0) (rest : Bytes) :
    hasWitnessMarker (varIntD n ++ rest) = false := by
  rw [Bool.eq_false_iff]
  intro hm
  obtain ⟨x, xs, hx⟩ := List.exists_cons_of_ne_nil (varIntD_ne_nil n)
  obtain ⟨flag, body, -, hb⟩ := hasWitnessMarker_eq_true hm
  have hx0 : x = 0x00 := by
    rw [hx] at hb
    exact (List.cons.inj hb).1
  have hr : (readVarInt (varIntD n ++ rest)).1 = n := congrArg Prod.fst (h rest)
  rw [hx, hx0, List.cons_append, readVarInt_cons] at hr
  exact hn hr.symm

theorem hasWitnessData_parsed {tx : Transaction} (h : transactionHasWitnessData tx = true) :
    transactionHasWitnessData (parsedTransaction tx) = true := by
  obtain ⟨input, hi, hs⟩ := List.any_eq_true.mp h
  refine List.any_eq_true.mpr ⟨input.parsedWitness, ?_, ?_⟩
  · simp only [parsedTransaction, parsedInputs, h, if_true]
    exact List.mem_map_of_mem hi
  · simpa [TransactionInput.parsedWitness] using hs

theorem isStrict_parsed {tx : Transaction} (hne : tx.inputs ≠ []) (h : Serializable tx) :
    IsStrict (parsedTransaction tx) (transactionData tx) := by
  have hb := isBody_parsed h
  rw [transactionData_eq]
  refine ⟨_, ?_, rfl⟩
  cases hw : transactionHasWitnessData tx with
  | true =>
    rw [hw] at hb
    exact Or.inl ⟨0x01, _, ⟨rfl, hasWitnessData_parsed hw⟩, hb, rfl⟩
  | false =>
    rw [hw] at hb
    refine Or.inr ⟨hb, ?_⟩
    rw [if_neg Bool.false_ne_true, List.nil_append, bodyData, countedData, List.append_assoc]
    exact not_hasWitnessMarker_varIntD h.inputCount (fun h0 => hne (List.eq_nil_of_length_eq_zero h0)) _

theorem contents_parsedWitness (input : TransactionInput) : input.parsedWitness.contents = input.contents := by
  simp [TransactionInput.contents, TransactionInput.parsedWitness, TransactionInput.parsed, parsedItem, Function.comp_def]

theorem contents_parsed {input : TransactionInput} (h : input.witnessStack = []) :
    input.parsed.contents = input.contents := by
  simp [TransactionInput.contents, TransactionInput.parsed, parsedItem, h]

theorem sameContents_parsed (tx : Transaction) : SameContents (parsedTransaction tx) tx where
  version := rfl
  locktime := rfl
  outputs := by
    rw [parsedTransaction, List.map_map]
    rfl
  inputs := by
    rw [parsedTransaction, parsedInputs, List.map_map]
    apply List.map_congr_left
    intro input hi
    cases hw : transactionHasWitnessData tx with
    | true => exact contents_parsedWitness input
    | false =>
      apply contents_parsed
      have := List.any_eq_false.mp hw input hi
      simpa using this

/-- `TransactionNew` undoes `TransactionData`. -/
theorem transactionNew_transactionData (tx : Transaction) (hne : tx.inputs ≠ []) (h : Serializable tx) :
    ∃ tx', transactionNew (some (transactionData tx)) = some tx' ∧ SameContents tx' tx :=
  ⟨parsedTransaction tx, transactionNew_of_isWhole (isStrict_parsed hne h).isWhole, sameContents_parsed tx⟩

/-- One input with a witness and one without. -/
def mixedTransaction : Transaction where
  version := 2
  inputs :=
    [⟨⟨none, 0⟩, some (List.replicate 32 0xaa), 1, none, 0xffffffff, [some [0x30, 0x01], some []], 0⟩,
      ⟨⟨none, 0⟩, some (List.replicate 32 0xbb), 0, some [0x51], 0xfffffffe, [], 0⟩]
  outputs := [⟨some [0x00, 0x14], 5000⟩]
  locktime := 500000

theorem serializable_mixedTransaction : Serializable mixedTransaction := by
  have small : ∀ n < 253, VarIntOk n := fun n h => varIntOk (by omega) (Or.inl h)
  have inputs : ∀ input ∈ mixedTransaction.inputs, input.previousTransactionHash.length = 32 ∧
      input.scriptData.length < 253 ∧ input.witnessStack.length < 253 ∧
        ∀ item ∈ input.witnessStack, item.length < 253 := by decide
  have outputs : ∀ output ∈ mixedTransaction.outputs, output.script.length < 253 := by decide
  refine ⟨small _ (by decide), ?_, small _ (by decide), ?_⟩
  · intro input hi
    obtain ⟨hash, script, stack, items⟩ := inputs input hi
    exact ⟨hash, small _ script, small _ stack, fun item hm => small _ (items item hm)⟩
  · intro output ho
    exact small _ (outputs output ho)

theorem transactionNew_mixedTransaction :
    ∃ tx', transactionNew (some (transactionData mixedTransaction)) = some tx' ∧ SameContents tx' mixedTransaction :=
  transactionNew_transactionData mixedTransaction (by decide) serializable_mixedTransaction

end BitcoinSpoon
