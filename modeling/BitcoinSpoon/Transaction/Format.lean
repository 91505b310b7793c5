/-
  BitcoinSpoon.Transaction.Format — the wire format `TransactionNew` accepts.

  `IsTransaction V F tx p`: `p` is a whole serialization of `tx` in which every count and
  length is written in a form `V` and the flag after a zero marker satisfies `F`. With
  `IsVarInt` and `AnyFlag` this is what the parser takes (`grammar_readTransaction`):
  counts need not be in their shortest form, the flag is any byte but zero and the witness
  section may be empty throughout. With `Shortest` and `WitnessFlag` it is what
  `TransactionData` writes.

  The parser's only check is that it ends at the end, and a read past the end yields zeros
  and stays there. So it aborts exactly when a proper prefix is whole
  (`transactionNew_eq_none_iff`).
-/

import BitcoinSpoon.Transaction.Basic
import BitcoinSpoon.Util.VarInt

namespace BitcoinSpoon

open Wire

/-! ## The format -/

section

variable (V : Nat → Bytes → Prop) (F : UInt8 → Transaction → Prop)

def IsVarBytes (d : Data) (p : Bytes) : Prop := ∃ q b, V b.length q ∧ d = some b ∧ p = q ++ b

def IsCounted {α : Type} (P : α → Bytes → Prop) (as : List α) (p : Bytes) : Prop :=
  ∃ q ps, V as.length q ∧ List.Forall₂ P as ps ∧ p = q ++ ps.flatten

/-- An input before its witness. -/
def IsInput (input : TransactionInput) (p : Bytes) : Prop :=
  ∃ hash script, hash.length = 32 ∧ IsVarBytes V input.scriptData script ∧
    p = hash ++ (uint32D input.outputIndex.toNat ++ (script ++ uint32D input.sequence.toNat)) ∧
    input.previousTransactionHash = some hash ∧ input.fundingOutput = ⟨none, 0⟩ ∧ input.witnessStack = [] ∧
    input.witnessFlag = 0

def IsOutput (output : TransactionOutput) (p : Bytes) : Prop :=
  ∃ script, IsVarBytes V output.script script ∧ p = uint64D output.value.toNat ++ script

/-- The witness that makes `input` of `base`. -/
def IsWitness (base input : TransactionInput) (p : Bytes) : Prop :=
  IsCounted V (IsVarBytes V) input.witnessStack p ∧
    input =
      { base with
        witnessStack := input.witnessStack
        witnessFlag := guessWitnessFlag base.scriptData input.witnessStack }

def IsWitnesses : List TransactionInput → List TransactionInput → Bytes → Prop
  | [], inputs, p => inputs = [] ∧ p = []
  | base :: bases, inputs, p =>
    ∃ input rest q s, IsWitness V base input q ∧ IsWitnesses bases rest s ∧ inputs = input :: rest ∧ p = q ++ s

def IsWitnessSection (hasWitness : Bool) (bases inputs : List TransactionInput) (p : Bytes) : Prop :=
  if hasWitness then IsWitnesses V bases inputs p else inputs = bases ∧ p = []

def IsBody (hasWitness : Bool) (tx : Transaction) (p : Bytes) : Prop :=
  ∃ bases ins outs wit, IsCounted V (IsInput V) bases ins ∧ IsCounted V (IsOutput V) tx.outputs outs ∧
    IsWitnessSection V hasWitness bases tx.inputs wit ∧ p = ins ++ (outs ++ (wit ++ uint32D tx.locktime.toNat))

/-- The body with its marker, if it has one; without one it does not look marked. -/
def IsMarkedBody (tx : Transaction) (p : Bytes) : Prop :=
  (∃ flag rest, F flag tx ∧ IsBody V true tx rest ∧ p = 0x00 :: flag :: rest) ∨
    (IsBody V false tx p ∧ hasWitnessMarker p = false)

def IsTransaction (tx : Transaction) (p : Bytes) : Prop :=
  ∃ body, IsMarkedBody V F tx body ∧ p = uint32D tx.version.toNat ++ body

end

/-! A stricter format is part of a laxer one. -/

section

variable {V W : Nat → Bytes → Prop} (hVW : ∀ {n p}, V n p → W n p)

include hVW

theorem IsVarBytes.mono {d : Data} {p : Bytes} (h : IsVarBytes V d p) : IsVarBytes W d p := by
  obtain ⟨q, b, hq, h⟩ := h
  exact ⟨q, b, hVW hq, h⟩

theorem IsCounted.mono {α : Type} {P Q : α → Bytes → Prop} (hPQ : ∀ {a p}, P a p → Q a p) {as : List α} {p : Bytes}
    (h : IsCounted V P as p) : IsCounted W Q as p := by
  obtain ⟨q, ps, hq, hps, h⟩ := h
  exact ⟨q, ps, hVW hq, hps.imp fun _ _ => hPQ, h⟩

theorem IsInput.mono {input : TransactionInput} {p : Bytes} (h : IsInput V input p) : IsInput W input p := by
  obtain ⟨hash, script, hl, hs, h⟩ := h
  exact ⟨hash, script, hl, hs.mono hVW, h⟩

theorem IsOutput.mono {output : TransactionOutput} {p : Bytes} (h : IsOutput V output p) : IsOutput W output p := by
  obtain ⟨script, hs, h⟩ := h
  exact ⟨script, hs.mono hVW, h⟩

theorem IsWitnesses.mono {bases inputs : List TransactionInput} {p : Bytes} (h : IsWitnesses V bases inputs p) :
    IsWitnesses W bases inputs p := by
  induction bases generalizing inputs p with
  | nil => exact h
  | cons base bases ih =>
    obtain ⟨input, rest, q, s, hq, hs, h⟩ := h
    exact ⟨input, rest, q, s, ⟨hq.1.mono hVW fun hb => hb.mono hVW, hq.2⟩, ih hs, h⟩

theorem IsBody.mono {hasWitness : Bool} {tx : Transaction} {p : Bytes} (h : IsBody V hasWitness tx p) :
    IsBody W hasWitness tx p := by
  obtain ⟨bases, i, o, w, hi, ho, hw, h⟩ := h
  refine ⟨bases, i, o, w, hi.mono hVW fun hb => hb.mono hVW, ho.mono hVW fun hb => hb.mono hVW, ?_, h⟩
  cases hasWitness with
  | false => exact hw
  | true => exact IsWitnesses.mono hVW hw

theorem IsTransaction.mono {F G : UInt8 → Transaction → Prop} (hFG : ∀ {flag tx}, F flag tx → G flag tx)
    {tx : Transaction} {p : Bytes} (h : IsTransaction V F tx p) : IsTransaction W G tx p := by
  obtain ⟨body, ⟨flag, rest, hf, hb, hr⟩ | ⟨hb, hm⟩, h⟩ := h
  · exact ⟨body, Or.inl ⟨flag, rest, hFG hf, hb.mono hVW, hr⟩, h⟩
  · exact ⟨body, Or.inr ⟨hb.mono hVW, hm⟩, h⟩

end

/-- The parser takes any flag but zero. -/
def AnyFlag (flag : UInt8) (_ : Transaction) : Prop := flag ≠ 0

/-- A count or a length as `varIntD` writes it, where that reads back. -/
def Shortest (n : Nat) (p : Bytes) : Prop := IsVarInt n p ∧ p = varIntD n

/-- The flag is 1 and there is a witness. -/
def WitnessFlag (flag : UInt8) (tx : Transaction) : Prop := flag = 1 ∧ transactionHasWitnessData tx = true

/-- A whole transaction, as the parser understands it. -/
def IsWhole (tx : Transaction) (p : Bytes) : Prop := IsTransaction IsVarInt AnyFlag tx p

/-- A whole transaction in the form the serializer gives it. -/
def IsStrict (tx : Transaction) (p : Bytes) : Prop := IsTransaction Shortest WitnessFlag tx p

theorem IsStrict.isWhole {tx : Transaction} {p : Bytes} (h : IsStrict tx p) : IsWhole tx p := by
  refine IsTransaction.mono (fun hq => hq.1) (fun hf => ?_) h
  rw [AnyFlag, hf.1]
  decide

/-! ## The parser reads the format -/

theorem uint32_ofNat_leNat {p : Bytes} (h : p.length = 4) : uint32D (UInt32.ofNat (leNat p)).toNat = p := by
  have hlt := leNat_lt p
  have hb := leBytes_leNat p
  rw [h] at hlt hb
  rw [uint32D, UInt32.toNat_ofNat', Nat.mod_eq_of_lt (by omega), hb]

theorem uint64_ofNat_leNat {p : Bytes} (h : p.length = 8) : uint64D (UInt64.ofNat (leNat p)).toNat = p := by
  have hlt := leNat_lt p
  have hb := leBytes_leNat p
  rw [h] at hlt hb
  rw [uint64D, UInt64.toNat_ofNat', Nat.mod_eq_of_lt (by omega), hb]

theorem leNat_uint32D (n : UInt32) : UInt32.ofNat (leNat (leBytes 4 n.toNat)) = n := by
  rw [leNat_leBytes 4 _ n.toNat_lt, UInt32.ofNat_toNat]

theorem leNat_uint64D (n : UInt64) : UInt64.ofNat (leNat (leBytes 8 n.toNat)) = n := by
  rw [leNat_leBytes 8 _ n.toNat_lt, UInt64.ofNat_toNat]

theorem grammar_readVarBytes : Grammar readVarBytes (IsVarBytes IsVarInt) := by
  refine (grammar_readVarInt.bind fun length => Grammar.readRaw length).mono fun d p => ⟨?_, ?_⟩
  · rintro ⟨n, q, b, hq, ⟨hl, hd⟩, hp⟩
    exact ⟨q, b, hl ▸ hq, hd, hp⟩
  · rintro ⟨q, b, hq, hd, hp⟩
    exact ⟨b.length, q, b, hq, ⟨rfl, hd⟩, hp⟩

theorem grammar_readCounted {α : Type} {r : Reader α} {P : α → Bytes → Prop} (h : Grammar r P) :
    Grammar (readCounted r) (IsCounted IsVarInt P) := by
  refine (grammar_readVarInt.bind fun count => h.many count).mono fun as p => ⟨?_, ?_⟩
  · rintro ⟨n, q, s, hq, ⟨ps, hps, hl, hs⟩, hp⟩
    exact ⟨q, ps, hl ▸ hq, hps, hs ▸ hp⟩
  · rintro ⟨q, ps, hq, hps, hp⟩
    exact ⟨as.length, q, ps.flatten, hq, ⟨ps, hps, rfl, rfl⟩, hp⟩

theorem grammar_readInput : Grammar readInput (IsInput IsVarInt) := by
  refine ((Grammar.readRaw 32).bind fun hash => (Grammar.readLE 4).bind fun index => grammar_readVarBytes.bind
    fun script => (Grammar.readLE 4).bind fun sequence => Grammar.pure (TransactionInput.mk ⟨none, 0⟩ hash
      (UInt32.ofNat index) script (UInt32.ofNat sequence) [] 0)).mono fun input p => ⟨?_, ?_⟩
  · rintro ⟨_, hash, _, ⟨hl, rfl⟩, ⟨_, i, _, ⟨hi, rfl⟩, ⟨d, s, _, hs, ⟨_, q, _, ⟨hq, rfl⟩, ⟨rfl, rfl⟩, rfl⟩, rfl⟩, rfl⟩, rfl⟩
    refine ⟨hash, s, hl, hs, ?_, rfl, rfl, rfl, rfl⟩
    simp only [uint32_ofNat_leNat hi, uint32_ofNat_leNat hq, List.append_nil]
  · rintro ⟨hash, s, hl, hs, rfl, h1, h2, h3, h4⟩
    refine ⟨some hash, hash, _, ⟨hl, rfl⟩, ⟨_, _, _, ⟨leBytes_length 4 _, rfl⟩, ⟨_, s, _, hs,
      ⟨_, _, [], ⟨leBytes_length 4 _, rfl⟩, ⟨?_, rfl⟩, (List.append_nil _).symm⟩, rfl⟩, rfl⟩, rfl⟩
    rw [leNat_uint32D, leNat_uint32D, ← h1, ← h2, ← h3, ← h4]

theorem grammar_readOutput : Grammar readOutput (IsOutput IsVarInt) := by
  refine ((Grammar.readLE 8).bind fun value => grammar_readVarBytes.bind fun script =>
    Grammar.pure (TransactionOutput.mk script (UInt64.ofNat value))).mono fun output p => ⟨?_, ?_⟩
  · rintro ⟨_, v, _, ⟨hv, rfl⟩, ⟨d, s, _, hs, ⟨rfl, rfl⟩, rfl⟩, rfl⟩
    refine ⟨s, hs, ?_⟩
    simp only [uint64_ofNat_leNat hv, List.append_nil]
  · rintro ⟨s, hs, rfl⟩
    refine ⟨_, _, _, ⟨leBytes_length 8 _, rfl⟩, ⟨_, s, [], hs, ⟨?_, rfl⟩, (List.append_nil _).symm⟩, rfl⟩
    rw [leNat_uint64D]

theorem grammar_readWitness (base : TransactionInput) : Grammar (readWitness base) (IsWitness IsVarInt base) := by
  refine ((grammar_readCounted grammar_readVarBytes).bind fun stack => Grammar.pure { base with
    witnessStack := stack, witnessFlag := guessWitnessFlag base.scriptData stack }).mono fun input p => ⟨?_, ?_⟩
  · rintro ⟨stack, s, _, hs, ⟨rfl, rfl⟩, rfl⟩
    exact ⟨by rwa [List.append_nil], rfl⟩
  · rintro ⟨hs, hi⟩
    exact ⟨_, p, [], hs, ⟨hi, rfl⟩, (List.append_nil p).symm⟩

theorem grammar_readWitnesses (bases : List TransactionInput) :
    Grammar (readWitnesses bases) (IsWitnesses IsVarInt bases) := by
  induction bases with
  | nil => exact Grammar.pure []
  | cons base bases ih =>
    refine ((grammar_readWitness base).bind fun input => ih.bind fun inputs => Grammar.pure (input :: inputs)).mono
      fun inputs p => ⟨?_, ?_⟩
    · rintro ⟨input, q, _, hq, ⟨rest, s, _, hs, ⟨rfl, rfl⟩, rfl⟩, rfl⟩
      exact ⟨input, rest, q, s, hq, hs, rfl, by rw [List.append_nil]⟩
    · rintro ⟨input, rest, q, s, hq, hs, rfl, rfl⟩
      exact ⟨input, q, s, hq, ⟨rest, s, [], hs, ⟨rfl, rfl⟩, (List.append_nil s).symm⟩, rfl⟩

theorem grammar_readWitnessSection (hasWitness : Bool) (bases : List TransactionInput) :
    Grammar (readWitnessSection hasWitness bases) (IsWitnessSection IsVarInt hasWitness bases) := by
  cases hasWitness with
  | true => exact grammar_readWitnesses bases
  | false => exact Grammar.pure bases

/-- A body of version `version`. -/
theorem grammar_readBody (version : UInt32) (hasWitness : Bool) :
    Grammar (readBody version hasWitness) (fun tx p => tx.version = version ∧ IsBody IsVarInt hasWitness tx p) := by
  refine ((grammar_readCounted grammar_readInput).bind fun bases => (grammar_readCounted grammar_readOutput).bind
    fun outputs => (grammar_readWitnessSection hasWitness bases).bind fun inputs => (Grammar.readLE 4).bind
      fun locktime => Grammar.pure (Transaction.mk version inputs outputs (UInt32.ofNat locktime))).mono
        fun tx p => ⟨?_, ?_⟩
  · rintro ⟨bases, i, _, hi, ⟨outputs, o, _, ho, ⟨inputs, w, _, hw, ⟨_, l, _, ⟨hl, rfl⟩, ⟨rfl, rfl⟩, rfl⟩, rfl⟩, rfl⟩, rfl⟩
    refine ⟨rfl, bases, i, o, w, hi, ho, hw, ?_⟩
    simp only [uint32_ofNat_leNat hl, List.append_nil]
  · rintro ⟨rfl, bases, i, o, w, hi, ho, hw, rfl⟩
    refine ⟨bases, i, _, hi, ⟨_, o, _, ho, ⟨_, w, _, hw, ⟨_, _, [], ⟨leBytes_length 4 _, rfl⟩, ⟨?_, rfl⟩,
      (List.append_nil _).symm⟩, rfl⟩, rfl⟩, rfl⟩
    rw [leNat_uint32D]

/-! ## The marker

Whether a body is marked is read off its first two bytes, which a whole body has. -/

theorem isBody_length {V : Nat → Bytes → Prop} {hasWitness : Bool} {tx : Transaction} {p : Bytes}
    (h : IsBody V hasWitness tx p) : 4 ≤ p.length := by
  obtain ⟨_, i, o, w, _, _, _, rfl⟩ := h
  simp only [List.length_append, uint32D, leBytes_length]
  omega

theorem hasWitnessMarker_append {p : Bytes} (h : 2 ≤ p.length) (rest : Bytes) :
    hasWitnessMarker (p ++ rest) = hasWitnessMarker p := by
  match p, h with
  | _ :: _ :: _, _ => rfl

theorem hasWitnessMarker_eq_true {b : Bytes} (h : hasWitnessMarker b = true) :
    ∃ flag rest, flag ≠ 0 ∧ b = 0x00 :: flag :: rest := by
  unfold hasWitnessMarker at h
  split at h
  · rename_i marker flag rest
    rw [Bool.and_eq_true, decide_eq_true_eq, decide_eq_true_eq] at h
    exact ⟨flag, rest, h.2, by rw [h.1]⟩
  · cases h

theorem hasWitnessMarker_flag {flag : UInt8} (h : flag ≠ 0) (rest : Bytes) :
    hasWitnessMarker (0x00 :: flag :: rest) = true := by
  simp [hasWitnessMarker, h]

theorem readMarkedBody_marked (version : UInt32) {flag : UInt8} (h : flag ≠ 0) (rest : Bytes) :
    readMarkedBody version (0x00 :: flag :: rest) = readBody version true rest := by
  rw [readMarkedBody, if_pos (hasWitnessMarker_flag h rest)]
  rfl

theorem readMarkedBody_unmarked (version : UInt32) {b : Bytes} (h : hasWitnessMarker b = false) :
    readMarkedBody version b = readBody version false b := by
  rw [readMarkedBody, h]
  rfl

theorem grammar_readMarkedBody (version : UInt32) :
    Grammar (readMarkedBody version) (fun tx p => tx.version = version ∧ IsMarkedBody IsVarInt AnyFlag tx p) where
  reads := by
    rintro tx p ⟨rfl, ⟨flag, body, hf, hb, rfl⟩ | ⟨hb, hm⟩⟩ rest
    · rw [List.cons_append, List.cons_append, readMarkedBody_marked _ hf]
      exact (grammar_readBody tx.version true).reads ⟨rfl, hb⟩ rest
    · have hl := isBody_length hb
      rw [readMarkedBody_unmarked _ (by rw [hasWitnessMarker_append (by omega), hm])]
      exact (grammar_readBody tx.version false).reads ⟨rfl, hb⟩ rest
  clamps b := by
    by_cases hm : hasWitnessMarker b = true
    · obtain ⟨flag, rest, hf, rfl⟩ := hasWitnessMarker_eq_true hm
      rw [readMarkedBody_marked version hf]
      rcases (grammar_readBody version true).clamps rest with h | ⟨p, ⟨hv, hp⟩, hb⟩
      · exact Or.inl h
      · refine Or.inr ⟨0x00 :: flag :: p, ⟨hv, Or.inl ⟨flag, p, hf, hp, rfl⟩⟩, ?_⟩
        exact congrArg (fun t => 0x00 :: flag :: t) hb
    · rw [Bool.not_eq_true] at hm
      rw [readMarkedBody_unmarked version hm]
      rcases (grammar_readBody version false).clamps b with h | ⟨p, ⟨hv, hp⟩, hb⟩
      · exact Or.inl h
      · have hl := isBody_length hp
        have hmp : hasWitnessMarker p = false := by
          rw [hb, hasWitnessMarker_append (by omega)] at hm
          exact hm
        exact Or.inr ⟨p, ⟨hv, Or.inr ⟨hp, hmp⟩⟩, hb⟩

theorem grammar_readTransaction : Grammar readTransaction IsWhole := by
  refine ((Grammar.readLE 4).bind fun version => grammar_readMarkedBody (UInt32.ofNat version)).mono
    fun tx p => ⟨?_, ?_⟩
  · rintro ⟨_, v, body, ⟨hv, rfl⟩, ⟨hver, hb⟩, rfl⟩
    refine ⟨body, hb, ?_⟩
    rw [hver, uint32_ofNat_leNat hv]
  · rintro ⟨body, hb, rfl⟩
    exact ⟨_, _, body, ⟨leBytes_length 4 _, rfl⟩, ⟨(leNat_uint32D _).symm, hb⟩, rfl⟩

theorem transactionNew_eq (d : Data) :
    transactionNew d = if (readTransaction d.toBytes).2 ≠ [] then none else some (readTransaction d.toBytes).1 := rfl

/-- `TransactionNew` aborts exactly when a proper prefix is a whole transaction. -/
theorem transactionNew_eq_none_iff (d : Data) :
    transactionNew d = none ↔ ∃ tx p rest, IsWhole tx p ∧ rest ≠ [] ∧ d.toBytes = p ++ rest := by
  rw [← grammar_readTransaction.leftover_iff, transactionNew_eq]
  by_cases h : (readTransaction d.toBytes).2 = [] <;> simp [h]

theorem transactionNew_of_isWhole {d : Data} {tx : Transaction} (h : IsWhole tx d.toBytes) :
    transactionNew d = some tx := by
  have hr := grammar_readTransaction.reads h []
  rw [List.append_nil] at hr
  rw [transactionNew_eq, hr, if_neg (by simp)]

end BitcoinSpoon
