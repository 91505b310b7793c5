/-
  BitcoinSpoon.Transaction.Binding — what a signature digest binds.

  `TransactionDigest` is a serialization without witnesses. It is self-delimiting, and so
  determines the transaction, when every count and script length reads back from what
  `varIntD` writes. `TransactionWitnessDigestFlexible` hashes the outpoints, the sequences
  and the outputs separately: outpoints and sequences have a fixed size, the script code
  sits between fields of fixed size, and only the output scripts need lengths that read
  back.

  A length of 253 to 255 is written as a single byte that starts a longer form, so the
  bytes after it can be cut in two ways: `narrowCut` and `wideCut` have different outputs
  and the same digests.
-/

import BitcoinSpoon.Transaction.RoundTrip

namespace BitcoinSpoon

open Wire

/-! ## What is bound -/

/-- The fields of an input that are signed. -/
structure InputFields where
  previousTransactionHash : Bytes
  outputIndex : UInt32
  scriptData : Bytes
  sequence : UInt32
  deriving DecidableEq

def TransactionInput.fields (input : TransactionInput) : InputFields where
  previousTransactionHash := input.previousTransactionHash.toBytes
  outputIndex := input.outputIndex
  scriptData := input.scriptData.toBytes
  sequence := input.sequence

def TransactionInput.outpoint (input : TransactionInput) : Bytes × UInt32 :=
  (input.previousTransactionHash.toBytes, input.outputIndex)

/-- What `TransactionDigest` covers. -/
structure SameFields (a b : Transaction) : Prop where
  version : a.version = b.version
  inputs : a.inputs.map TransactionInput.fields = b.inputs.map TransactionInput.fields
  outputs : a.outputs.map TransactionOutput.contents = b.outputs.map TransactionOutput.contents
  locktime : a.locktime = b.locktime

/-- What `TransactionWitnessDigestFlexible` covers, for input `i` of `a` with value `v` and
    input `j` of `b` with value `w`. -/
structure SameWitnessFields (a b : Transaction) (i j : Nat) (v w : UInt64) : Prop where
  version : a.version = b.version
  outpoints : a.inputs.map TransactionInput.outpoint = b.inputs.map TransactionInput.outpoint
  sequences : a.inputs.map TransactionInput.sequence = b.inputs.map TransactionInput.sequence
  outpoint : a.inputs[i]?.map TransactionInput.outpoint = b.inputs[j]?.map TransactionInput.outpoint
  scriptCode : a.inputs[i]?.map (fun input => input.scriptData.toBytes) =
    b.inputs[j]?.map (fun input => input.scriptData.toBytes)
  value : v = w
  sequence : a.inputs[i]?.map TransactionInput.sequence = b.inputs[j]?.map TransactionInput.sequence
  outputs : a.outputs.map TransactionOutput.contents = b.outputs.map TransactionOutput.contents
  locktime : a.locktime = b.locktime

def HashesOk (tx : Transaction) : Prop := ∀ input ∈ tx.inputs, input.previousTransactionHash.length = 32

instance (tx : Transaction) : Decidable (HashesOk tx) :=
  inferInstanceAs (Decidable (∀ input ∈ tx.inputs, input.previousTransactionHash.length = 32))

/-- A length field of the C types: `Data.length` is a `uint32_t`. -/
def LengthsFit (tx : Transaction) : Prop := ∀ input ∈ tx.inputs, input.scriptData.length < 2 ^ 32

instance (tx : Transaction) : Decidable (LengthsFit tx) :=
  inferInstanceAs (Decidable (∀ input ∈ tx.inputs, input.scriptData.length < 2 ^ 32))

def OutputsDelimited (tx : Transaction) : Prop := ∀ output ∈ tx.outputs, VarIntOk output.script.length

/-- Every count and length of the serialization without witnesses reads back. -/
structure Delimited (tx : Transaction) : Prop where
  inputCount : VarIntOk tx.inputs.length
  scripts : ∀ input ∈ tx.inputs, VarIntOk input.scriptData.length
  outputCount : VarIntOk tx.outputs.length
  outputs : OutputsDelimited tx

/-! ## The legacy digest -/

/-- The parser of a serialization without witnesses. -/
def readUnmarked : Reader Transaction := do
  let version ← uint32readP
  readBody (UInt32.ofNat version) false

/-- The transaction without its witnesses, as it is read back. -/
def unmarkedTransaction (tx : Transaction) : Transaction where
  version := tx.version
  inputs := tx.inputs.map TransactionInput.parsed
  outputs := tx.outputs.map TransactionOutput.parsed
  locktime := tx.locktime

theorem transactionTx_eq (tx : Transaction) : transactionTx tx = uint32D tx.version.toNat ++ bodyData false tx := by
  simp only [transactionTx, bodyData, countedData, witnessSectionData, Bool.false_eq_true, if_false, List.nil_append,
    List.append_assoc]

theorem isInput_unmarked {input : TransactionInput} (hh : input.previousTransactionHash.length = 32)
    (hs : VarIntOk input.scriptData.length) : IsInput Shortest input.parsed (transactionInputData input) :=
  ⟨_, _, hh, isVarBytes_parsedItem hs, transactionInputData_eq input, rfl, rfl, rfl, rfl⟩

theorem reads_transactionTx {tx : Transaction} (hh : HashesOk tx) (hd : Delimited tx) :
    Reads readUnmarked (transactionTx tx) (unmarkedTransaction tx) := by
  have hbody : IsBody Shortest false (unmarkedTransaction tx) (bodyData false tx) :=
    ⟨tx.inputs.map TransactionInput.parsed, _, _, _,
      isCounted_map hd.inputCount fun input hi => isInput_unmarked (hh input hi) (hd.scripts input hi),
      isCounted_map hd.outputCount fun output ho => isOutput_parsed (hd.outputs output ho), ⟨rfl, rfl⟩, rfl⟩
  rw [transactionTx_eq]
  refine Reads.bind (Reads.readLE tx.version.toNat_lt) ?_
  rw [UInt32.ofNat_toNat]
  exact (grammar_readBody tx.version false).reads ⟨rfl, hbody.mono fun hq => hq.1⟩

/-- What is read back determines the fields it was written from. -/
theorem sameFields_of_unmarked {a b : Transaction} (h : unmarkedTransaction a = unmarkedTransaction b) :
    SameFields a b := by
  have hfields : ∀ tx : Transaction, (unmarkedTransaction tx).inputs.map TransactionInput.fields =
      tx.inputs.map TransactionInput.fields := by
    intro tx
    rw [unmarkedTransaction, List.map_map]
    rfl
  have hcontents : ∀ tx : Transaction, (unmarkedTransaction tx).outputs.map TransactionOutput.contents =
      tx.outputs.map TransactionOutput.contents := by
    intro tx
    rw [unmarkedTransaction, List.map_map]
    rfl
  have hversion : (unmarkedTransaction a).version = (unmarkedTransaction b).version := congrArg _ h
  have hlocktime : (unmarkedTransaction a).locktime = (unmarkedTransaction b).locktime := congrArg _ h
  exact ⟨hversion, by rw [← hfields a, ← hfields b, h], by rw [← hcontents a, ← hcontents b, h], hlocktime⟩

theorem transactionDigest_binds {a b : Transaction} (ha : HashesOk a) (hb : HashesOk b) (hda : Delimited a)
    (hdb : Delimited b) (h : transactionDigest a = transactionDigest b) : SameFields a b := by
  have hbytes : transactionTx a ++ uint32D 1 = transactionTx b ++ uint32D 1 := Option.some.inj h
  exact sameFields_of_unmarked ((reads_transactionTx ha hda).append_inj (reads_transactionTx hb hdb) hbytes).1

/-! ## The witness digest -/

/-- Collision resistance, where it is used: the two strings do not collide. -/
def NoCollision (c : Crypto) (x y : Bytes) : Prop := hash256 c (some x) = hash256 c (some y) → x = y

theorem hash256_some (c : Crypto) (x : Bytes) : hash256 c (some x) = some (c.sha256 (c.sha256 x)) := rfl

theorem eq_of_toBytes_hash256 {c : Crypto} {x y : Bytes} (hno : NoCollision c x y)
    (h : (hash256 c (some x)).toBytes = (hash256 c (some y)).toBytes) : x = y := by
  apply hno
  rw [hash256_some, hash256_some] at h ⊢
  exact congrArg some h

def outpointData (input : TransactionInput) : Bytes :=
  input.previousTransactionHash.toBytes ++ uint32D input.outputIndex.toNat

theorem uint32D_inj {m n : UInt32} (h : uint32D m.toNat = uint32D n.toNat) : m = n :=
  UInt32.toNat_inj.mp (leBytes_inj (k := 4) m.toNat_lt n.toNat_lt h)

theorem uint64D_inj {m n : UInt64} (h : uint64D m.toNat = uint64D n.toNat) : m = n :=
  UInt64.toNat_inj.mp (leBytes_inj (k := 8) m.toNat_lt n.toNat_lt h)

theorem outpoint_of_data {x y : TransactionInput} (hx : x.previousTransactionHash.length = 32)
    (hy : y.previousTransactionHash.length = 32) (h : outpointData x = outpointData y) : x.outpoint = y.outpoint := by
  obtain ⟨hhash, hindex⟩ := List.append_inj h (hx.trans hy.symm)
  rw [TransactionInput.outpoint, TransactionInput.outpoint, hhash, uint32D_inj hindex]

/-- Records of one non-zero size: their concatenation determines what they determine. -/
theorem map_eq_of_flatMap_eq {α β : Type} (enc : α → Bytes) (f : α → β) {k : Nat} (hk : 0 < k) {xs ys : List α}
    (hx : ∀ x ∈ xs, (enc x).length = k) (hy : ∀ y ∈ ys, (enc y).length = k)
    (hf : ∀ x ∈ xs, ∀ y ∈ ys, enc x = enc y → f x = f y) (h : xs.flatMap enc = ys.flatMap enc) :
    xs.map f = ys.map f := by
  induction xs generalizing ys with
  | nil =>
    cases ys with
    | nil => rfl
    | cons y ys =>
      have := congrArg List.length h
      rw [List.flatMap_nil, List.flatMap_cons, List.length_nil, List.length_append, hy y List.mem_cons_self] at this
      omega
  | cons x xs ih =>
    cases ys with
    | nil =>
      have := congrArg List.length h
      rw [List.flatMap_nil, List.flatMap_cons, List.length_nil, List.length_append, hx x List.mem_cons_self] at this
      omega
    | cons y ys =>
      rw [List.flatMap_cons, List.flatMap_cons] at h
      have hl := (hx x List.mem_cons_self).trans (hy y List.mem_cons_self).symm
      obtain ⟨hhead, htail⟩ := List.append_inj h hl
      rw [List.map_cons, List.map_cons, hf x List.mem_cons_self y List.mem_cons_self hhead]
      congr 1
      exact ih (fun z hz => hx z (List.mem_cons_of_mem _ hz)) (fun z hz => hy z (List.mem_cons_of_mem _ hz))
        (fun z hz u hu => hf z (List.mem_cons_of_mem _ hz) u (List.mem_cons_of_mem _ hu)) htail

theorem outpointData_length {input : TransactionInput} (h : input.previousTransactionHash.length = 32) :
    (outpointData input).length = 36 := by
  rw [outpointData, List.length_append, uint32D, leBytes_length]
  exact congrArg (· + 4) h

theorem outpoints_of_prevOuts {a b : Transaction} (ha : HashesOk a) (hb : HashesOk b) (h : prevOuts a = prevOuts b) :
    a.inputs.map TransactionInput.outpoint = b.inputs.map TransactionInput.outpoint :=
  map_eq_of_flatMap_eq outpointData _ (by decide) (fun x hx => outpointData_length (ha x hx))
    (fun y hy => outpointData_length (hb y hy)) (fun x hx y hy => outpoint_of_data (ha x hx) (hb y hy)) h

theorem sequences_of_sequences {a b : Transaction} (h : sequences a = sequences b) :
    a.inputs.map TransactionInput.sequence = b.inputs.map TransactionInput.sequence :=
  map_eq_of_flatMap_eq (fun input : TransactionInput => uint32D input.sequence.toNat) TransactionInput.sequence (by decide)
    (fun _ _ => leBytes_length 4 _) (fun _ _ => leBytes_length 4 _) (fun _ _ _ _ => uint32D_inj) h

theorem transactionOutputData_ne_nil (output : TransactionOutput) : transactionOutputData output ≠ [] := by
  intro h
  have := congrArg List.length h
  rw [transactionOutputData_eq, List.length_append, uint64D, leBytes_length, List.length_nil] at this
  omega

theorem outputs_of_outputsData {a b : Transaction} (ha : OutputsDelimited a) (hb : OutputsDelimited b)
    (h : outputsData a = outputsData b) :
    a.outputs.map TransactionOutput.contents = b.outputs.map TransactionOutput.contents := by
  have hreads : ∀ {tx : Transaction}, OutputsDelimited tx → ∀ output ∈ tx.outputs,
      Reads readOutput (transactionOutputData output) output.parsed := by
    intro tx htx output ho
    exact grammar_readOutput.reads ((isOutput_parsed (htx output ho)).mono fun hq => hq.1)
  have hparsed := Reads.flatMap_inj transactionOutputData_ne_nil (hreads ha) (hreads hb) h
  have hmap := congrArg (List.map TransactionOutput.contents) hparsed
  rw [List.map_map, List.map_map] at hmap
  exact hmap

/-- Two script codes of a representable length: the prefix grows with the length, so the
    total size fixes both. -/
theorem scriptCode_of_data {x y : Data} (hx : x.length < 2 ^ 32) (hy : y.length < 2 ^ 32)
    (h : varIntD x.length ++ x.toBytes = varIntD y.length ++ y.toBytes) : x.toBytes = y.toBytes := by
  have hlen := congrArg List.length h
  rw [List.length_append, List.length_append] at hlen
  have hvar : ∀ n : Nat, n < 2 ^ 32 → (varIntD n).length = if n < 2 ^ 8 then 1 else if n < 2 ^ 16 then 3 else 5 := by
    intro n hn
    rw [varIntD_eq (by omega), if_neg (by omega)]
    by_cases h16 : 2 ^ 16 ≤ n
    · rw [if_pos h16, if_neg (by omega), if_neg (by omega)]; rfl
    by_cases h8 : 2 ^ 8 ≤ n
    · rw [if_neg h16, if_pos h8, if_neg (by omega), if_pos (by omega)]; rfl
    · rw [if_neg h16, if_neg h8, if_pos (by omega)]; rfl
  have hsame : x.length = y.length := by
    rw [hvar _ hx, hvar _ hy] at hlen
    change _ + x.length = _ + y.length at hlen
    split at hlen <;> split at hlen <;> (try split at hlen) <;> (try split at hlen) <;> omega
  rw [hsame] at h
  exact List.append_cancel_left h

theorem witnessDigest_eq_some {c : Crypto} {tx : Transaction} {i : Nat} {v : UInt64} {d : Bytes}
    (h : transactionWitnessDigestFlexible c tx i v = some d) :
    ∃ input, tx.inputs[i]? = some input ∧ input ∈ tx.inputs ∧
      d = uint32D tx.version.toNat ++ ((hash256 c (some (prevOuts tx))).toBytes ++
        ((hash256 c (some (sequences tx))).toBytes ++ (outpointData input ++
          ((varIntD input.scriptData.length ++ input.scriptData.toBytes) ++ (uint64D v.toNat ++
            (uint32D input.sequence.toNat ++ ((hash256 c (some (outputsData tx))).toBytes ++
              (uint32D tx.locktime.toNat ++ uint32D 1)))))))) := by
  unfold transactionWitnessDigestFlexible at h
  cases hi : tx.inputs[i]? with
  | none => rw [hi] at h; cases h
  | some input =>
    rw [hi] at h
    dsimp only at h
    split at h
    · cases h
    · refine ⟨input, rfl, List.mem_of_getElem? hi, ?_⟩
      rw [← Option.some.inj h]
      simp only [outpointData, List.append_assoc]

theorem toBytes_hash256_length (c : Crypto) (x : Bytes) : (hash256 c (some x)).toBytes.length = 32 :=
  c.sha256_length _

theorem witnessDigest_binds {c : Crypto} {a b : Transaction} {i j : Nat} {v w : UInt64} {d : Bytes} (ha : HashesOk a)
    (hb : HashesOk b) (hla : LengthsFit a) (hlb : LengthsFit b) (hda : OutputsDelimited a) (hdb : OutputsDelimited b)
    (hp : NoCollision c (prevOuts a) (prevOuts b)) (hs : NoCollision c (sequences a) (sequences b))
    (ho : NoCollision c (outputsData a) (outputsData b)) (h : transactionWitnessDigestFlexible c a i v = some d)
    (h' : transactionWitnessDigestFlexible c b j w = some d) : SameWitnessFields a b i j v w := by
  obtain ⟨x, hx, hxm, hdx⟩ := witnessDigest_eq_some h
  obtain ⟨y, hy, hym, hdy⟩ := witnessDigest_eq_some h'
  have heq := hdx.symm.trans hdy
  obtain ⟨hver, heq⟩ := List.append_inj heq (by simp only [uint32D, leBytes_length])
  obtain ⟨hprev, heq⟩ := List.append_inj heq (by rw [toBytes_hash256_length, toBytes_hash256_length])
  obtain ⟨hseqs, heq⟩ := List.append_inj heq (by rw [toBytes_hash256_length, toBytes_hash256_length])
  obtain ⟨hout, heq⟩ := List.append_inj heq (by rw [outpointData_length (ha x hxm), outpointData_length (hb y hym)])
  obtain ⟨hcode, heq⟩ := List.append_inj' heq (by
    simp only [List.length_append, uint32D, uint64D, leBytes_length, toBytes_hash256_length])
  obtain ⟨hval, heq⟩ := List.append_inj heq (by simp only [uint64D, leBytes_length])
  obtain ⟨hseq, heq⟩ := List.append_inj heq (by simp only [uint32D, leBytes_length])
  obtain ⟨houts, heq⟩ := List.append_inj heq (by rw [toBytes_hash256_length, toBytes_hash256_length])
  have hlock := List.append_cancel_right heq
  constructor
  · exact uint32D_inj hver
  · exact outpoints_of_prevOuts ha hb (eq_of_toBytes_hash256 hp hprev)
  · exact sequences_of_sequences (eq_of_toBytes_hash256 hs hseqs)
  · rw [hx, hy, Option.map_some, Option.map_some, outpoint_of_data (ha x hxm) (hb y hym) hout]
  · rw [hx, hy, Option.map_some, Option.map_some, scriptCode_of_data (hla x hxm) (hlb y hym) hcode]
  · exact uint64D_inj hval
  · rw [hx, hy, Option.map_some, Option.map_some, uint32D_inj hseq]
  · exact outputs_of_outputsData hda hdb (eq_of_toBytes_hash256 ho houts)
  · exact uint32D_inj hlock

/-- Equal digests, equal transactions: for the legacy digest when every count and script
    length reads back, for the witness digest when the output script lengths do. -/
theorem signature_digests_bind (c : Crypto) (a b : Transaction) (ha : HashesOk a) (hb : HashesOk b) :
    (Delimited a → Delimited b → transactionDigest a = transactionDigest b → SameFields a b) ∧
      ∀ (i j : Nat) (v w : UInt64) (d : Bytes), LengthsFit a → LengthsFit b → OutputsDelimited a → OutputsDelimited b →
        NoCollision c (prevOuts a) (prevOuts b) → NoCollision c (sequences a) (sequences b) →
        NoCollision c (outputsData a) (outputsData b) → transactionWitnessDigestFlexible c a i v = some d →
        transactionWitnessDigestFlexible c b j w = some d → SameWitnessFields a b i j v w := by
  constructor
  · intro hda hdb h
    exact transactionDigest_binds ha hb hda hdb h
  · intro i j v w d hla hlb hda hdb hp hs ho h h'
    exact witnessDigest_binds ha hb hla hlb hda hdb hp hs ho h h'

/-- The same transaction before its witnesses were added. -/
def unsignedTransaction : Transaction :=
  { mixedTransaction with inputs := mixedTransaction.inputs.map fun input => { input with witnessStack := [] } }

theorem signature_digests_bind_unsigned :
    SameFields mixedTransaction unsignedTransaction ∧ SameWitnessFields mixedTransaction unsignedTransaction 1 1 9 9 := by
  have small : ∀ n < 253, VarIntOk n := fun n h => varIntOk (by omega) (Or.inl h)
  have outputs : OutputsDelimited mixedTransaction := by
    intro output ho
    obtain rfl := List.mem_singleton.mp ho
    exact small _ (by decide)
  have delimited : ∀ tx ∈ [mixedTransaction, unsignedTransaction], Delimited tx := by
    intro tx htx
    have scripts : ∀ tx ∈ [mixedTransaction, unsignedTransaction], ∀ input ∈ tx.inputs, input.scriptData.length < 253 := by
      decide
    have houts : tx.outputs = mixedTransaction.outputs := by
      simp only [List.mem_cons, List.not_mem_nil, or_false] at htx
      rcases htx with rfl | rfl <;> rfl
    have hcount : tx.inputs.length = 2 := by
      simp only [List.mem_cons, List.not_mem_nil, or_false] at htx
      rcases htx with rfl | rfl <;> rfl
    refine ⟨hcount ▸ small 2 (by decide), fun input hi => small _ (scripts tx htx input hi), ?_, ?_⟩
    · rw [houts]
      exact small _ (by decide)
    · intro output ho
      rw [houts] at ho
      exact outputs output ho
  have hd := delimited mixedTransaction List.mem_cons_self
  have hd' := delimited unsignedTransaction (List.mem_cons_of_mem _ List.mem_cons_self)
  have hb := signature_digests_bind plainCrypto mixedTransaction unsignedTransaction (by decide) (by decide)
  exact ⟨hb.1 hd hd' rfl, hb.2 1 1 9 9 _ (by decide) (by decide) hd.outputs hd'.outputs (fun _ => rfl) (fun _ => rfl)
    (fun _ => rfl) rfl rfl⟩

def spentInput : TransactionInput := ⟨⟨none, 0⟩, some (List.replicate 32 0xaa), 0, some [0x51], 0xffffffff, [], 0⟩

/-- A script of 253 bytes, then one of 5. -/
def narrowCut : Transaction :=
  ⟨1, [spentInput], [⟨some (0x00 :: 0x01 :: List.replicate 251 0x51), 7⟩, ⟨some (List.replicate 5 0x00), 0⟩], 0⟩

/-- A script of 256 bytes, then an empty one. -/
def wideCut : Transaction :=
  ⟨1, [spentInput], [⟨some (List.replicate 251 0x51 ++ List.replicate 5 0x00), 7⟩, ⟨some [], 83886080⟩], 0⟩

theorem not_transactionDigest_binds :
    ¬ ∀ a b : Transaction, HashesOk a → HashesOk b → transactionDigest a = transactionDigest b → SameFields a b := by
  intro h
  have hdigest : transactionDigest narrowCut = transactionDigest wideCut := by decide +kernel
  have hsame := h narrowCut wideCut (by decide) (by decide) hdigest
  exact absurd hsame.outputs (by decide)

end BitcoinSpoon
