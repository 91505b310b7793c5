/-
  BitcoinSpoon.Transaction.Validate — what `TransactionValidateSignature` shows.

  The function tries the stack as a signature and a key, and when that fails, or does not
  apply, walks the last element as a script. `Authorised` says what an accepted input
  should have. The walk counts, for a CHECKMULTISIG, the pairs of a key and an element
  the key accepts, and it is taken for a key hash input too, whose last element is a key.
  So an accepted input is authorised exactly unless one of the two matters
  (`validateSignature_sound_iff`).
-/

import BitcoinSpoon.Transaction.Remote
import Mathlib.Data.List.Dedup

namespace BitcoinSpoon

open Wire

variable (c : Crypto)

/-! ## What an accepted input should have -/

/-- A version 0 program of 20 bytes. -/
def isKeyHashProgram (script : Data) : Bool :=
  transactionInputType { (default : TransactionInput) with fundingOutput := ⟨script, 0⟩ } = .payToPubkeyWitness

/-- The input spends a key hash, directly or by its redeem script. -/
def spendsKeyHash (input : TransactionInput) : Prop :=
  transactionInputType input = .payToPubkeyWitness ∨
    (transactionInputType input = .payToScriptHash ∧ isKeyHashProgram (datasLast (transactionInputScriptStack input)))

instance (input : TransactionInput) : Decidable (spendsKeyHash input) := inferInstanceAs (Decidable (_ ∨ _))

/-- The stack is a signature and the key that accepts it. -/
def KeyHashSigned (tx : Transaction) (i : Nat) (witnessStack : Datas) : Prop :=
  witnessStack.length = 2 ∧
    verify c (datasFirst witnessStack) (scriptedDigest c tx i (some (p2wpkhImpliedScript c (datasLast witnessStack))))
      (datasLast witnessStack) = true

/-- Some element of the stack but the last is a signature of `pubKey`. -/
def SignedBy (witnessStack : Datas) (digest pubKey : Data) : Prop :=
  ∃ sig ∈ witnessStack.dropLast, verify c sig digest pubKey = true

instance (witnessStack : Datas) (digest pubKey : Data) : Decidable (SignedBy c witnessStack digest pubKey) :=
  inferInstanceAs (Decidable (∃ sig ∈ witnessStack.dropLast, _))

/-- The key of the CHECKSIG at `j`. -/
def checkSigKey (tokens : ScriptTokens) (j : Nat) : Data := if 0 < j then (scriptTokenI tokens (j - 1)).data else none

/-- The `n` of the CHECKMULTISIG at `j`. -/
def multisigN (tokens : ScriptTokens) (j : Nat) : Int := 1 + (scriptTokenI tokens (j - 1)).op - OP_1

def multisigKeys (tokens : ScriptTokens) (j : Nat) : Datas := multisigKeysBefore tokens j (multisigN tokens j).toNat

/-- The `m` of the CHECKMULTISIG at `j`. -/
def multisigM (tokens : ScriptTokens) (j : Nat) : Int :=
  1 + (scriptTokenI tokens (j - 2 - (multisigN tokens j).toNat)).op - OP_1

/-- The number of distinct keys with a signature. -/
def signers (witnessStack : Datas) (digest : Data) (keys : Datas) : Nat :=
  ((keys.filter fun key => SignedBy c witnessStack digest key).map Data.toBytes).dedup.length

/-- The number of pairs of a key and an element it accepts. -/
def signedPairs (witnessStack : Datas) (digest : Data) (keys : Datas) : Nat :=
  (keys.map (validSignaturesOf c witnessStack digest)).sum

/-- Every CHECKSIG has the signature of its key. -/
def CheckSigsSigned (witnessStack : Datas) (digest : Data) (tokens : ScriptTokens) : Prop :=
  ∀ j < tokens.length, isCheckSig (scriptTokenI tokens j).op = true →
    SignedBy c witnessStack digest (checkSigKey tokens j)

/-- Every m-of-n CHECKMULTISIG has the signatures of `m` distinct keys. -/
def MultisigsSigned (witnessStack : Datas) (digest : Data) (tokens : ScriptTokens) : Prop :=
  ∀ j < tokens.length, isCheckMultisig (scriptTokenI tokens j).op = true →
    multisigM tokens j ≤ signers c witnessStack digest (multisigKeys tokens j)

/-- The input `i` of `tx` is authorised by its witness. -/
def Authorised (tx : Transaction) (i : Nat) (input : TransactionInput) : Prop :=
  let script := datasLast input.witnessStack
  let digest := scriptedDigest c tx i script
  KeyHashSigned c tx i input.witnessStack ∨
    (¬ spendsKeyHash input ∧ CheckSigsSigned c input.witnessStack digest (scriptToTokens script) ∧
      MultisigsSigned c input.witnessStack digest (scriptToTokens script))

/-! ## What the walk checks -/

/-- The counts of the CHECKMULTISIG at `j` are in range and inside the script. -/
def MultisigWellFormed (tokens : ScriptTokens) (j : Nat) : Prop :=
  0 < j ∧ 1 ≤ multisigN tokens j ∧ multisigN tokens j ≤ 16 ∧ multisigN tokens j + 3 ≤ j ∧ 1 ≤ multisigM tokens j ∧
    multisigM tokens j ≤ 16

/-- Every CHECKMULTISIG is well formed and has exactly `m` pairs. -/
def MultisigsCounted (witnessStack : Datas) (digest : Data) (tokens : ScriptTokens) : Prop :=
  ∀ j < tokens.length, isCheckMultisig (scriptTokenI tokens j).op = true →
    MultisigWellFormed tokens j ∧ (signedPairs c witnessStack digest (multisigKeys tokens j) : Int) = multisigM tokens j

theorem hasValidSignature_iff {witnessStack : Datas} {digest pubKey : Data} :
    hasValidSignature c witnessStack digest pubKey = true ↔ SignedBy c witnessStack digest pubKey := by
  simp [hasValidSignature, SignedBy]

theorem validateCheckSig_iff {witnessStack : Datas} {digest : Data} {tokens : ScriptTokens} {j : Nat} :
    validateCheckSig c witnessStack digest tokens j = true ↔
      SignedBy c witnessStack digest (checkSigKey tokens j) := by
  unfold validateCheckSig checkSigKey
  exact hasValidSignature_iff c

theorem validateCheckMultisig_iff {witnessStack : Datas} {digest : Data} {tokens : ScriptTokens} {j : Nat} :
    validateCheckMultisig c witnessStack digest tokens j = true ↔
      MultisigWellFormed tokens j ∧
        (signedPairs c witnessStack digest (multisigKeys tokens j) : Int) = multisigM tokens j := by
  unfold validateCheckMultisig MultisigWellFormed
  by_cases hj : j = 0
  · simp [hj]
  rw [if_neg hj]
  dsimp only
  by_cases hn : multisigN tokens j < 1 ∨ 16 < multisigN tokens j ∨ (j : Int) - 2 - multisigN tokens j - 1 < 0
  · rw [if_pos (by simpa only [multisigN] using hn)]
    constructor
    · intro h; cases h
    · rintro ⟨h, -⟩; omega
  rw [if_neg (by simpa only [multisigN] using hn)]
  by_cases hm : multisigM tokens j < 1 ∨ 16 < multisigM tokens j
  · rw [if_pos (by simpa only [multisigM, multisigN] using hm)]
    constructor
    · intro h; cases h
    · rintro ⟨h, -⟩; omega
  rw [if_neg (by simpa only [multisigM, multisigN] using hm), decide_eq_true_eq]
  constructor
  · intro h
    exact ⟨by omega, h⟩
  · intro h
    exact h.2

theorem not_isCheckMultisig_of_isCheckSig {op : Nat} (h : isCheckSig op = true) : isCheckMultisig op = false := by
  simp only [isCheckSig, isCheckMultisig, Bool.or_eq_true, Bool.or_eq_false_iff, decide_eq_true_eq,
    decide_eq_false_iff_not] at h ⊢
  unfold OP_CHECKSIG OP_CHECKSIGVERIFY at h
  unfold OP_CHECKMULTISIG OP_CHECKMULTISIGVERIFY
  omega

theorem validateToken_iff {witnessStack : Datas} {digest : Data} {tokens : ScriptTokens} {j : Nat} :
    validateToken c witnessStack digest tokens j = true ↔
      (isCheckSig (scriptTokenI tokens j).op = true → SignedBy c witnessStack digest (checkSigKey tokens j)) ∧
        (isCheckMultisig (scriptTokenI tokens j).op = true → MultisigWellFormed tokens j ∧
          (signedPairs c witnessStack digest (multisigKeys tokens j) : Int) = multisigM tokens j) := by
  unfold validateToken
  dsimp only
  by_cases hs : isCheckSig (scriptTokenI tokens j).op = true
  · rw [if_pos hs, validateCheckSig_iff, not_isCheckMultisig_of_isCheckSig hs]
    simp [hs]
  rw [if_neg hs]
  by_cases hm : isCheckMultisig (scriptTokenI tokens j).op = true
  · rw [if_pos hm, validateCheckMultisig_iff]
    simp [hs, hm]
  · rw [if_neg hm]
    simp [hs, hm]

/-- The walk over all tokens. -/
theorem validateTokens_iff {witnessStack : Datas} {digest : Data} {tokens : ScriptTokens} :
    (List.range tokens.length).all (validateToken c witnessStack digest tokens) = true ↔
      CheckSigsSigned c witnessStack digest tokens ∧ MultisigsCounted c witnessStack digest tokens := by
  rw [List.all_eq_true]
  constructor
  · intro h
    refine ⟨fun j hj => ?_, fun j hj => ?_⟩
    · exact ((validateToken_iff c).mp (h j (List.mem_range.mpr hj))).1
    · exact ((validateToken_iff c).mp (h j (List.mem_range.mpr hj))).2
  · intro ⟨hs, hm⟩ j hj
    rw [List.mem_range] at hj
    exact (validateToken_iff c).mpr ⟨hs j hj, hm j hj⟩

/-! ## Whole inputs -/

theorem scriptedDigest_eq (tx : Transaction) (i : Nat) (script : Data) :
    transactionWitnessDigest c (tx.setScriptData i script) i = scriptedDigest c tx i script := rfl

/-- The input is accepted on its key hash or on its script. -/
theorem validateSignature_iff {tx : Transaction} {i : Nat} {input : TransactionInput} (hi : tx.inputs[i]? = some input) :
    (transactionValidateSignature c tx i).1 = true ↔
      KeyHashSigned c tx i input.witnessStack ∨
        (CheckSigsSigned c input.witnessStack (scriptedDigest c tx i (datasLast input.witnessStack))
            (scriptToTokens (datasLast input.witnessStack)) ∧
          MultisigsCounted c input.witnessStack (scriptedDigest c tx i (datasLast input.witnessStack))
            (scriptToTokens (datasLast input.witnessStack))) := by
  unfold transactionValidateSignature
  rw [hi]
  dsimp only
  split
  · rename_i hk
    exact ⟨fun _ => Or.inl hk, fun _ => rfl⟩
  · rename_i hk
    replace hk : ¬ KeyHashSigned c tx i input.witnessStack := hk
    dsimp only
    have hscript : ∀ b : Prop, [Decidable b] →
        (if b then tx.setScriptData i (some (p2wpkhImpliedScript c (datasLast input.witnessStack))) else tx).setScriptData i
          (datasLast input.witnessStack) = tx.setScriptData i (datasLast input.witnessStack) := by
      intro b _
      split
      · exact setScriptData_setScriptData ..
      · rfl
    rw [hscript, scriptedDigest_eq, validateTokens_iff, or_iff_right hk]

/-- Nothing is left behind: the script data is put back on every path. -/
theorem validateSignature_frame (tx : Transaction) (i : Nat) : (transactionValidateSignature c tx i).2 = tx := by
  unfold transactionValidateSignature
  cases hi : tx.inputs[i]? with
  | none => rfl
  | some input =>
    dsimp only
    split
    · dsimp only
      rw [setScriptData_setScriptData, setScriptData_self hi]
    · dsimp only
      split <;> simp only [setScriptData_setScriptData, setScriptData_self hi]

theorem validateFrom_eq (indices : List Nat) (tx : Transaction) :
    validateFrom c indices tx = (indices.all fun i => (transactionValidateSignature c tx i).1, tx) := by
  induction indices with
  | nil => rfl
  | cons i rest ih =>
    have hframe := validateSignature_frame c tx i
    unfold validateFrom
    rw [List.all_cons]
    cases hv : transactionValidateSignature c tx i with
    | mk valid tx' =>
      rw [hv] at hframe
      obtain rfl : tx' = tx := hframe
      cases valid with
      | true => simpa using ih
      | false => rfl

/-- All inputs are checked, against the same transaction. -/
theorem validateSignatures_iff (tx : Transaction) :
    (transactionValidateSignatures c tx).1 = true ↔
      ∀ i < tx.inputs.length, (transactionValidateSignature c tx i).1 = true := by
  simp [transactionValidateSignatures, validateFrom_eq]

/-- An accepted input is authorised exactly when it is signed as a key hash, or the walk
    finds something missing, or it spends no key hash and no CHECKMULTISIG has more pairs
    than distinct signers. -/
theorem validateSignature_sound_iff (tx : Transaction) (i : Nat) (input : TransactionInput)
    (hi : tx.inputs[i]? = some input) :
    ((transactionValidateSignature c tx i).1 = true → Authorised c tx i input) ↔
      let script := datasLast input.witnessStack
      let digest := scriptedDigest c tx i script
      let tokens := scriptToTokens script
      KeyHashSigned c tx i input.witnessStack ∨
        ¬ (CheckSigsSigned c input.witnessStack digest tokens ∧ MultisigsCounted c input.witnessStack digest tokens) ∨
        (¬ spendsKeyHash input ∧ ∀ j < tokens.length, isCheckMultisig (scriptTokenI tokens j).op = true →
          signedPairs c input.witnessStack digest (multisigKeys tokens j) ≤
            signers c input.witnessStack digest (multisigKeys tokens j)) := by
  rw [validateSignature_iff c hi]
  unfold Authorised
  dsimp only
  generalize hd : scriptedDigest c tx i (datasLast input.witnessStack) = digest
  generalize scriptToTokens (datasLast input.witnessStack) = tokens
  by_cases hk : KeyHashSigned c tx i input.witnessStack
  · exact ⟨fun _ => Or.inl hk, fun _ _ => Or.inl hk⟩
  simp only [hk, false_or]
  by_cases hw : CheckSigsSigned c input.witnessStack digest tokens ∧ MultisigsCounted c input.witnessStack digest tokens
  · obtain ⟨hs, hm⟩ := hw
    constructor
    · intro h
      obtain ⟨hspend, -, hsigned⟩ := h ⟨hs, hm⟩
      refine Or.inr ⟨hspend, fun j hj hop => ?_⟩
      have := (hm j hj hop).2
      have := hsigned j hj hop
      omega
    · rintro (h | ⟨hspend, hpairs⟩)
      · exact absurd ⟨hs, hm⟩ h
      · intro _
        refine ⟨hspend, hs, fun j hj hop => ?_⟩
        have := (hm j hj hop).2
        have := hpairs j hj hop
        omega
  · exact ⟨fun _ => Or.inl hw, fun _ h => absurd h hw⟩

def keyHashKey : Data := pubKey plainCrypto (some (List.replicate 32 0x01))

/-- A spend of a key hash with `sig` for a signature. -/
def keyHashInput (sig : Data) : TransactionInput :=
  ⟨⟨p2wpkhPubScriptFromPubKey plainCrypto keyHashKey, 5000⟩, some (List.replicate 32 0xaa), 0, none, 0xffffffff,
    [sig, keyHashKey], 0⟩

def keyHashSpend (sig : Data) : Transaction := ⟨2, [keyHashInput sig], [⟨some [0x51], 4000⟩], 0⟩

def keyHashSignature : Data :=
  witnessSignature plainCrypto (keyHashSpend none) 0 (some (p2wpkhImpliedScript plainCrypto keyHashKey))
    (some (List.replicate 32 0x01))

theorem validateSignature_sound_signed :
    Authorised plainCrypto (keyHashSpend keyHashSignature) 0 (keyHashInput keyHashSignature) := by
  have haccepted : (transactionValidateSignature plainCrypto (keyHashSpend keyHashSignature) 0).1 = true := by
    decide +kernel
  have hverify : verify plainCrypto keyHashSignature (scriptedDigest plainCrypto (keyHashSpend keyHashSignature) 0
      (some (p2wpkhImpliedScript plainCrypto keyHashKey))) keyHashKey = true := by decide +kernel
  exact (validateSignature_sound_iff plainCrypto (keyHashSpend keyHashSignature) 0 (keyHashInput keyHashSignature)
    rfl).mpr (Or.inl ⟨rfl, hverify⟩) haccepted

/-- Something that is not a signature is accepted too: the key, taken for a script, has
    nothing to check. -/
theorem not_validateSignature_sound :
    ¬ ∀ (c : Crypto) (tx : Transaction) (i : Nat) (input : TransactionInput), tx.inputs[i]? = some input →
      input.witnessStack ≠ [] → input.fundingOutput.script ≠ none → (transactionValidateSignature c tx i).1 = true →
        Authorised c tx i input := by
  intro h
  have haccepted : (transactionValidateSignature plainCrypto (keyHashSpend (some [0x30])) 0).1 = true := by
    decide +kernel
  have hfunded : (keyHashInput (some [0x30])).fundingOutput.script ≠ none := by decide +kernel
  have hspends : spendsKeyHash (keyHashInput (some [0x30])) := by decide +kernel
  rcases h plainCrypto (keyHashSpend (some [0x30])) 0 (keyHashInput (some [0x30])) rfl (by decide) hfunded haccepted with
    hk | ⟨hspend, -⟩
  · exact absurd hk.2 (by decide +kernel)
  · exact hspend hspends

end BitcoinSpoon
