/-
  BitcoinSpoon.Transaction.Keeps — which signatures survive signing again.

  The passes of `TransactionSign` either put a signature in front of the script of a stack
  or replace the whole stack: by a key and its signature for a key hash, by the script for
  a script hash. An item that does the latter (`resetsStack`) drops the signatures of the
  other signers. Without one every element of every stack is still there at the end,
  sorting and the extra elements included.
-/

import BitcoinSpoon.Transaction.Stack
import BitcoinSpoon.Transaction.Passes

namespace BitcoinSpoon

open Wire

/-- The item makes a pass replace the stack of the input. `scriptSig` is the script sig of
    a pay-to-script-hash input after the first pass. -/
def resetsStack (c : Crypto) (scriptSig : Data) (input : TransactionInput) (item : Data) : Bool :=
  match transactionInputType input with
  | .payToPubkeyWitness => signsKeyHash c input.fundingOutput.script item
  | .payToScriptWitness => isWitnessScript c input.fundingOutput.script item
  | .payToScriptHash =>
    isNestedScript c (datasLast (readPushes scriptSig)) item || isNestedKey c (datasLast (readPushes scriptSig)) item ||
      isNestedKey c (settledRedeem scriptSig) item
  | .payToPubkey | .payToPubkeyHash | .unknown => false

variable {c : Crypto} {tx : Transaction} {i : Nat} {input : TransactionInput}

/-! ## The passes -/

theorem mem_insertSignature {sig d : Data} {stack : Datas} (h : d ∈ stack) : d ∈ insertSignature sig stack := by
  unfold insertSignature
  split
  · exact h
  · have hlt : stack.length - 1 ≤ stack.length := Nat.sub_le _ _
    exact (List.mem_insertIdx hlt).mpr (Or.inr h)

theorem mem_signStack {items stack : Datas} {sig : Data} (h : sig ∈ stack) : sig ∈ signStack c tx i items stack := by
  unfold signStack
  refine Loop.foldl_inv (fun stack : Datas => sig ∈ stack) h ?_
  intro item _ stack hmem
  split
  · exact mem_insertSignature hmem
  · exact hmem

section

variable {items : Datas} (hreset : ∀ item ∈ items, resetsStack c (redeemScriptSig c items input) input item = false)

include hreset

theorem stackBefore_of_not_resets : stackBefore c tx items i input = input.witnessStack := by
  have hnone : ∀ {p : Data → Bool} {g : Data → Datas}, (∀ item ∈ items, p item = false) →
      ((items.filter p).getLast?.map g).getD input.witnessStack = input.witnessStack := by
    intro p g hp
    have hnil : items.filter p = [] := by
      rw [List.filter_eq_nil_iff]
      intro item hitem
      rw [hp item hitem]
      decide
    rw [hnil]
    rfl
  unfold resetsStack at hreset
  unfold stackBefore
  cases ht : transactionInputType input with
  | payToPubkey | payToPubkeyHash | unknown => rfl
  | payToPubkeyWitness =>
    rw [ht] at hreset
    exact hnone hreset
  | payToScriptWitness =>
    rw [ht] at hreset
    exact hnone hreset
  | payToScriptHash =>
    rw [ht] at hreset
    simp only [Bool.or_eq_false_iff] at hreset
    exact hnone fun item hitem => (hreset item hitem).1.1

theorem nestedKeys_of_not_resets : nestedKeys c items input = [] := by
  unfold nestedKeys
  split
  · rename_i ht
    apply nestedSigners_eq_nil
    intro item hitem
    have h := hreset item hitem
    unfold resetsStack at h
    rw [ht] at h
    simp only [Bool.or_eq_false_iff] at h
    exact ⟨h.1.2, h.2⟩
  · rfl

theorem mem_signedView {sig : Data} (hsig : sig ∈ input.witnessStack) :
    sig ∈ (signedView c tx items i input).witnessStack := by
  rw [signedView_witnessStack, nestedKeys_of_not_resets hreset, stackBefore_of_not_resets hreset]
  exact mem_signStack hsig

end

/-! ## The whole call -/

/-- Without an item that resets the stack of an input, every element of the stack is there
    when the call returns. -/
theorem transactionSign_keeps_stack {items : Datas} {tx' : Transaction} {affected : List Nat}
    (hsign : transactionSign c tx items = some (tx', affected)) (hin : tx.inputs[i]? = some input)
    (hreset : ∀ item ∈ items, resetsStack c (redeemScriptSig c items input) input item = false) :
    ∃ out, tx'.inputs[i]? = some out ∧ ∀ sig ∈ input.witnessStack, sig ∈ out.witnessStack := by
  obtain ⟨hmap, -⟩ := transactionSign_iff.mp hsign
  obtain ⟨out, hout, hfinal⟩ := hmap.inputs.get hin
  refine ⟨out, hout, fun sig hsig => mem_finalInput hfinal ?_⟩
  exact mem_signedView hreset hsig

/-! ## Two signers of one script -/

def signerKey (n : UInt8) : Data := some (List.replicate 32 n)

/-- Two keys, both needed. -/
def twoKeyScript : Data :=
  some ([0x52] ++ scriptPush (pubKey plainCrypto (signerKey 1)) ++ scriptPush (pubKey plainCrypto (signerKey 2)) ++
    [0x52, UInt8.ofNat OP_CHECKMULTISIG])

/-- It spends the hash of the script, with this stack. -/
def twoKeyInput (witnessStack : Datas) : TransactionInput where
  fundingOutput := ⟨some (p2wshPubScriptWithScript plainCrypto twoKeyScript), 1000⟩
  previousTransactionHash := some (List.replicate 32 7)
  outputIndex := 0
  scriptData := none
  sequence := 0
  witnessStack := witnessStack
  witnessFlag := 0

def twoKeyTransaction (witnessStack : Datas) : Transaction where
  version := 2
  inputs := [twoKeyInput witnessStack]
  outputs := [⟨some [0x51], 900⟩]
  locktime := 0

/-- What the first signer made. -/
def firstSignature : Data := witnessSignature plainCrypto (twoKeyTransaction []) 0 twoKeyScript (signerKey 1)

theorem transactionSign_script_alone :
    transactionSign plainCrypto (twoKeyTransaction [firstSignature, twoKeyScript]) [twoKeyScript] =
      some (twoKeyTransaction [twoKeyScript], [0]) := by
  decide +kernel

/-- The script, listed again, takes the place of the stack and drops the signature. -/
theorem not_transactionSign_keeps_stack :
    ¬ ∀ (c : Crypto) (tx tx' : Transaction) (items : Datas) (affected : List Nat) (i : Nat) (input : TransactionInput)
      (sig key : Data), transactionSign c tx items = some (tx', affected) → tx.inputs[i]? = some input →
        sig ∈ input.witnessStack → key ∈ allPubKeys (datasLast input.witnessStack) →
        verify c sig (transactionWitnessDigest c (tx.setScriptData i (datasLast input.witnessStack)) i) key = true →
        ∃ out, tx'.inputs[i]? = some out ∧ sig ∈ out.witnessStack := by
  intro h
  have hlost := h plainCrypto _ _ _ _ 0 _ firstSignature (pubKey plainCrypto (signerKey 1)) transactionSign_script_alone
    rfl List.mem_cons_self (by decide +kernel) (by decide +kernel)
  revert hlost
  decide +kernel

/-- What the second signer makes of it, the first signature still in it. -/
def bothSigned : Transaction :=
  twoKeyTransaction [some [], firstSignature,
    witnessSignature plainCrypto (twoKeyTransaction []) 0 twoKeyScript (signerKey 2), twoKeyScript]

theorem transactionSign_second_signer :
    transactionSign plainCrypto (twoKeyTransaction [firstSignature, twoKeyScript]) [signerKey 2] =
      some (bothSigned, [0]) := by
  decide +kernel

theorem transactionSign_keeps_stack_twoKey :
    ∃ out, bothSigned.inputs[0]? = some out ∧ ∀ sig ∈ [firstSignature, twoKeyScript], sig ∈ out.witnessStack :=
  transactionSign_keeps_stack transactionSign_second_signer
    (show _ = some (twoKeyInput [firstSignature, twoKeyScript]) from rfl) (by decide +kernel)

end BitcoinSpoon
