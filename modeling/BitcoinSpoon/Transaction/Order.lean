/-
  BitcoinSpoon.Transaction.Order — when the order of keys and scripts does not matter.

  Two lists with the same items sign a transaction alike when, input by input, they agree
  on what depends on order (`SameOrder`): on the keys of a pay-to-pubkey script and of a
  bare redeem script, which sign one after another in the script sig; on the last of the
  items that match one hash; on what an unsigned input is left with. The signatures of a
  witness script are sorted at the end, which undoes the order as long as no key that
  accepts a new one finds two it accepts side by side (`SortedAlike`).
-/

import BitcoinSpoon.Transaction.Keeps

namespace BitcoinSpoon

open Wire Loop

variable {c : Crypto} {tx : Transaction} {i : Nat} {input : TransactionInput} {items items' : Datas}

/-! ## The signatures of a witness script -/

theorem insertSignature_concat {sig last : Data} {init : Datas} (h : datasHasMatchingData (init ++ [last]) sig = false) :
    insertSignature sig (init ++ [last]) = init ++ [sig] ++ [last] := by
  rw [insertSignature, h, datasAddCopyIndex_concat, List.append_assoc]
  rfl

/-- `new` holds each signature of `made` once that the stack does not hold already. -/
structure Adds (stack : Datas) (made : Data → Prop) (new : Datas) : Prop where
  nodup : new.Nodup
  mem : ∀ s, s ∈ new ↔ datasHasMatchingData stack s = false ∧ made s

theorem Adds.congr {stack new : Datas} {made made' : Data → Prop} (h : Adds stack made new) (hm : ∀ s, made s ↔ made' s) :
    Adds stack made' new := by
  refine ⟨h.nodup, fun s => ?_⟩
  rw [h.mem, hm]

theorem datasHasMatchingData_append (a b : Datas) (d : Data) :
    datasHasMatchingData (a ++ b) d = (datasHasMatchingData a d || datasHasMatchingData b d) := List.any_append

/-- One more signature, which is there already. -/
theorem Adds.skip {init new : Datas} {last sig : Data} {made : Data → Prop} (h : Adds (init ++ [last]) made new)
    (hmade : ∀ s, made s → ∃ b, s = some b) (hsig : ∃ b, sig = some b)
    (hthere : datasHasMatchingData (init ++ new ++ [last]) sig = true) :
    Adds (init ++ [last]) (fun s => made s ∨ s = sig) new := by
  refine ⟨h.nodup, fun s => ?_⟩
  rw [h.mem]
  constructor
  · intro ⟨hs, hm⟩
    exact ⟨hs, Or.inl hm⟩
  · intro ⟨hs, hm⟩
    rcases hm with hm | rfl
    · exact ⟨hs, hm⟩
    rw [datasHasMatchingData_append, Bool.or_eq_false_iff] at hs
    rw [datasHasMatchingData_append, datasHasMatchingData_append, hs.1, hs.2, Bool.false_or, Bool.or_false] at hthere
    obtain ⟨t, ht, heq⟩ := List.any_eq_true.mp hthere
    obtain ⟨htm, hmt⟩ := (h.mem t).mp ht
    obtain ⟨b, rfl⟩ := hsig
    obtain ⟨b', rfl⟩ := hmade t hmt
    have hbb : b' = b := dataEqual_iff.mp heq
    rw [← hbb]
    exact ⟨htm, hmt⟩

/-- One more signature, which is not. -/
theorem Adds.insert {init new : Datas} {last sig : Data} {made : Data → Prop} (h : Adds (init ++ [last]) made new)
    (hnew : datasHasMatchingData (init ++ new ++ [last]) sig = false) :
    Adds (init ++ [last]) (fun s => made s ∨ s = sig) (new ++ [sig]) := by
  rw [datasHasMatchingData_append, datasHasMatchingData_append, Bool.or_eq_false_iff, Bool.or_eq_false_iff] at hnew
  obtain ⟨⟨hinit, hnew⟩, hlast⟩ := hnew
  refine ⟨?_, fun s => ?_⟩
  · rw [List.nodup_append]
    refine ⟨h.nodup, by simp, ?_⟩
    intro s hs t ht hst
    obtain rfl := List.mem_singleton.mp ht
    have := List.any_eq_false.mp hnew s hs
    rw [hst] at this
    simp at this
  · rw [List.mem_append, List.mem_singleton, h.mem]
    constructor
    · intro hs
      rcases hs with ⟨hs, hm⟩ | rfl
      · exact ⟨hs, Or.inl hm⟩
      · refine ⟨?_, Or.inr rfl⟩
        rw [datasHasMatchingData_append, hinit, hlast]
        rfl
    · intro ⟨hs, hm⟩
      rcases hm with hm | rfl
      · exact Or.inl ⟨hs, hm⟩
      · exact Or.inr rfl

/-- A signature the keys among `items` make for the last element of the stack. -/
def MadeFor (c : Crypto) (tx : Transaction) (i : Nat) (items : Datas) (script s : Data) : Prop :=
  ∃ item ∈ items, isScriptKey c script item = true ∧ s = witnessSignature c tx i script item

/-- The new signatures stand in front of the script, each once. -/
theorem signStack_eq (c : Crypto) (tx : Transaction) (i : Nat) (items init : Datas) (script : Data) :
    ∃ new : Datas, signStack c tx i items (init ++ [script]) = init ++ new ++ [script] ∧
      Adds (init ++ [script]) (MadeFor c tx i items script) new := by
  refine foldl_rule (fun (pre : Datas) (st : Datas) => ∃ new : Datas, st = init ++ new ++ [script] ∧
    Adds (init ++ [script]) (MadeFor c tx i pre script) new) ?_ ?_
  · refine ⟨[], by rw [List.append_nil], List.nodup_nil, fun s => ?_⟩
    simp [MadeFor]
  intro pre item post _ st hst
  obtain ⟨new, rfl, hadds⟩ := hst
  rw [datasLast_concat]
  by_cases hkey : isScriptKey c script item = true
  · have hmade : ∀ s, (MadeFor c tx i pre script s ∨ s = witnessSignature c tx i script item) ↔
        MadeFor c tx i (pre ++ [item]) script s := by
      intro s
      simp [MadeFor, or_and_right, exists_or, hkey]
    rw [if_pos hkey]
    cases hthere : datasHasMatchingData (init ++ new ++ [script]) (witnessSignature c tx i script item) with
    | true =>
      rw [insertSignature, if_pos hthere]
      refine ⟨new, rfl, (hadds.skip ?_ ⟨_, rfl⟩ hthere).congr hmade⟩
      intro s hs
      obtain ⟨x, -, -, rfl⟩ := hs
      exact ⟨_, rfl⟩
    | false =>
      rw [insertSignature_concat hthere]
      exact ⟨new ++ [witnessSignature c tx i script item], by simp, (hadds.insert hthere).congr hmade⟩
  · rw [if_neg hkey]
    refine ⟨new, rfl, hadds.congr fun s => ?_⟩
    simp [MadeFor, or_and_right, exists_or, hkey]

/-- The signatures that the keys among the items add in front of a script: each once, in the
    order of the keys, and none of those held already. -/
def newSignatures (c : Crypto) (tx : Transaction) (i : Nat) (script : Data) : Datas → Datas → Datas
  | _, [] => []
  | held, item :: items =>
    if isScriptKey c script item = true ∧ datasHasMatchingData held (witnessSignature c tx i script item) = false then
      witnessSignature c tx i script item ::
        newSignatures c tx i script (witnessSignature c tx i script item :: held) items
    else newSignatures c tx i script held items

theorem newSignatures_congr {script : Data} {held held' : Datas}
    (h : ∀ d, datasHasMatchingData held d = datasHasMatchingData held' d) (items : Datas) :
    newSignatures c tx i script held items = newSignatures c tx i script held' items := by
  induction items generalizing held held' with
  | nil => rfl
  | cons item items ih =>
    rw [newSignatures, newSignatures, h, ih h]
    have hnext : ∀ d, datasHasMatchingData (witnessSignature c tx i script item :: held) d =
        datasHasMatchingData (witnessSignature c tx i script item :: held') d := by
      intro d
      have hd := h d
      unfold datasHasMatchingData at hd ⊢
      rw [List.any_cons, List.any_cons, hd]
    rw [ih hnext]

/-- They stand between the elements that were there and the script. -/
theorem signStack_new (items init : Datas) (script : Data) :
    signStack c tx i items (init ++ [script]) = init ++ newSignatures c tx i script (init ++ [script]) items ++ [script] := by
  induction items generalizing init with
  | nil =>
    rw [newSignatures, List.append_nil]
    rfl
  | cons item items ih =>
    have hstep : signStack c tx i (item :: items) (init ++ [script]) = signStack c tx i items
        (if isScriptKey c script item = true then insertSignature (witnessSignature c tx i script item) (init ++ [script])
          else init ++ [script]) := by
      unfold signStack
      rw [List.foldl_cons, datasLast_concat]
    rw [hstep, newSignatures]
    by_cases hkey : isScriptKey c script item = true
    · rw [if_pos hkey]
      cases hthere : datasHasMatchingData (init ++ [script]) (witnessSignature c tx i script item) with
      | true => rw [insertSignature, if_pos hthere, ih, if_neg (by simp)]
      | false =>
        have hheld : ∀ d, datasHasMatchingData (init ++ [witnessSignature c tx i script item] ++ [script]) d =
            datasHasMatchingData (witnessSignature c tx i script item :: (init ++ [script])) d := by
          intro d
          unfold datasHasMatchingData
          simp only [List.any_append, List.any_cons, List.any_nil, Bool.or_false, ← Bool.or_assoc]
          rw [Bool.or_comm (init.any _)]
        rw [insertSignature_concat hthere, ih, newSignatures_congr hheld, if_pos ⟨hkey, rfl⟩]
        simp
    · rw [if_neg hkey, ih, if_neg fun h => hkey h.1]

theorem newSignatures_adds (c : Crypto) (tx : Transaction) (i : Nat) (items init : Datas) (script : Data) :
    Adds (init ++ [script]) (MadeFor c tx i items script) (newSignatures c tx i script (init ++ [script]) items) := by
  obtain ⟨new, hnew, hadds⟩ := signStack_eq c tx i items init script
  rw [signStack_new] at hnew
  rw [List.append_cancel_left (List.append_cancel_right hnew)]
  exact hadds

theorem signStack_nil : signStack c tx i items [] = [] := by
  unfold signStack
  refine foldl_inv (fun stack : Datas => stack = []) rfl ?_
  intro item _ stack hstack
  rw [hstack, datasLast_nil, isScriptKey_short (by decide)]
  rfl

/-! ## Sorting undoes the order -/

def acceptedBy (c : Crypto) (tx : Transaction) (i : Nat) (script pub sig : Data) : Bool :=
  verify c sig (transactionWitnessDigest c (tx.setScriptData i script) i) pub

/-- Two lists add the same signatures to a stack in the same order, or in orders that the
    keys of its script do not tell apart. -/
def SignedAlike (c : Crypto) (tx : Transaction) (i : Nat) (items items' stack : Datas) : Prop :=
  newSignatures c tx i (datasLast stack) stack items = newSignatures c tx i (datasLast stack) stack items' ∨
    SortedAlike (acceptedBy c tx i (datasLast stack)) (allPubKeys (datasLast stack)) stack.dropLast
      (newSignatures c tx i (datasLast stack) stack items) (newSignatures c tx i (datasLast stack) stack items')

/-- Two lists with the same keys leave the same stack, or stacks that are sorted alike. -/
theorem signStack_order (hset : ∀ item, item ∈ items ↔ item ∈ items') {stack : Datas}
    (halike : SignedAlike c tx i items items' stack) :
    signStack c tx i items stack = signStack c tx i items' stack ∨
      2 < (signStack c tx i items stack).length ∧
        (signStack c tx i items stack).length = (signStack c tx i items' stack).length ∧
        sortedStack c tx i (signStack c tx i items stack) = sortedStack c tx i (signStack c tx i items' stack) := by
  rcases List.eq_nil_or_concat stack with rfl | ⟨init, script, rfl⟩
  · left
    rw [signStack_nil, signStack_nil]
  rw [List.concat_eq_append] at halike ⊢
  unfold SignedAlike at halike
  rw [datasLast_concat, List.dropLast_concat] at halike
  have hadds := newSignatures_adds c tx i items init script
  have hadds' := newSignatures_adds c tx i items' init script
  rw [signStack_new, signStack_new]
  generalize newSignatures c tx i script (init ++ [script]) items = new at halike hadds ⊢
  generalize newSignatures c tx i script (init ++ [script]) items' = new' at halike hadds' ⊢
  rcases halike with rfl | halike
  · exact Or.inl rfl
  have hmade : ∀ s, MadeFor c tx i items' script s ↔ MadeFor c tx i items script s := by
    intro s
    simp only [MadeFor, hset]
  have hperm : new.Perm new' := by
    rw [List.perm_ext_iff_of_nodup hadds.nodup hadds'.nodup]
    intro s
    rw [hadds.mem, hadds'.mem, hmade]
  by_cases hshort : (init ++ new).length ≤ 1
  · left
    have hsame : new = new' := by
      rcases new with - | ⟨s, - | ⟨t, rest⟩⟩
      · exact hperm.nil_eq
      · exact (List.perm_singleton.mp hperm.symm).symm
      · simp only [List.length_append, List.length_cons] at hshort
        omega
    rw [hsame]
  · right
    have hlen := hperm.length_eq
    refine ⟨?_, ?_, ?_⟩
    · rw [List.length_append, List.length_singleton]
      omega
    · simp only [List.length_append, hlen]
    · unfold sortedStack
      rw [datasLast_concat, datasLast_concat, List.dropLast_concat, List.dropLast_concat]
      exact congrArg (· ++ [script]) (sortByKeys_congr hperm halike)

/-- Finalizing sees the stack through its sorted form only. -/
theorem finalInput_stack (x : TransactionInput) {stack stack' : Datas}
    (h : stack = stack' ∨ 2 < stack.length ∧ stack.length = stack'.length ∧
      sortedStack c tx i stack = sortedStack c tx i stack') :
    finalInput c tx i { x with witnessStack := stack } = finalInput c tx i { x with witnessStack := stack' } := by
  rcases h with rfl | ⟨hlong, hlen, hsorted⟩
  · rfl
  have hclear : ∀ s : Datas, clearScriptSig { x with witnessStack := s } = { clearScriptSig x with witnessStack := s } := by
    intro s
    unfold clearScriptSig
    have : transactionInputType { x with witnessStack := s } = transactionInputType x := rfl
    rw [this]
    split <;> rfl
  have hstash : ∀ s : Datas, stashed { x with witnessStack := s } = stashed x := fun _ => rfl
  unfold finalInput withScriptSigAside
  rw [hclear stack, hclear stack', hstash stack, hstash stack']
  have hinput : sortedInput c tx i { clearScriptSig x with witnessStack := stack } =
      sortedInput c tx i { clearScriptSig x with witnessStack := stack' } := by
    unfold sortedInput
    dsimp only
    have hlong' : 2 < stack'.length := hlen ▸ hlong
    rw [if_pos hlong, if_pos hlong', hsorted, hlen]
  rw [hinput]

/-! ## What depends on the order -/

/-- The keys that sign an input with a script sig in the first pass. -/
def signsDirect (c : Crypto) (input : TransactionInput) (item : Data) : Bool :=
  match transactionInputType input with
  | .payToPubkey => signsPubkey c input.fundingOutput.script item
  | .payToPubkeyHash => signsPubkeyHash c input.fundingOutput.script item
  | .payToScriptHash | .payToPubkeyWitness | .payToScriptWitness | .unknown => false

def redeemOf (c : Crypto) (items : Datas) (input : TransactionInput) : Data :=
  datasLast (readPushes (redeemScriptSig c items input))

/-- Two lists of the same items agree on what depends on order for input `i`. -/
structure SameOrder (c : Crypto) (tx : Transaction) (items items' : Datas) (i : Nat) (input : TransactionInput) : Prop where
  /-- The keys of a pay-to-pubkey script sign one after another. -/
  pubkey : transactionInputType input = .payToPubkey →
    directSigners tx i (signsDirect c input) items = directSigners tx i (signsDirect c input) items'
  pubkeyHash : transactionInputType input = .payToPubkeyHash →
    (directSigners tx i (signsDirect c input) items).getLast? = (directSigners tx i (signsDirect c input) items').getLast?
  /-- An input nobody signs may keep its funding script. -/
  unsigned : carriesScript input = true → input.scriptData = none → (∀ item ∈ items, signsDirect c input item = false) →
    endsDirty false items = endsDirty false items'
  keyHash : (items.filter (signsKeyHash c input.fundingOutput.script)).getLast? =
    (items'.filter (signsKeyHash c input.fundingOutput.script)).getLast?
  witnessScript : (items.filter (isWitnessScript c input.fundingOutput.script)).getLast? =
    (items'.filter (isWitnessScript c input.fundingOutput.script)).getLast?
  redeemScript : (items.filter (isRedeemScript c input.fundingOutput.script)).getLast? =
    (items'.filter (isRedeemScript c input.fundingOutput.script)).getLast?
  nestedScript : transactionInputType input = .payToScriptHash →
    (items.filter (isNestedScript c (redeemOf c items input))).getLast? =
      (items'.filter (isNestedScript c (redeemOf c items input))).getLast?
  nestedKey : (nestedKeys c items input).getLast? = (nestedKeys c items' input).getLast?
  /-- The keys of a bare redeem script sign one after another. -/
  redeemKeys : transactionInputType input = .payToScriptHash →
    redeemSigners c (redeemScriptSig c items input) false items = redeemSigners c (redeemScriptSig c items input) false items'
  redeemDigest : transactionInputType input = .payToScriptHash →
    redeemSigners c (redeemScriptSig c items input) false items ≠ [] → tx.inputs.any carriesScript = true →
    endsDirty false items = endsDirty false items'
  signatures : nestedKeys c items input = [] → SignedAlike c tx i items items' (stackBefore c tx items i input)

section

variable (hset : ∀ item, item ∈ items ↔ item ∈ items') (h : SameOrder c tx items items' i input)

include h

theorem SameOrder.redeemScriptSig : redeemScriptSig c items' input = redeemScriptSig c items input := by
  rw [redeemScriptSig_eq, redeemScriptSig_eq, h.redeemScript]

theorem SameOrder.stackBefore : stackBefore c tx items' i input = stackBefore c tx items i input := by
  unfold BitcoinSpoon.stackBefore
  rw [h.redeemScriptSig, h.keyHash, h.witnessScript]
  cases ht : transactionInputType input with
  | payToScriptHash =>
    dsimp only
    have hnested := h.nestedScript ht
    unfold redeemOf at hnested
    rw [hnested]
  | payToPubkey | payToPubkeyHash | payToPubkeyWitness | payToScriptWitness | unknown => rfl

/-- What a pay-to-pubkey input is left with. -/
theorem signedView_data_pubkey (ht : transactionInputType input = .payToPubkey) :
    (signedView c tx items i input).scriptSig.getD (carriedScript (endsDirty false items) input) =
      (signedView c tx items' i input).scriptSig.getD (carriedScript (endsDirty false items') input) := by
  have hnot : transactionInputType input ≠ .payToScriptHash := by rw [ht]; decide
  have hsigns : ∀ item, signsDirect c input item = signsPubkey c input.fundingOutput.script item := by
    intro item
    unfold signsDirect
    rw [ht]
  have hskip : ∀ digest item v, signsDirect c input item = false → viewDirect c tx digest item i input v = v :=
    fun digest item v hno => viewDirect_pubkey_skip ht (hsigns item ▸ hno)
  have hsame : (signedView c tx items i input).scriptSig = (signedView c tx items' i input).scriptSig := by
    rw [signedView_scriptSig hnot, signedView_scriptSig hnot, viewDirects_signers hskip, viewDirects_signers hskip,
      h.pubkey ht]
  rw [← hsame]
  cases hsig : (signedView c tx items i input).scriptSig with
  | some d => rfl
  | none =>
    have hcarries : carriesScript input = true := by simp [carriesScript, ht]
    rw [signedView_scriptSig hnot] at hsig
    obtain ⟨hstart, hnone⟩ := unsigned_of_viewDirects ht hsig
    have hdata : input.scriptData = none := scriptData_of_stashed (by rw [ht]; rfl) hstart
    simp only [← hsigns] at hnone
    rw [Option.getD_none, Option.getD_none, h.unsigned hcarries hdata hnone]

/-- What a pay-to-pubkey-hash input is left with. -/
theorem signedView_data_pubkeyHash (ht : transactionInputType input = .payToPubkeyHash) :
    (signedView c tx items i input).scriptSig.getD (carriedScript (endsDirty false items) input) =
      (signedView c tx items' i input).scriptSig.getD (carriedScript (endsDirty false items') input) := by
  have hnot : transactionInputType input ≠ .payToScriptHash := by rw [ht]; decide
  have hsigns : ∀ item, signsDirect c input item = signsPubkeyHash c input.fundingOutput.script item := by
    intro item
    unfold signsDirect
    rw [ht]
  have hlast : ∀ items : Datas, (signedView c tx items i input).scriptSig =
      ((directSigners tx i (signsDirect c input) items).getLast?.map fun p =>
        some (hashedKeyScriptSig c (signingDigest tx p.1 i) p.2 input.fundingOutput.script)).getD (stashed input) := by
    intro items
    rw [signedView_scriptSig hnot, viewDirects_after]
    refine foldl_last InputView.scriptSig ?_ ?_ (startView input)
    · intro v p hp
      exact viewDirect_pubkeyHash ht (hsigns p.2 ▸ hp)
    · intro v p hp
      rw [viewDirect_pubkeyHash_skip ht (hsigns p.2 ▸ hp)]
  rw [hlast, hlast, ← h.pubkeyHash ht]
  cases hp : (directSigners tx i (signsDirect c input) items).getLast? with
  | some p => rfl
  | none =>
    have hcarries : carriesScript input = true := by simp [carriesScript, ht]
    have hnone : ∀ item ∈ items, signsDirect c input item = false := by
      intro item hitem
      by_contra hsig
      obtain ⟨d, hmem⟩ := mem_directSigners tx i hitem (Bool.not_eq_false _ ▸ hsig)
      rw [List.getLast?_eq_none_iff.mp hp] at hmem
      cases hmem
    cases hd : stashed input with
    | some d => rfl
    | none =>
      have hdata : input.scriptData = none := scriptData_of_stashed (by rw [ht]; rfl) hd
      rw [Option.map_none, Option.getD_none, Option.getD_none, Option.getD_none, h.unsigned hcarries hdata hnone]

/-- What a pay-to-script-hash input is left with. -/
theorem signedView_data_scriptHash (ht : transactionInputType input = .payToScriptHash) :
    (signedView c tx items i input).scriptSig = (signedView c tx items' i input).scriptSig := by
  rw [signedView_redeem ht, signedView_redeem ht, h.redeemScriptSig, ← h.redeemKeys ht, h.redeemScript]
  by_cases hnil : redeemSigners c (BitcoinSpoon.redeemScriptSig c items input) false items = []
  · rw [hnil, List.foldl_nil, List.foldl_nil]
  · cases hcarries : tx.inputs.any carriesScript with
    | true => rw [h.redeemDigest ht hnil hcarries]
    | false => rw [redeemDigest_plain hcarries _ (endsDirty false items')]

/-- What an input is left with. -/
theorem signedView_data_order :
    (signedView c tx items i input).scriptSig.getD (carriedScript (endsDirty false items) input) =
      (signedView c tx items' i input).scriptSig.getD (carriedScript (endsDirty false items') input) := by
  by_cases hcarries : carriesScript input = true
  · cases ht : transactionInputType input with
    | payToPubkey => exact signedView_data_pubkey h ht
    | payToPubkeyHash => exact signedView_data_pubkeyHash h ht
    | payToScriptHash | payToPubkeyWitness | payToScriptWitness | unknown => simp [carriesScript, ht] at hcarries
  · have hscript : ∀ dirty dirty', carriedScript dirty input = carriedScript dirty' input := by
      intro dirty dirty'
      rw [carriedScript, carriedScript, if_neg hcarries, if_neg hcarries]
    have hsig : (signedView c tx items i input).scriptSig = (signedView c tx items' i input).scriptSig := by
      by_cases ht : transactionInputType input = .payToScriptHash
      · exact signedView_data_scriptHash h ht
      · have hlegacy : (transactionInputType input).isLegacy = false := by
          unfold carriesScript at hcarries
          cases h : transactionInputType input <;> simp_all [TransactionInputType.isLegacy]
        rw [signedView_scriptSig ht, signedView_scriptSig ht, scriptSig_viewDirects_witness hlegacy,
          scriptSig_viewDirects_witness hlegacy]
    rw [hsig, hscript _ (endsDirty false items')]

include hset

/-- The stacks of the two runs. -/
theorem signedView_stack_order :
    (signedView c tx items i input).witnessStack = (signedView c tx items' i input).witnessStack ∨
      2 < (signedView c tx items i input).witnessStack.length ∧
        (signedView c tx items i input).witnessStack.length = (signedView c tx items' i input).witnessStack.length ∧
        sortedStack c tx i (signedView c tx items i input).witnessStack =
          sortedStack c tx i (signedView c tx items' i input).witnessStack := by
  rw [signedView_witnessStack, signedView_witnessStack, ← h.nestedKey, h.stackBefore]
  cases hlast : (nestedKeys c items input).getLast? with
  | some key => exact Or.inl rfl
  | none => exact signStack_order hset (h.signatures (List.getLast?_eq_none_iff.mp hlast))

theorem finalInput_order :
    finalInput c tx i (signedInput c tx items i input) = finalInput c tx i (signedInput c tx items' i input) := by
  unfold signedInput
  rw [signedView_data_order h]
  exact finalInput_stack
    { input with scriptData := (signedView c tx items' i input).scriptSig.getD (carriedScript (endsDirty false items') input) }
    (signedView_stack_order hset h)

end

/-- Two lists of the same items that agree on what depends on order sign alike. -/
theorem transactionSign_order (hset : ∀ item, item ∈ items ↔ item ∈ items')
    (h : ∀ k x, tx.inputs[k]? = some x → SameOrder c tx items items' k x) :
    (transactionSign c tx items).map (fun r => transactionData r.1) =
      (transactionSign c tx items').map fun r => transactionData r.1 := by
  have hiff : ∀ tx', (∃ affected, transactionSign c tx items = some (tx', affected)) ↔
      ∃ affected, transactionSign c tx items' = some (tx', affected) := by
    intro tx'
    simp only [transactionSign_iff, exists_and_left, exists_eq, and_true]
    apply mapped_congr
    intro k x hx
    exact finalInput_order hset (h k x hx)
  cases hrun : transactionSign c tx items with
  | none =>
    cases hrun' : transactionSign c tx items' with
    | none => rfl
    | some r =>
      obtain ⟨affected, hsome⟩ := (hiff r.1).mpr ⟨r.2, hrun'⟩
      rw [hrun] at hsome
      cases hsome
  | some r =>
    obtain ⟨affected, hsome⟩ := (hiff r.1).mp ⟨r.2, hrun⟩
    rw [hsome]
    rfl

/-! ## Order and repetition on fixed inputs -/

/-- One input that pays to the key of `signerKey 1`. -/
def pubkeyTransaction : Transaction where
  version := 2
  inputs := [{
    fundingOutput := ⟨some (scriptPush (pubKey plainCrypto (signerKey 1)) ++ [UInt8.ofNat OP_CHECKSIG]), 1000⟩
    previousTransactionHash := some (List.replicate 32 7), outputIndex := 0, scriptData := none, sequence := 0
    witnessStack := [], witnessFlag := 0 }]
  outputs := [⟨some [0x51], 900⟩]
  locktime := 0

/-- A key that is listed twice signs a pay-to-pubkey input twice. -/
theorem not_transactionSign_order :
    ¬ ∀ (c : Crypto) (tx : Transaction) (items items' : Datas), (∀ item, item ∈ items ↔ item ∈ items') →
      (transactionSign c tx items).map (fun r => transactionData r.1) =
        (transactionSign c tx items').map fun r => transactionData r.1 := by
  intro h
  have hsame := h plainCrypto pubkeyTransaction [signerKey 1] [signerKey 1, signerKey 1] (by simp)
  revert hsame
  decide +kernel

theorem sameOrder_twoKey :
    SameOrder plainCrypto (twoKeyTransaction [twoKeyScript]) [signerKey 1, signerKey 2]
      [signerKey 2, signerKey 1, signerKey 2] 0 (twoKeyInput [twoKeyScript]) where
  pubkey ht := absurd ht (by decide +kernel)
  pubkeyHash ht := absurd ht (by decide +kernel)
  unsigned ht := absurd ht (by decide +kernel)
  keyHash := by decide +kernel
  witnessScript := by decide +kernel
  redeemScript := by decide +kernel
  nestedScript ht := absurd ht (by decide +kernel)
  nestedKey := by decide +kernel
  redeemKeys ht := absurd ht (by decide +kernel)
  redeemDigest ht := absurd ht (by decide +kernel)
  signatures _ := Or.inr (by decide +kernel)

theorem transactionSign_order_twoKey :
    (transactionSign plainCrypto (twoKeyTransaction [twoKeyScript]) [signerKey 1, signerKey 2]).map
        (fun r => transactionData r.1) =
      (transactionSign plainCrypto (twoKeyTransaction [twoKeyScript]) [signerKey 2, signerKey 1, signerKey 2]).map
        fun r => transactionData r.1 := by
  apply transactionSign_order
  · intro item
    simp only [List.mem_cons, List.not_mem_nil, or_false]
    constructor
    · intro h
      rcases h with h | h
      · exact Or.inr (Or.inl h)
      · exact Or.inl h
    · intro h
      rcases h with h | h | h
      · exact Or.inr h
      · exact Or.inl h
      · exact Or.inr h
  · intro k x hx
    cases k with
    | zero =>
      obtain rfl := Option.some.inj hx
      exact sameOrder_twoKey
    | succ k => cases hx

end BitcoinSpoon
