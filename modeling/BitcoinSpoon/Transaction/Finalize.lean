/-
  BitcoinSpoon.Transaction.Finalize — sorting, the extra CHECKMULTISIG elements, and the
  whole of `TransactionSign`, read input by input.

  `TransactionFinalize` sorts every stack and then puts the extra elements in. Both set
  the legacy script sigs aside first and put them back at the end, and both treat an input
  on its own: `finalInput`. With the run of the passes (`signPasses_run`) a call that
  returns has replaced every input by a function of that input (`transactionSign_iff`).
-/

import BitcoinSpoon.Transaction.PerInput

namespace BitcoinSpoon

open Wire Loop

/-! ## Transactions replaced input by input -/

/-- `tx'` is `tx` with every input `k` replaced by what `f k` makes of it. -/
structure Mapped (f : Nat → TransactionInput → Option TransactionInput) (tx tx' : Transaction) : Prop where
  version : tx'.version = tx.version
  outputs : tx'.outputs = tx.outputs
  locktime : tx'.locktime = tx.locktime
  inputs : EachBy f tx.inputs tx'.inputs

section

variable {f g : Nat → TransactionInput → Option TransactionInput} {tx tx' : Transaction}

theorem Mapped.unique {tx'' : Transaction} (h : Mapped f tx tx') (h' : Mapped f tx tx'') : tx' = tx'' := by
  ext1
  · rw [h.version, h'.version]
  · exact h.inputs.unique h'.inputs
  · rw [h.outputs, h'.outputs]
  · rw [h.locktime, h'.locktime]

theorem mapped_congr (h : ∀ k x, tx.inputs[k]? = some x → f k x = g k x) : Mapped f tx tx' ↔ Mapped g tx tx' := by
  have hin : EachBy f tx.inputs tx'.inputs ↔ EachBy g tx.inputs tx'.inputs := eachBy_congr h
  constructor
  · intro hf
    exact ⟨hf.version, hf.outputs, hf.locktime, hin.mp hf.inputs⟩
  · intro hg
    exact ⟨hg.version, hg.outputs, hg.locktime, hin.mpr hg.inputs⟩

theorem mapped_bind :
    Mapped (fun k x => (f k x).bind (g k)) tx tx' ↔ ∃ t, Mapped f tx t ∧ Mapped g t tx' := by
  constructor
  · intro h
    obtain ⟨inputs, hf, hg⟩ := eachBy_bind.mp h.inputs
    exact ⟨{ tx with inputs }, ⟨rfl, rfl, rfl, hf⟩, ⟨h.version, h.outputs, h.locktime, hg⟩⟩
  · intro ⟨t, hf, hg⟩
    exact ⟨hg.version.trans hf.version, hg.outputs.trans hf.outputs, hg.locktime.trans hf.locktime,
      eachBy_bind.mpr ⟨t.inputs, hf.inputs, hg.inputs⟩⟩

theorem mapped_some {f : Nat → TransactionInput → TransactionInput} :
    Mapped (fun k x => some (f k x)) tx tx' ↔ { tx with inputs := tx.inputs.mapIdx f } = tx' := by
  constructor
  · intro h
    ext1
    · exact h.version.symm
    · exact (eachBy_some.mp h.inputs).symm
    · exact h.outputs.symm
    · exact h.locktime.symm
  · intro h
    subst h
    exact ⟨rfl, rfl, rfl, eachBy_some.mpr rfl⟩

theorem mapped_self : Mapped (fun _ x => some x) tx tx' ↔ tx = tx' := by
  have hid : tx.inputs.mapIdx (fun _ x => x) = tx.inputs := by
    apply List.ext_getElem?
    intro k
    rw [List.getElem?_mapIdx]
    cases tx.inputs[k]? <;> rfl
  rw [mapped_some, hid]

/-- A replacement that writes script data and stacks only. -/
theorem Mapped.core (h : Mapped f tx tx') (hf : ∀ k x y, f k x = some y → y.core = x.core) : tx'.core = tx.core := by
  rw [core_eq_iff]
  refine ⟨h.version, h.outputs, h.locktime, fun k => ?_⟩
  cases hx : tx.inputs[k]? with
  | none => rw [h.inputs.get_none hx]
  | some x =>
    obtain ⟨y, hy, hxy⟩ := h.inputs.get hx
    rw [hy, Option.map_some, Option.map_some, hf k x y hxy]

end

/-! ## One input -/

variable (c : Crypto) (tx : Transaction)

/-- `sortSignatures` on one input. -/
def sortedInput (i : Nat) (input : TransactionInput) : Option TransactionInput :=
  if 2 < input.witnessStack.length then
    if (sortedStack c tx i input.witnessStack).length = input.witnessStack.length then
      some { input with witnessStack := sortedStack c tx i input.witnessStack }
    else none
  else if 2 < (transactionInputScriptStack input).length then none
  else some input

/-- With the script sig of a legacy input set aside meanwhile. -/
def withScriptSigAside (f : TransactionInput → Option TransactionInput) (input : TransactionInput) :
    Option TransactionInput :=
  (f (clearScriptSig input)).map (restoredBy (stashed input))

/-- `TransactionFinalize` on one input. -/
def finalInput (i : Nat) (input : TransactionInput) : Option TransactionInput :=
  (withScriptSigAside (sortedInput c tx i) input).bind (withScriptSigAside correctInput)

/-- The three passes of `TransactionSign` on one input. -/
def signedInput (items : Datas) (i : Nat) (input : TransactionInput) : TransactionInput :=
  { input with
    witnessStack := (signedView c tx items i input).witnessStack
    scriptData := (signedView c tx items i input).scriptSig.getD (carriedScript (endsDirty false items) input) }

variable {c tx} {i : Nat}

/-! ## Setting script sigs aside -/

theorem mapped_clearScriptSigs {t : Transaction} : Mapped (fun _ x => some (clearScriptSig x)) tx t ↔ clearScriptSigs tx = t := by
  rw [mapped_some, clearScriptSigs]
  have : tx.inputs.mapIdx (fun _ x => clearScriptSig x) = tx.inputs.map clearScriptSig := by
    apply List.ext_getElem?
    intro k
    rw [List.getElem?_mapIdx, List.getElem?_map]
  rw [this]

theorem mapped_restoreScriptSigs {d : Dictionary Nat} {t t' : Transaction}
    (hd : ∀ k, dictionaryFind d k ≠ none → k < t.inputs.length) :
    restoreScriptSigs d t = some t' ↔ Mapped (fun k x => some (restoredBy (dictionaryFind d k) x)) t t' := by
  rw [restoreScriptSigs_eq hd, mapped_some, Option.some.injEq]

theorem stash_keys (tx : Transaction) (k : Nat) (h : dictionaryFind (stashScriptSigs tx) k ≠ none) :
    k < tx.inputs.length := by
  rw [find_stash] at h
  by_contra hk
  rw [List.getElem?_eq_none (Nat.le_of_not_lt hk)] at h
  exact h rfl

/-- Clearing, a replacement and restoring is the replacement with the script sig aside. -/
theorem mapped_withScriptSigAside {f : Nat → TransactionInput → Option TransactionInput} {tx' : Transaction} :
    (∃ t, Mapped f (clearScriptSigs tx) t ∧ restoreScriptSigs (stashScriptSigs tx) t = some tx') ↔
      Mapped (fun k => withScriptSigAside (f k)) tx tx' := by
  have hsplit : Mapped (fun k => withScriptSigAside (f k)) tx tx' ↔
      Mapped (fun k x => ((some (clearScriptSig x)).bind (f k)).bind
        fun y => some (restoredBy (dictionaryFind (stashScriptSigs tx) k) y)) tx tx' := by
    apply mapped_congr
    intro k x hx
    rw [find_stash, hx, withScriptSigAside, Option.bind_some, Option.bind_some, Option.map_eq_bind]
    rfl
  rw [hsplit, mapped_bind]
  constructor
  · rintro ⟨t, hf, hrestore⟩
    have hlen : t.inputs.length = tx.inputs.length := by
      rw [hf.inputs.length, clearScriptSigs, List.length_map]
    refine ⟨t, mapped_bind.mpr ⟨_, mapped_clearScriptSigs.mpr rfl, hf⟩, ?_⟩
    exact (mapped_restoreScriptSigs fun k hk => hlen ▸ stash_keys tx k hk).mp hrestore
  · rintro ⟨t, hclear, hrestore⟩
    obtain ⟨t', ht', hf⟩ := mapped_bind.mp hclear
    obtain rfl := mapped_clearScriptSigs.mp ht'
    have hlen : t.inputs.length = tx.inputs.length := by
      rw [hf.inputs.length, clearScriptSigs, List.length_map]
    exact ⟨t, hf, (mapped_restoreScriptSigs fun k hk => hlen ▸ stash_keys tx k hk).mpr hrestore⟩

/-! ## Sorting -/

theorem sortedStack_congr {a b : Transaction} (h : a.core = b.core) (i : Nat) (stack : Datas) :
    sortedStack c a i stack = sortedStack c b i stack := by
  unfold sortedStack
  dsimp only
  rw [witnessDigest_congr c h]

theorem sortedInput_congr {a b : Transaction} (h : a.core = b.core) (i : Nat) (input : TransactionInput) :
    sortedInput c a i input = sortedInput c b i input := by
  unfold sortedInput
  rw [sortedStack_congr h]

theorem core_sortedInput {x y : TransactionInput} (h : sortedInput c tx i x = some y) : y.core = x.core := by
  unfold sortedInput at h
  split at h
  · split at h
    · obtain rfl := Option.some.inj h
      rfl
    · cases h
  · split at h
    · cases h
    · obtain rfl := Option.some.inj h
      rfl

/-- One round of the loop, when it finds the stack in order. -/
theorem sortInput_iff {t t' : Transaction} (hcore : t.core = tx.core) :
    sortInput c i t = some (t', true) ↔ Mapped (fun k x => if k = i then sortedInput c tx i x else some x) t t' := by
  have hself : (∀ x, t.inputs[i]? = some x → sortedInput c tx i x = some x) →
      (Mapped (fun k x => if k = i then sortedInput c tx i x else some x) t t' ↔ t = t') := by
    intro hsame
    have hmap : Mapped (fun k x => if k = i then sortedInput c tx i x else some x) t t' ↔
        Mapped (fun _ x => some x) t t' := by
      apply mapped_congr
      intro k x hx
      split
      · rename_i hk
        exact hsame x (hk ▸ hx)
      · rfl
    rw [hmap, mapped_self]
  have hfail : ∀ {x : TransactionInput}, t.inputs[i]? = some x → sortedInput c tx i x = none →
      ¬ Mapped (fun k x => if k = i then sortedInput c tx i x else some x) t t' := by
    intro x hx hnone h
    obtain ⟨y, -, hy⟩ := h.inputs.get hx
    rw [if_pos rfl, hnone] at hy
    cases hy
  unfold sortInput
  cases hx : t.inputs[i]? with
  | none =>
    rw [hself (by intro x hx'; rw [hx] at hx'; cases hx')]
    simp
  | some x =>
    dsimp only
    rw [sortedStack_congr hcore]
    by_cases hlong : 2 < x.witnessStack.length
    · rw [if_pos hlong]
      by_cases hlen : (sortedStack c tx i x.witnessStack).length = x.witnessStack.length
      · rw [if_pos hlen]
        have hsorted : sortedInput c tx i x = some { x with witnessStack := sortedStack c tx i x.witnessStack } := by
          rw [sortedInput, if_pos hlong, if_pos hlen]
        have hmap : Mapped (fun k x => if k = i then sortedInput c tx i x else some x) t
            (t.setWitnessStack i (sortedStack c tx i x.witnessStack)) := by
          refine ⟨rfl, rfl, rfl, fun k => ?_⟩
          rw [Transaction.setWitnessStack, getElem?_modifyInput]
          by_cases hk : i = k
          · subst hk
            rw [if_pos rfl, hx]
            simp only [Option.map_some, if_true, hsorted]
          · rw [if_neg hk]
            simp only [Ne.symm hk, if_false]
        constructor
        · intro h
          obtain rfl := (Prod.mk.inj (Option.some.inj h)).1
          exact hmap
        · intro h
          rw [hmap.unique h]
      · rw [if_neg hlen]
        have := hfail hx (by rw [sortedInput, if_pos hlong, if_neg hlen])
        simp [this]
    · rw [if_neg hlong]
      by_cases hstack : 2 < (transactionInputScriptStack x).length
      · rw [if_pos hstack]
        have := hfail hx (by rw [sortedInput, if_neg hlong, if_pos hstack])
        simp [this]
      · rw [if_neg hstack, hself]
        · simp
        · intro x' hx'
          obtain rfl := Option.some.inj (hx.symm.trans hx')
          rw [sortedInput, if_neg hlong, if_neg hstack]

theorem sortInputs_iff {l : List Nat} (hl : l.Nodup) {t t' : Transaction} (hcore : t.core = tx.core) :
    sortInputs c l t = some (t', true) ↔ Mapped (fun k x => if k ∈ l then sortedInput c tx k x else some x) t t' := by
  induction l generalizing t with
  | nil =>
    simp only [List.not_mem_nil, if_false, mapped_self, sortInputs]
    simp
  | cons i l ih =>
    rw [List.nodup_cons] at hl
    have hstep : sortInputs c (i :: l) t = some (t', true) ↔
        ∃ t₁, sortInput c i t = some (t₁, true) ∧ sortInputs c l t₁ = some (t', true) := by
      rw [sortInputs]
      rcases sortInput c i t with - | ⟨t₁, sorted⟩
      · simp
      · dsimp only
        cases hrest : sortInputs c l t₁ with
        | none => cases sorted <;> simp [hrest]
        | some r =>
          obtain ⟨t₂, all⟩ := r
          cases sorted <;> simp [hrest]
    have hsplit : Mapped (fun k x => if k ∈ i :: l then sortedInput c tx k x else some x) t t' ↔
        Mapped (fun k x => (if k = i then sortedInput c tx i x else some x).bind
          fun y => if k ∈ l then sortedInput c tx k y else some y) t t' := by
      apply mapped_congr
      intro k x _
      by_cases hk : k = i
      · subst hk
        rw [if_pos List.mem_cons_self, if_pos rfl]
        simp only [hl.1, if_false]
        cases sortedInput c tx k x <;> rfl
      · rw [if_neg hk, Option.bind_some]
        simp only [List.mem_cons, hk, false_or]
    rw [hstep, hsplit, mapped_bind]
    have hnext : ∀ t₁, Mapped (fun k x => if k = i then sortedInput c tx i x else some x) t t₁ → t₁.core = tx.core := by
      intro t₁ h
      refine (h.core fun k x y hxy => ?_).trans hcore
      split at hxy
      · exact core_sortedInput hxy
      · rw [Option.some.inj hxy]
    constructor
    · intro ⟨t₁, h₁, h₂⟩
      have hm := (sortInput_iff hcore).mp h₁
      exact ⟨t₁, hm, (ih hl.2 (hnext t₁ hm)).mp h₂⟩
    · intro ⟨t₁, hm, h₂⟩
      exact ⟨t₁, (sortInput_iff hcore).mpr hm, (ih hl.2 (hnext t₁ hm)).mpr h₂⟩

theorem sortSignatures_iff {tx' : Transaction} :
    sortSignatures c tx = some (tx', true) ↔ Mapped (fun k => withScriptSigAside (sortedInput c tx k)) tx tx' := by
  have hsort : ∀ t, sortInputs c (List.range tx.inputs.length) (clearScriptSigs tx) = some (t, true) ↔
      Mapped (sortedInput c tx) (clearScriptSigs tx) t := by
    intro t
    rw [sortInputs_iff List.nodup_range (core_clearScriptSigs tx)]
    apply mapped_congr
    intro k x hx
    have hk : k < tx.inputs.length := by
      have := (List.getElem?_eq_some_iff.mp hx).1
      rwa [clearScriptSigs, List.length_map] at this
    rw [if_pos (List.mem_range.mpr hk)]
  rw [← mapped_withScriptSigAside]
  simp only [← hsort]
  unfold sortSignatures
  cases hrun : sortInputs c (List.range tx.inputs.length) (clearScriptSigs tx) with
  | none => simp
  | some r =>
    obtain ⟨t, sorted⟩ := r
    cases sorted <;> simp

/-! ## The extra elements -/

/-- The witness stack `correctInput` leaves. -/
def correctedStack (stack : Datas) : Option Datas :=
  if 1 < stack.length then correctMultisigSignaturesInStack stack else some stack

/-- The script data `correctInput` leaves. -/
def correctedScriptData (input : TransactionInput) : Option Data :=
  if 1 < (transactionInputScriptStack input).length then
    (correctMultisigSignaturesInStack (transactionInputScriptStack input)).map fun stack => some (writePushes stack)
  else some input.scriptData

theorem correctInput_eq_some_iff {x y : TransactionInput} :
    correctInput x = some y ↔ ∃ witnessStack scriptData, correctedStack x.witnessStack = some witnessStack ∧
      correctedScriptData x = some scriptData ∧ { x with witnessStack, scriptData } = y := by
  unfold correctInput correctedStack correctedScriptData
  by_cases hstack : 1 < x.witnessStack.length <;>
    by_cases hscript : 1 < (transactionInputScriptStack x).length <;>
      simp [hstack, hscript, Option.bind_eq_some_iff]

theorem correctMultisigSignatures_iff {tx' : Transaction} :
    correctMultisigSignatures tx = some tx' ↔ Mapped (fun _ => withScriptSigAside correctInput) tx tx' := by
  rw [← mapped_withScriptSigAside]
  have hmap : ∀ t, Mapped (fun _ => correctInput) (clearScriptSigs tx) t ↔
      ∃ inputs, (clearScriptSigs tx).inputs.mapM correctInput = some inputs ∧ { tx with inputs } = t := by
    intro t
    simp only [mapM_eq_some_iff]
    constructor
    · intro h
      refine ⟨t.inputs, h.inputs, ?_⟩
      ext1
      · exact h.version.symm
      · rfl
      · exact h.outputs.symm
      · exact h.locktime.symm
    · intro ⟨inputs, hinputs, h⟩
      subst h
      exact ⟨rfl, rfl, rfl, hinputs⟩
  simp only [hmap]
  rw [correctMultisigSignatures, Option.bind_eq_bind, Option.bind_eq_some_iff]
  constructor
  · intro ⟨inputs, hinputs, h⟩
    exact ⟨_, ⟨inputs, hinputs, rfl⟩, h⟩
  · intro ⟨t, ⟨inputs, hinputs, ht⟩, h⟩
    subst ht
    exact ⟨inputs, hinputs, h⟩

/-! ## The whole call -/

theorem core_withScriptSigAside {f : TransactionInput → Option TransactionInput} {x y : TransactionInput}
    (hf : ∀ x y, f x = some y → y.core = x.core) (h : withScriptSigAside f x = some y) : y.core = x.core := by
  obtain ⟨z, hz, h⟩ := Option.map_eq_some_iff.mp h
  have hrestored : (restoredBy (stashed x) z).core = z.core := by
    unfold restoredBy
    split <;> rfl
  rw [← h, hrestored, hf _ _ hz, core_clearScriptSig]

theorem transactionFinalize_iff {tx' : Transaction} :
    transactionFinalize c tx = some (tx', true) ↔ Mapped (finalInput c tx) tx tx' := by
  have hsplit : Mapped (finalInput c tx) tx tx' ↔
      Mapped (fun k x => (withScriptSigAside (sortedInput c tx k) x).bind (withScriptSigAside correctInput)) tx tx' :=
    Iff.rfl
  rw [hsplit, mapped_bind, transactionFinalize, Option.bind_eq_bind, Option.bind_eq_some_iff]
  constructor
  · intro ⟨r, hsort, h⟩
    obtain ⟨t, sorted⟩ := r
    obtain ⟨t', hcorrect, h⟩ := Option.bind_eq_some_iff.mp h
    obtain ⟨rfl, rfl⟩ := Prod.mk.inj (Option.some.inj h)
    exact ⟨t, sortSignatures_iff.mp hsort, correctMultisigSignatures_iff.mp hcorrect⟩
  · intro ⟨t, hsort, hcorrect⟩
    refine ⟨(t, true), sortSignatures_iff.mpr hsort, ?_⟩
    dsimp only
    rw [Option.bind_eq_bind, correctMultisigSignatures_iff.mpr hcorrect]
    rfl

theorem finalInput_congr {a b : Transaction} (h : a.core = b.core) (i : Nat) (input : TransactionInput) :
    finalInput c a i input = finalInput c b i input := by
  unfold finalInput withScriptSigAside
  rw [sortedInput_congr h]

/-- What `TransactionSign` has before it finalizes. -/
theorem restoreScriptSigs_signPasses (c : Crypto) (tx : Transaction) (items : Datas) :
    restoreScriptSigs (signPasses c tx items).scriptSigs (signPasses c tx items).transaction =
      some { tx with inputs := tx.inputs.mapIdx (signedInput c tx items) } := by
  have hrun := signPasses_run c tx items
  obtain ⟨hv, ho, hl, -⟩ := core_eq_iff.mp hrun.core
  rw [restoreScriptSigs_eq fun k hk => (core_length hrun.core).symm ▸ hrun.inputs hk]
  congr 1
  ext1
  · exact hv
  · apply List.ext_getElem?
    intro k
    rw [List.getElem?_mapIdx, List.getElem?_mapIdx]
    cases hin : tx.inputs[k]? with
    | none =>
      have hk : (signPasses c tx items).transaction.inputs[k]? = none := by
        apply List.getElem?_eq_none
        rw [core_length hrun.core]
        exact List.getElem?_eq_none_iff.mp hin
      rw [hk]
      rfl
    | some input =>
      obtain ⟨x, hx, hcore⟩ := core_input hrun.core.symm hin
      have hk := (List.getElem?_eq_some_iff.mp hin).1
      have hview := hrun.views k input hin
      have hstack := witnessStack_viewAt hx
      have hsig : dictionaryFind (signPasses c tx items).scriptSigs k = (signedView c tx items k input).scriptSig := by
        rw [← hview]
        rfl
      have hscript : x.scriptData = carriedScript (endsDirty false items) input := by
        have := hrun.scripts k hk
        rw [carriedScripts_here hin, if_neg (Nat.not_lt_zero k), scriptAt, hx] at this
        exact this
      rw [hview] at hstack
      rw [hx, Option.map_some, Option.map_some, hsig, signedInput, ← hstack]
      congr 1
      simp only [TransactionInput.core, TransactionInput.mk.injEq] at hcore
      unfold restoredBy
      cases (signedView c tx items k input).scriptSig with
      | none =>
        obtain ⟨hf, hp, ho, -, hq, -, hw⟩ := hcore
        dsimp only [Option.getD_none]
        rw [hf, hp, ho, hq, hw, ← hscript]
      | some d => simp [hcore]
  · exact ho
  · exact hl

/-- A call that returns has replaced every input by a function of it. -/
theorem transactionSign_iff {items : Datas} {tx' : Transaction} {affected : List Nat} :
    transactionSign c tx items = some (tx', affected) ↔
      Mapped (fun k x => finalInput c tx k (signedInput c tx items k x)) tx tx' ∧
        affected = trimDuplicateInstances (signPasses c tx items).result := by
  have hcore : ({ tx with inputs := tx.inputs.mapIdx (signedInput c tx items) } : Transaction).core = tx.core := by
    have hmap : Mapped (fun k x => some (signedInput c tx items k x)) tx
        { tx with inputs := tx.inputs.mapIdx (signedInput c tx items) } := mapped_some.mpr rfl
    apply hmap.core
    intro k x y h
    obtain rfl := Option.some.inj h
    rfl
  have hsplit : Mapped (fun k x => finalInput c tx k (signedInput c tx items k x)) tx tx' ↔
      transactionFinalize c { tx with inputs := tx.inputs.mapIdx (signedInput c tx items) } = some (tx', true) := by
    have hbind : Mapped (fun k x => finalInput c tx k (signedInput c tx items k x)) tx tx' ↔
        Mapped (fun k x => (some (signedInput c tx items k x)).bind (finalInput c tx k)) tx tx' := Iff.rfl
    rw [hbind, mapped_bind, transactionFinalize_iff]
    simp only [mapped_some, exists_eq_left']
    apply mapped_congr
    intro k x _
    exact (finalInput_congr hcore k x).symm
  rw [hsplit, transactionSign, restoreScriptSigs_signPasses, Option.bind_eq_bind, Option.bind_some, Option.bind_eq_bind]
  cases transactionFinalize c { tx with inputs := tx.inputs.mapIdx (signedInput c tx items) } with
  | none => simp
  | some r =>
    obtain ⟨t, sorted⟩ := r
    rw [Option.bind_some]
    cases sorted with
    | false => simp
    | true => simp only [if_true, Option.some.injEq, Prod.mk.injEq, and_true, eq_comm]

end BitcoinSpoon
