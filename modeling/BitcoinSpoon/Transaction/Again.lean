/-
  BitcoinSpoon.Transaction.Again — finalizing what has been finalized.

  `sortSignatures` keeps a stack only when every element in front of the script was
  accepted by a key. The empty element that `TransactionCorrectMultisigSignatures` puts in
  front of the signatures of a CHECKMULTISIG is accepted by none, so the next call of
  `TransactionFinalize` refuses the stack and `TransactionSign` aborts on it; a script sig
  that got one has three elements, and `sortSignatures` aborts by itself.

  `transactionFinalize_self_iff` says which transactions `TransactionFinalize` leaves as
  they are. Of a transaction it returned they are those whose signatures the keys of the
  script find where they look for them: one in front, none behind the second (`StaysFinal`).
  `TransactionSign` returns on a transaction it returned exactly where the keys leave none
  of the signatures over that stand in a stack then (`SignsAgain`).
-/

import BitcoinSpoon.Transaction.Order

namespace BitcoinSpoon

open Wire

variable {c : Crypto} {tx tx' : Transaction} {i : Nat} {input x y : TransactionInput}

/-! ## Pushes that are written and read back -/

theorem scriptStackFrom_succ (rounds : Nat) (script : Bytes) :
    scriptStackFrom (rounds + 1) script =
      if script = [] then []
      else
        (readBytes (readPushData script).1 (readPushData script).2).1 ::
          scriptStackFrom rounds (readBytes (readPushData script).1 (readPushData script).2).2 := rfl

theorem length_lt_of_mem_scriptStack {d : Data} (h : d ∈ transactionInputScriptStack input) : d.length < 2 ^ 32 := by
  unfold transactionInputScriptStack at h
  generalize input.scriptData.length = rounds at h
  generalize input.scriptData.toBytes = b at h
  induction rounds generalizing b with
  | zero => cases h
  | succ rounds ih =>
    rw [scriptStackFrom_succ] at h
    split at h
    · cases h
    · have hlt := readPushData_lt b
      rcases List.mem_cons.mp h with rfl | h
      · unfold readBytes readBytesUnsafe readRaw
        split
        · exact Nat.lt_of_le_of_lt (List.length_take_le _ _) hlt
        · decide
      · exact ih _ h

/-- The pushes with a NULL read as an empty one. -/
def reread (items : Datas) : Datas := items.map fun d => some d.toBytes

theorem length_reread (items : Datas) : (reread items).length = items.length := List.length_map _

theorem writePushes_reread (items : Datas) : writePushes (reread items) = writePushes items := by
  rw [writePushes, reread, List.flatMap_map]
  rfl

theorem datasLast_reread (items : Datas) : (datasLast (reread items)).toBytes = (datasLast items).toBytes := by
  rcases List.eq_nil_or_concat items with rfl | ⟨init, last, rfl⟩
  · rfl
  · rw [List.concat_eq_append, reread, List.map_append, List.map_singleton, datasLast_concat, datasLast_concat]
    rfl

theorem scriptStack_written {items : Datas} (h : ∀ d ∈ items, d.length < 2 ^ 32)
    (hdata : input.scriptData = some (writePushes items)) : transactionInputScriptStack input = reread items := by
  rw [transactionInputScriptStack, hdata]
  exact scriptStackFrom_writePushes h (Nat.le_refl _)

/-! ## One input -/

/-- The pushes of the script sig as both steps see them: none for a legacy input, whose
    script sig is set aside. -/
def pushesAside (input : TransactionInput) : Datas := transactionInputScriptStack (clearScriptSig input)

/-- The witness stack the sorting leaves. -/
def sortedAside (c : Crypto) (tx : Transaction) (i : Nat) (input : TransactionInput) : Option Datas :=
  if 2 < input.witnessStack.length then
    if (sortedStack c tx i input.witnessStack).length = input.witnessStack.length then
      some (sortedStack c tx i input.witnessStack)
    else none
  else if 2 < (pushesAside input).length then none
  else some input.witnessStack

/-- The script data the extra elements leave. -/
def correctedAside (input : TransactionInput) : Option Data :=
  if 1 < (pushesAside input).length then
    (correctMultisigSignaturesInStack (pushesAside input)).map fun stack => some (writePushes stack)
  else some input.scriptData

theorem clearScriptSig_of_legacy (h : (transactionInputType x).isLegacy = true) :
    clearScriptSig x = { x with scriptData := none } := if_pos h

theorem clearScriptSig_of_not_legacy (h : ¬ (transactionInputType x).isLegacy = true) : clearScriptSig x = x := if_neg h

theorem pushesAside_of_legacy (h : (transactionInputType x).isLegacy = true) : pushesAside x = [] := by
  rw [pushesAside, clearScriptSig_of_legacy h]
  rfl

theorem pushesAside_of_not_legacy (h : ¬ (transactionInputType x).isLegacy = true) :
    pushesAside x = transactionInputScriptStack x := by
  rw [pushesAside, clearScriptSig_of_not_legacy h]

/-- The witness stack plays no part in it. -/
theorem pushesAside_witnessStack (x : TransactionInput) (witnessStack : Datas) :
    pushesAside { x with witnessStack } = pushesAside x := by
  by_cases hlegacy : (transactionInputType x).isLegacy = true
  · rw [pushesAside_of_legacy hlegacy, pushesAside_of_legacy (x := { x with witnessStack }) hlegacy]
  · rw [pushesAside_of_not_legacy hlegacy, pushesAside_of_not_legacy (x := { x with witnessStack }) hlegacy]
    rfl

theorem correctedAside_witnessStack (x : TransactionInput) (witnessStack : Datas) :
    correctedAside { x with witnessStack } = correctedAside x := by
  unfold correctedAside
  rw [pushesAside_witnessStack]

theorem stashed_of_not_legacy (h : ¬ (transactionInputType x).isLegacy = true) : stashed x = none := by
  simp [stashed, h]

/-- A legacy input gets the script sig back that it had. -/
theorem restoredBy_of_legacy (h : (transactionInputType x).isLegacy = true) (witnessStack : Datas) :
    restoredBy (stashed x) { x with scriptData := none, witnessStack } = { x with witnessStack } := by
  unfold restoredBy stashed
  cases hdata : x.scriptData <;> simp [h]

theorem withScriptSigAside_sortedInput (x : TransactionInput) :
    withScriptSigAside (sortedInput c tx i) x =
      (sortedAside c tx i x).map fun witnessStack => { x with witnessStack } := by
  by_cases hlegacy : (transactionInputType x).isLegacy = true
  · rw [withScriptSigAside, clearScriptSig_of_legacy hlegacy, sortedInput, sortedAside, pushesAside_of_legacy hlegacy]
    have hnone : transactionInputScriptStack { x with scriptData := none } = [] := rfl
    rw [hnone]
    dsimp only
    split
    · split
      · exact congrArg some (restoredBy_of_legacy hlegacy _)
      · rfl
    · exact congrArg some (restoredBy_of_legacy hlegacy _)
  · rw [withScriptSigAside, clearScriptSig_of_not_legacy hlegacy, sortedInput, sortedAside,
      pushesAside_of_not_legacy hlegacy, stashed_of_not_legacy hlegacy]
    split
    · split <;> rfl
    · split <;> rfl

theorem withScriptSigAside_correctInput :
    withScriptSigAside correctInput x = some y ↔ ∃ witnessStack scriptData,
      correctedStack x.witnessStack = some witnessStack ∧ correctedAside x = some scriptData ∧
        { x with witnessStack, scriptData } = y := by
  by_cases hlegacy : (transactionInputType x).isLegacy = true
  · have haside : correctedAside x = some x.scriptData := by
      rw [correctedAside, pushesAside_of_legacy hlegacy]
      rfl
    have hdata : correctedScriptData { x with scriptData := none } = some none := rfl
    rw [withScriptSigAside, clearScriptSig_of_legacy hlegacy, Option.map_eq_some_iff, haside]
    constructor
    · rintro ⟨z, hz, hy⟩
      obtain ⟨witnessStack, scriptData, hstack, hscript, rfl⟩ := correctInput_eq_some_iff.mp hz
      obtain rfl := Option.some.inj (hdata.symm.trans hscript)
      exact ⟨witnessStack, x.scriptData, hstack, rfl, (restoredBy_of_legacy hlegacy witnessStack).symm.trans hy⟩
    · rintro ⟨witnessStack, scriptData, hstack, hscript, hy⟩
      obtain rfl := Option.some.inj hscript
      exact ⟨_, correctInput_eq_some_iff.mpr ⟨witnessStack, none, hstack, hdata, rfl⟩,
        (restoredBy_of_legacy hlegacy witnessStack).trans hy⟩
  · have haside : correctedAside x = correctedScriptData x := by
      rw [correctedAside, pushesAside_of_not_legacy hlegacy]
      rfl
    have hid : ∀ o : Option TransactionInput, o.map (restoredBy none) = o := by
      intro o
      cases o <;> rfl
    rw [withScriptSigAside, clearScriptSig_of_not_legacy hlegacy, stashed_of_not_legacy hlegacy, hid, haside]
    exact correctInput_eq_some_iff

/-- `TransactionFinalize` on one input, the script sig no longer in the way. -/
theorem finalInput_eq_some_iff :
    finalInput c tx i x = some y ↔ ∃ sorted witnessStack scriptData, sortedAside c tx i x = some sorted ∧
      correctedStack sorted = some witnessStack ∧ correctedAside x = some scriptData ∧
        { x with witnessStack, scriptData } = y := by
  rw [finalInput, withScriptSigAside_sortedInput, Option.bind_eq_some_iff]
  constructor
  · intro ⟨z, hz, hy⟩
    obtain ⟨sorted, hsorted, rfl⟩ := Option.map_eq_some_iff.mp hz
    obtain ⟨witnessStack, scriptData, hstack, hdata, rfl⟩ := withScriptSigAside_correctInput.mp hy
    rw [correctedAside_witnessStack] at hdata
    exact ⟨sorted, witnessStack, scriptData, hsorted, hstack, hdata, rfl⟩
  · intro ⟨sorted, witnessStack, scriptData, hsorted, hstack, hdata, hy⟩
    refine ⟨{ x with witnessStack := sorted }, by rw [hsorted]; rfl, ?_⟩
    rw [← correctedAside_witnessStack x sorted] at hdata
    exact withScriptSigAside_correctInput.mpr ⟨witnessStack, scriptData, hstack, hdata, hy⟩

theorem sortedAside_shape {sorted : Datas} (h : sortedAside c tx i x = some sorted) :
    sorted.length = x.witnessStack.length ∧ datasLast sorted = datasLast x.witnessStack := by
  unfold sortedAside at h
  split at h
  · split at h
    · rename_i hlen
      obtain rfl := Option.some.inj h
      exact ⟨hlen, datasLast_concat _ _⟩
    · cases h
  · split at h
    · cases h
    · obtain rfl := Option.some.inj h
      exact ⟨rfl, rfl⟩

/-- The script sig, once it was written, reads back as the pushes it was written from and
    takes no empty element. -/
theorem correctedAside_reads {scriptData : Data} (h : correctedAside x = some scriptData) (witnessStack : Datas)
    (hlong : 1 < (pushesAside x).length) :
    ∃ placed, correctMultisigSignaturesInStack (pushesAside x) = some placed ∧
      scriptData = some (writePushes placed) ∧ pushesAside { x with witnessStack, scriptData } = reread placed ∧
        ¬ TakesEmpty (reread placed) := by
  have hlegacy : ¬ (transactionInputType x).isLegacy = true := by
    intro hlegacy
    rw [pushesAside_of_legacy hlegacy] at hlong
    cases hlong
  have hne : pushesAside x ≠ [] := by
    intro hnil
    rw [hnil] at hlong
    cases hlong
  rw [correctedAside, if_pos hlong] at h
  obtain ⟨placed, hplaced, hdata⟩ := Option.map_eq_some_iff.mp h
  refine ⟨placed, hplaced, hdata.symm, ?_, ?_⟩
  · rw [pushesAside_of_not_legacy (x := { x with witnessStack, scriptData }) hlegacy]
    apply scriptStack_written _ hdata.symm
    intro d hd
    rcases mem_of_mem_corrected hne hplaced hd with hd | rfl
    · rw [pushesAside_of_not_legacy hlegacy] at hd
      exact length_lt_of_mem_scriptStack hd
    · decide
  · rw [takesEmpty_congr (length_reread placed) (datasLast_reread placed)]
    by_cases htakes : TakesEmpty (pushesAside x)
    · obtain ⟨-, -, hlast, hfull⟩ := correctMultisigSignaturesInStack_of_takes htakes hplaced
      intro hagain
      rw [TakesEmpty, hlast] at hagain
      exact hfull hagain.1
    · rw [correctMultisigSignaturesInStack_of_not_takes hne htakes] at hplaced
      rwa [← Option.some.inj hplaced]

/-- `TransactionFinalize` returns 1 on the input and neither aborts nor reads behind a stack. -/
structure Finalizes (c : Crypto) (tx : Transaction) (i : Nat) (input : TransactionInput) : Prop where
  /-- Every element in front of the script is taken by a key. -/
  taken : 2 < input.witnessStack.length →
    (sortByKeys (acceptedBy c tx i (datasLast input.witnessStack)) (allPubKeys (datasLast input.witnessStack))
      input.witnessStack.dropLast).length = input.witnessStack.dropLast.length
  short : input.witnessStack.length ≤ 2 → (pushesAside input).length ≤ 2
  inside : 1 < input.witnessStack.length → ReadsInside input.witnessStack
  insideScript : 1 < (pushesAside input).length → ReadsInside (pushesAside input)

/-- The multisig correction leaves the input as it is. -/
structure Corrected (input : TransactionInput) : Prop where
  full : 1 < input.witnessStack.length → ¬ TakesEmpty input.witnessStack
  fullScript : 1 < (pushesAside input).length → ¬ TakesEmpty (pushesAside input)
  written : 1 < (pushesAside input).length → input.scriptData = some (writePushes (pushesAside input))

/-- `TransactionFinalize` leaves the input as it is. -/
structure SettledInput (c : Crypto) (tx : Transaction) (i : Nat) (input : TransactionInput) : Prop extends Corrected input where
  order : 2 < input.witnessStack.length →
    InKeyOrder (acceptedBy c tx i (datasLast input.witnessStack)) (allPubKeys (datasLast input.witnessStack))
      input.witnessStack.dropLast
  short : input.witnessStack.length ≤ 2 → (pushesAside input).length ≤ 2

/-- The keys of the script find the signatures of the stack in their order, one in front and
    none behind the second, and beside a short stack there are no more than two pushes. -/
structure StaysFinal (c : Crypto) (tx : Transaction) (i : Nat) (input : TransactionInput) : Prop where
  order : 2 < input.witnessStack.length → input.witnessStack.dropLast.Nodup →
    InFront (acceptedBy c tx i (datasLast input.witnessStack)) (allPubKeys (datasLast input.witnessStack))
      input.witnessStack.dropLast
  /-- Of equal elements a key may take one from behind. -/
  copies : 2 < input.witnessStack.length → ¬ input.witnessStack.dropLast.Nodup →
    takenInTurn (acceptedBy c tx i (datasLast input.witnessStack)) (allPubKeys (datasLast input.witnessStack))
      input.witnessStack.dropLast = input.witnessStack.dropLast
  short : input.witnessStack.length ≤ 2 → (pushesAside input).length ≤ 2

theorem ne_nil_of_long {stack : Datas} {n : Nat} (h : n < stack.length) : stack ≠ [] := by
  intro hnil
  rw [hnil] at h
  cases h

theorem correctedStack_eq_of_not_takes {stack : Datas} (h : 1 < stack.length → ¬ TakesEmpty stack) :
    correctedStack stack = some stack := by
  unfold correctedStack
  split
  · rename_i hlong
    exact correctMultisigSignaturesInStack_of_not_takes (ne_nil_of_long hlong) (h hlong)
  · rfl

theorem correctedStack_isSome (stack : Datas) :
    (correctedStack stack).isSome ↔ (1 < stack.length → ReadsInside stack) := by
  unfold correctedStack
  split
  · rename_i hlong
    rw [correctMultisigSignaturesInStack_isSome]
    simp [hlong]
  · rename_i hshort
    simp [hshort]

theorem sortedStack_eq (stack : Datas) :
    sortedStack c tx i stack = sortByKeys (acceptedBy c tx i (datasLast stack)) (allPubKeys (datasLast stack))
      stack.dropLast ++ [datasLast stack] := rfl

theorem sortedAside_isSome (x : TransactionInput) :
    (sortedAside c tx i x).isSome ↔
      (2 < x.witnessStack.length →
        (sortByKeys (acceptedBy c tx i (datasLast x.witnessStack)) (allPubKeys (datasLast x.witnessStack))
          x.witnessStack.dropLast).length = x.witnessStack.dropLast.length) ∧
        (x.witnessStack.length ≤ 2 → (pushesAside x).length ≤ 2) := by
  unfold sortedAside
  rw [sortedStack_eq, List.length_append, List.length_singleton, List.length_dropLast]
  by_cases hlong : 2 < x.witnessStack.length
  · rw [if_pos hlong]
    generalize (sortByKeys (acceptedBy c tx i (datasLast x.witnessStack)) (allPubKeys (datasLast x.witnessStack))
      x.witnessStack.dropLast).length = n
    have hshort : ¬ x.witnessStack.length ≤ 2 := by omega
    by_cases hn : n + 1 = x.witnessStack.length
    · simp only [hn, if_true, Option.isSome_some, hlong, hshort, true_implies, false_implies, and_true, true_iff]
      omega
    · simp only [hn, if_false, Option.isSome_none, Bool.false_eq_true, hlong, hshort, true_implies, false_implies,
        and_true, false_iff]
      omega
  · rw [if_neg hlong]
    have hshort : x.witnessStack.length ≤ 2 := by omega
    by_cases hpushes : 2 < (pushesAside x).length
    · simp [hpushes, hshort, hlong]
    · simp [hpushes, hshort, hlong, Nat.not_lt.mp hpushes]

theorem finalInput_isSome : (finalInput c tx i x).isSome ↔ Finalizes c tx i x := by
  have hcorrected : (correctedAside x).isSome ↔ (1 < (pushesAside x).length → ReadsInside (pushesAside x)) := by
    unfold correctedAside
    split
    · rename_i hlong
      rw [Option.isSome_map, correctMultisigSignaturesInStack_isSome]
      simp [hlong]
    · rename_i hshort
      simp [hshort]
  constructor
  · intro h
    obtain ⟨y, hy⟩ := Option.isSome_iff_exists.mp h
    obtain ⟨sorted, witnessStack, scriptData, hsorted, hstack, hdata, -⟩ := finalInput_eq_some_iff.mp hy
    obtain ⟨hlen, hlast⟩ := sortedAside_shape hsorted
    obtain ⟨htaken, hshort⟩ := (sortedAside_isSome x).mp (by rw [hsorted]; rfl)
    refine ⟨htaken, hshort, fun hlong => ?_, hcorrected.mp (by rw [hdata]; rfl)⟩
    rw [← readsInside_congr hlen (congrArg Data.toBytes hlast)]
    exact (correctedStack_isSome sorted).mp (by rw [hstack]; rfl) (hlen ▸ hlong)
  · intro h
    obtain ⟨sorted, hsorted⟩ := Option.isSome_iff_exists.mp ((sortedAside_isSome x).mpr ⟨h.taken, h.short⟩)
    obtain ⟨hlen, hlast⟩ := sortedAside_shape hsorted
    have hinside : 1 < sorted.length → ReadsInside sorted := by
      intro hlong
      rw [readsInside_congr hlen (congrArg Data.toBytes hlast)]
      exact h.inside (hlen ▸ hlong)
    obtain ⟨witnessStack, hstack⟩ := Option.isSome_iff_exists.mp ((correctedStack_isSome sorted).mpr hinside)
    obtain ⟨scriptData, hdata⟩ := Option.isSome_iff_exists.mp (hcorrected.mpr h.insideScript)
    rw [finalInput_eq_some_iff.mpr ⟨sorted, witnessStack, scriptData, hsorted, hstack, hdata, rfl⟩]
    rfl

/-- What sorting leaves of a stack in key order. -/
theorem sortedAside_self_iff (x : TransactionInput) :
    sortedAside c tx i x = some x.witnessStack ↔
      (2 < x.witnessStack.length →
        InKeyOrder (acceptedBy c tx i (datasLast x.witnessStack)) (allPubKeys (datasLast x.witnessStack))
          x.witnessStack.dropLast) ∧
        (x.witnessStack.length ≤ 2 → (pushesAside x).length ≤ 2) := by
  unfold sortedAside
  by_cases hlong : 2 < x.witnessStack.length
  · rw [if_pos hlong]
    have hsplit := dropLast_concat_datasLast (ne_nil_of_long hlong)
    have hshort : ¬ x.witnessStack.length ≤ 2 := by omega
    have hsame : sortedStack c tx i x.witnessStack = x.witnessStack ↔
        InKeyOrder (acceptedBy c tx i (datasLast x.witnessStack)) (allPubKeys (datasLast x.witnessStack))
          x.witnessStack.dropLast := by
      rw [InKeyOrder, sortedStack_eq]
      constructor
      · intro h
        exact List.append_cancel_right (h.trans hsplit.symm)
      · intro h
        rw [h, hsplit]
    rw [← hsame]
    split
    · simp [hlong, hshort]
    · rename_i hlen
      have hne : sortedStack c tx i x.witnessStack ≠ x.witnessStack := fun h => hlen (congrArg List.length h)
      simp [hlong, hne]
  · have hshort : x.witnessStack.length ≤ 2 := by omega
    by_cases hpushes : 2 < (pushesAside x).length
    · simp [hpushes, hshort, hlong]
    · simp [hpushes, hshort, hlong, Nat.not_lt.mp hpushes]

theorem correctedAside_self_iff (x : TransactionInput) :
    correctedAside x = some x.scriptData ↔
      (1 < (pushesAside x).length → ¬ TakesEmpty (pushesAside x)) ∧
        (1 < (pushesAside x).length → x.scriptData = some (writePushes (pushesAside x))) := by
  by_cases hlong : 1 < (pushesAside x).length
  · simp only [hlong, true_implies]
    constructor
    · intro h
      obtain ⟨placed, hplaced, hdata, hreads, hnot⟩ := correctedAside_reads h x.witnessStack hlong
      have hsame : pushesAside x = reread placed := hreads
      rw [← hsame] at hnot
      rw [correctMultisigSignaturesInStack_of_not_takes (ne_nil_of_long hlong) hnot] at hplaced
      obtain rfl := Option.some.inj hplaced
      exact ⟨hnot, hdata⟩
    · intro ⟨hnot, hdata⟩
      rw [correctedAside, if_pos hlong, correctMultisigSignaturesInStack_of_not_takes (ne_nil_of_long hlong) hnot,
        Option.map_some, ← hdata]
  · simp [correctedAside, hlong]

theorem finalInput_self_iff : finalInput c tx i x = some x ↔ SettledInput c tx i x := by
  rw [finalInput_eq_some_iff]
  constructor
  · intro ⟨sorted, witnessStack, scriptData, hsorted, hstack, hdata, hx⟩
    obtain ⟨hlen, hlast⟩ := sortedAside_shape hsorted
    have hws : witnessStack = x.witnessStack := congrArg TransactionInput.witnessStack hx
    have hsd : scriptData = x.scriptData := congrArg TransactionInput.scriptData hx
    rw [hws] at hstack
    rw [hsd] at hdata
    have hnot : 1 < sorted.length → ¬ TakesEmpty sorted := by
      intro hlong htakes
      rw [correctedStack, if_pos hlong] at hstack
      have hlonger := (correctMultisigSignaturesInStack_of_takes htakes hstack).1
      omega
    rw [correctedStack_eq_of_not_takes hnot] at hstack
    obtain rfl := Option.some.inj hstack
    obtain ⟨horder, hshort⟩ := (sortedAside_self_iff x).mp hsorted
    obtain ⟨hfull, hwritten⟩ := (correctedAside_self_iff x).mp hdata
    exact ⟨⟨hnot, hfull, hwritten⟩, horder, hshort⟩
  · intro h
    exact ⟨_, _, _, (sortedAside_self_iff x).mpr ⟨h.order, h.short⟩, correctedStack_eq_of_not_takes h.full,
      (correctedAside_self_iff x).mpr ⟨h.fullScript, h.written⟩, rfl⟩

/-- A script sig that was written once is not written again. -/
theorem correctedAside_settled {scriptData : Data} (h : correctedAside x = some scriptData) (witnessStack : Datas) :
    (1 < (pushesAside { x with witnessStack, scriptData }).length →
        ¬ TakesEmpty (pushesAside { x with witnessStack, scriptData })) ∧
      (1 < (pushesAside { x with witnessStack, scriptData }).length →
        scriptData = some (writePushes (pushesAside { x with witnessStack, scriptData }))) := by
  by_cases hlong : 1 < (pushesAside x).length
  · obtain ⟨placed, -, hwritten, hreads, hfull⟩ := correctedAside_reads h witnessStack hlong
    rw [hreads]
    refine ⟨fun _ => hfull, fun _ => ?_⟩
    rw [writePushes_reread]
    exact hwritten
  · rw [correctedAside, if_neg hlong] at h
    obtain rfl := Option.some.inj h
    have hsame : pushesAside { x with witnessStack, scriptData := x.scriptData } = pushesAside x :=
      pushesAside_witnessStack x witnessStack
    rw [hsame]
    exact ⟨fun h => absurd h hlong, fun h => absurd h hlong⟩

/-- What a call returns takes no more empty elements, and its script sig is the one that its
    pushes make. -/
theorem corrected_of_finalInput (h : finalInput c tx i x = some y) : Corrected y := by
  obtain ⟨sorted, witnessStack, scriptData, -, hstack, hdata, rfl⟩ := finalInput_eq_some_iff.mp h
  obtain ⟨hfull, hwritten⟩ := correctedAside_settled hdata witnessStack
  refine ⟨fun hlong => ?_, hfull, hwritten⟩
  by_cases htakes : 1 < sorted.length ∧ TakesEmpty sorted
  · rw [correctedStack, if_pos htakes.1] at hstack
    obtain ⟨-, -, hlast, hneeded⟩ := correctMultisigSignaturesInStack_of_takes htakes.2 hstack
    intro hagain
    rw [TakesEmpty, hlast] at hagain
    exact hneeded hagain.1
  · rw [correctedStack_eq_of_not_takes fun hlong htakes' => htakes ⟨hlong, htakes'⟩] at hstack
    obtain rfl := Option.some.inj hstack
    exact fun htakes' => htakes ⟨hlong, htakes'⟩

/-- A returned input is left as it is exactly when its signatures stay where they are. -/
theorem settledInput_iff (h : Corrected input) : SettledInput c tx i input ↔ StaysFinal c tx i input := by
  constructor
  · intro hsettled
    refine ⟨fun hlong hnodup => inFront_of_inKeyOrder hnodup (hsettled.order hlong), fun hlong _ => ?_, hsettled.short⟩
    rw [← sortByKeys_eq]
    exact hsettled.order hlong
  · intro hstays
    refine ⟨h, fun hlong => ?_, hstays.short⟩
    by_cases hnodup : input.witnessStack.dropLast.Nodup
    · exact sortByKeys_inFront (hstays.order hlong hnodup)
    · rw [InKeyOrder, sortByKeys_eq]
      exact hstays.copies hlong hnodup

/-! ## Further keys and scripts -/

theorem readsInside_of_not_takes {stack : Datas} (h : ¬ TakesEmpty stack) : ReadsInside stack := by
  intro hneeded
  have hones : ∀ token ∈ allCheckSigs (datasLast stack), isCheckMultisig token.op = false ∧ token.neededSigs = 1 := by
    intro token htoken
    have hplain : isCheckMultisig token.op = false := by
      by_contra hop
      exact h ⟨hneeded, token, htoken, by simpa using hop⟩
    refine ⟨hplain, (mem_allCheckSigs htoken).resolve_left ?_⟩
    rw [hplain]
    decide
  have hsame : (((allCheckSigs (datasLast stack)).map signaturesOf).sum : Int) =
      ((allCheckSigs (datasLast stack)).map (·.neededSigs)).sum := by
    clear hneeded h
    generalize allCheckSigs (datasLast stack) = tokens at hones ⊢
    induction tokens with
    | nil => rfl
    | cons token tokens ih =>
      obtain ⟨hplain, hone⟩ := hones token List.mem_cons_self
      have hrest := ih fun t ht => hones t (List.mem_cons_of_mem _ ht)
      rw [List.map_cons, List.map_cons, List.sum_cons, List.sum_cons, hone, ← hrest, signaturesOf, hplain]
      rfl
  omega

/-- The stack that further keys and scripts leave: the last key a redeem script names and its
    signature, or the new signatures in front of the script. -/
def furtherStack (c : Crypto) (tx : Transaction) (items : Datas) (i : Nat) (input : TransactionInput) : Datas :=
  let stack := stackBefore c tx items i input
  match (nestedKeys c items input).getLast? with
  | some key => keyHashStack c tx i key
  | none =>
    if stack = [] then [] else stack.dropLast ++ newSignatures c tx i (datasLast stack) stack items ++ [datasLast stack]

theorem witnessStack_signedInput (items : Datas) (x : TransactionInput) :
    (signedInput c tx items i x).witnessStack = furtherStack c tx items i x := by
  show (signedView c tx items i x).witnessStack = _
  rw [signedView_witnessStack, furtherStack]
  cases (nestedKeys c items x).getLast? with
  | some key => rfl
  | none =>
    rw [Option.map_none, Option.getD_none]
    generalize stackBefore c tx items i x = stack
    rcases List.eq_nil_or_concat stack with rfl | ⟨init, script, rfl⟩
    · exact signStack_nil
    · rw [List.concat_eq_append, signStack_new]
      simp [datasLast_concat]

/-- Signing writes no script data that is not set aside. -/
theorem pushesAside_signedInput (items : Datas) (x : TransactionInput) :
    pushesAside (signedInput c tx items i x) = pushesAside x := by
  have htype : transactionInputType (signedInput c tx items i x) = transactionInputType x := rfl
  by_cases hlegacy : (transactionInputType x).isLegacy = true
  · rw [pushesAside_of_legacy (htype ▸ hlegacy), pushesAside_of_legacy hlegacy]
  · have hno : (transactionInputType x).isLegacy = false := by simpa using hlegacy
    have hscript : transactionInputType x ≠ .payToScriptHash := by
      intro ht
      rw [ht] at hno
      cases hno
    have hcarries : carriesScript x = false := by
      unfold carriesScript
      cases ht : transactionInputType x <;> simp_all [TransactionInputType.isLegacy]
    have hdata : (signedInput c tx items i x).scriptData = x.scriptData := by
      show (signedView c tx items i x).scriptSig.getD _ = _
      rw [signedView_scriptSig hscript, scriptSig_viewDirects_witness hno]
      simp [startView, stashed_of_not_legacy hlegacy, carriedScript, hcarries, hno]
    rw [pushesAside_of_not_legacy (htype ▸ hlegacy), pushesAside_of_not_legacy hlegacy, transactionInputScriptStack, hdata]
    rfl

/-- A returned input with further keys and scripts: the keys of the script leave none of the
    signatures of the stack over, beside a short stack there are no more than two pushes, and
    of a stack that changed as many elements are read as it has. -/
structure SignsAgain (c : Crypto) (tx : Transaction) (further : Datas) (i : Nat) (input : TransactionInput) : Prop where
  taken : 2 < (furtherStack c tx further i input).length →
    leftOver (acceptedBy c tx i (datasLast (furtherStack c tx further i input)))
      (allPubKeys (datasLast (furtherStack c tx further i input))) (furtherStack c tx further i input).dropLast = []
  short : (furtherStack c tx further i input).length ≤ 2 → (pushesAside input).length ≤ 2
  inside : furtherStack c tx further i input ≠ input.witnessStack → 1 < (furtherStack c tx further i input).length →
    ReadsInside (furtherStack c tx further i input)

theorem finalizes_signedInput_iff (further : Datas) (h : Corrected input) :
    Finalizes c tx i (signedInput c tx further i input) ↔ SignsAgain c tx further i input := by
  have hstack : (signedInput c tx further i input).witnessStack = furtherStack c tx further i input :=
    witnessStack_signedInput further input
  have hpushes : pushesAside (signedInput c tx further i input) = pushesAside input := pushesAside_signedInput further input
  have htaken : ∀ stack : Datas,
      (sortByKeys (acceptedBy c tx i (datasLast stack)) (allPubKeys (datasLast stack)) stack.dropLast).length =
        stack.dropLast.length ↔
      leftOver (acceptedBy c tx i (datasLast stack)) (allPubKeys (datasLast stack)) stack.dropLast = [] := by
    intro stack
    have hlen := @length_sortByKeys (acceptedBy c tx i (datasLast stack)) (allPubKeys (datasLast stack)) stack.dropLast
    rw [← List.length_eq_zero_iff]
    omega
  constructor
  · intro hfinal
    refine ⟨fun hlong => ?_, fun hshort => ?_, fun _ hlong => ?_⟩
    · have := hfinal.taken (by rwa [hstack])
      rwa [hstack, htaken] at this
    · have := hfinal.short (by rwa [hstack])
      rwa [hpushes] at this
    · have := hfinal.inside (by rwa [hstack])
      rwa [hstack] at this
  · intro hagain
    refine ⟨fun hlong => ?_, fun hshort => ?_, fun hlong => ?_, fun hlong => ?_⟩
    · rw [hstack] at hlong ⊢
      rw [htaken]
      exact hagain.taken hlong
    · rw [hstack] at hshort
      rw [hpushes]
      exact hagain.short hshort
    · rw [hstack] at hlong ⊢
      by_cases hsame : furtherStack c tx further i input = input.witnessStack
      · rw [hsame] at hlong ⊢
        exact readsInside_of_not_takes (h.full hlong)
      · exact hagain.inside hsame hlong
    · rw [hpushes] at hlong ⊢
      exact readsInside_of_not_takes (h.fullScript hlong)

/-! ## The whole call -/

def SettledTransaction (c : Crypto) (tx : Transaction) : Prop := ∀ k x, tx.inputs[k]? = some x → SettledInput c tx k x

theorem mapped_exists {f : Nat → TransactionInput → Option TransactionInput} :
    (∃ tx', Mapped f tx tx') ↔ ∀ k x, tx.inputs[k]? = some x → (f k x).isSome := by
  rw [← Loop.eachBy_exists]
  constructor
  · intro ⟨tx', h⟩
    exact ⟨tx'.inputs, h.inputs⟩
  · intro ⟨inputs, h⟩
    exact ⟨{ tx with inputs }, rfl, rfl, rfl, h⟩

/-- The transactions `TransactionFinalize` leaves as they are. -/
theorem transactionFinalize_self_iff : transactionFinalize c tx = some (tx, true) ↔ SettledTransaction c tx := by
  have hself : Mapped (finalInput c tx) tx tx ↔ Loop.EachBy (finalInput c tx) tx.inputs tx.inputs :=
    ⟨Mapped.inputs, fun h => ⟨rfl, rfl, rfl, h⟩⟩
  rw [transactionFinalize_iff, hself, Loop.eachBy_self_iff]
  simp only [finalInput_self_iff]
  rfl

theorem core_finalInput (h : finalInput c tx i x = some y) : y.core = x.core := by
  obtain ⟨sorted, witnessStack, scriptData, -, -, -, rfl⟩ := finalInput_eq_some_iff.mp h
  rfl

theorem transactionSign_isSome {items : Datas} :
    (transactionSign c tx items).isSome ↔
      ∀ k x, tx.inputs[k]? = some x → Finalizes c tx k (signedInput c tx items k x) := by
  have hexists : (transactionSign c tx items).isSome ↔
      ∃ tx', Mapped (fun k x => finalInput c tx k (signedInput c tx items k x)) tx tx' := by
    rw [Option.isSome_iff_exists]
    constructor
    · intro ⟨⟨tx', affected⟩, h⟩
      exact ⟨tx', (transactionSign_iff.mp h).1⟩
    · intro ⟨tx', h⟩
      exact ⟨(tx', _), transactionSign_iff.mpr ⟨h, rfl⟩⟩
  rw [hexists, mapped_exists]
  simp only [finalInput_isSome]

/-- Three keys, all needed. -/
def threeKeyScript : Data :=
  some ([0x53] ++ scriptPush (pubKey plainCrypto (signerKey 1)) ++ scriptPush (pubKey plainCrypto (signerKey 2)) ++
    scriptPush (pubKey plainCrypto (signerKey 3)) ++ [0x53, UInt8.ofNat OP_CHECKMULTISIG])

def threeKeyTransaction (witnessStack : Datas) : Transaction :=
  { twoKeyTransaction [] with
    inputs := [{ twoKeyInput witnessStack with
      fundingOutput := ⟨some (p2wshPubScriptWithScript plainCrypto threeKeyScript), 1000⟩ }] }

/-- What two of the three signers leave. -/
def twoOfThree : Datas :=
  [witnessSignature plainCrypto (threeKeyTransaction []) 0 threeKeyScript (signerKey 1),
    witnessSignature plainCrypto (threeKeyTransaction []) 0 threeKeyScript (signerKey 2), threeKeyScript]

def secondSignature : Data := witnessSignature plainCrypto (twoKeyTransaction []) 0 twoKeyScript (signerKey 2)

end BitcoinSpoon
