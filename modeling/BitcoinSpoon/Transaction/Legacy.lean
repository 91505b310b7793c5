/-
  BitcoinSpoon.Transaction.Legacy — which legacy signatures are over the right digest, and
  what an input that nobody signed is left with.

  While an input is signed the others should carry an empty script. They do not when the
  item in front of the key is not 32 bytes long (`continue` leaves the funding script in
  every pay-to-pubkey and pay-to-pubkey-hash input), and an input that is not of a legacy
  type keeps its script data. A signature for a bare redeem script is made with an empty
  script in the input itself. `transactionSign_legacy_iff` says that nothing else goes
  wrong. It is about the transaction returned: `Written` ties the signatures the run
  records to the pushes of the script sigs.
-/

import BitcoinSpoon.Transaction.Order

namespace BitcoinSpoon

open Wire Loop

variable {c : Crypto} {tx : Transaction} {i : Nat} {input : TransactionInput} {items : Datas}

/-! ## What a legacy digest says about the scripts -/

theorem varIntD_head {n : Nat} (hpos : n ≠ 0) (hn : n < 2 ^ 64) : (varIntD n).head? ≠ some 0 := by
  rw [varIntD_eq hn]
  split
  · simp
  split
  · simp
  split
  · simp
  · intro h
    have hbyte : UInt8.ofNat n = 0 := Option.some.inj h
    have := congrArg UInt8.toNat hbyte
    rw [UInt8.toNat_ofNat'] at this
    simp at this
    omega

/-- Scripts of which at every input one is empty or both are the same. -/
def OneEmpty (a b : Data) : Prop :=
  a.length < 2 ^ 64 ∧ b.length < 2 ^ 64 ∧ (a.toBytes = b.toBytes ∨ a.length = 0 ∨ b.length = 0)

/-- An empty script and another one are told apart by their first byte. -/
theorem script_inj {a b : Data} (h : OneEmpty a b) {s t : Bytes}
    (heq : varIntD a.length ++ a.toBytes ++ s = varIntD b.length ++ b.toBytes ++ t) : a.toBytes = b.toBytes ∧ s = t := by
  obtain ⟨ha, hb, hsame⟩ := h
  have hdiffer : ∀ {a b : Data} {s t : Bytes}, a.length = 0 → b.length < 2 ^ 64 →
      varIntD a.length ++ a.toBytes ++ s = varIntD b.length ++ b.toBytes ++ t → b.length = 0 := by
    intro a b s t ha hb heq
    by_contra hpos
    have hhead := varIntD_head hpos hb
    have hne := varIntD_ne_nil b.length
    rw [ha] at heq
    have h0 : varIntD 0 = [0] := rfl
    rw [h0] at heq
    obtain ⟨x, rest, hx⟩ := List.exists_cons_of_ne_nil hne
    rw [hx] at heq hhead
    exact hhead (congrArg some (List.cons.inj heq).1.symm)
  have hbytes : a.toBytes = b.toBytes := by
    rcases hsame with h | h | h
    · exact h
    · rw [toBytes_eq_nil.mpr h, toBytes_eq_nil.mpr (hdiffer h hb heq)]
    · rw [toBytes_eq_nil.mpr h, toBytes_eq_nil.mpr (hdiffer h ha heq.symm)]
  refine ⟨hbytes, ?_⟩
  have hlen : a.length = b.length := congrArg List.length hbytes
  rw [hbytes, hlen] at heq
  exact List.append_cancel_left heq

theorem inputsData_inj (inputs : List TransactionInput) {f g : Nat → Data}
    (h : ∀ k < inputs.length, OneEmpty (f k) (g k)) {s t : Bytes}
    (heq : (inputs.mapIdx fun k x => { x with scriptData := f k }).flatMap transactionInputData ++ s =
      (inputs.mapIdx fun k x => { x with scriptData := g k }).flatMap transactionInputData ++ t) :
    ∀ k < inputs.length, (f k).toBytes = (g k).toBytes := by
  induction inputs generalizing f g with
  | nil => exact fun k hk => absurd hk (Nat.not_lt_zero k)
  | cons x inputs ih =>
    rw [List.mapIdx_cons, List.mapIdx_cons, List.flatMap_cons, List.flatMap_cons] at heq
    simp only [transactionInputData, List.append_assoc] at heq
    have heq' := List.append_cancel_left (List.append_cancel_left heq)
    rw [← List.append_assoc, ← List.append_assoc (varIntD (g 0).length)] at heq'
    obtain ⟨h0, hrest⟩ := script_inj (h 0 (Nat.zero_lt_succ _)) heq'
    have hnext := ih (fun k hk => h (k + 1) (Nat.succ_lt_succ hk)) (List.append_cancel_left hrest)
    intro k hk
    cases k with
    | zero => exact h0
    | succ k => exact hnext k (Nat.lt_of_succ_lt_succ hk)

/-- Two digests of one transaction agree exactly when the scripts do. -/
theorem transactionDigest_withScripts_iff {f g : Nat → Data} (h : ∀ k < tx.inputs.length, OneEmpty (f k) (g k)) :
    transactionDigest (tx.withScripts f) = transactionDigest (tx.withScripts g) ↔
      ∀ k < tx.inputs.length, (f k).toBytes = (g k).toBytes := by
  constructor
  · intro heq
    have hbytes := List.append_cancel_right (Option.some.inj heq)
    simp only [transactionTx, Transaction.withScripts, List.length_mapIdx, List.append_assoc] at hbytes
    exact inputsData_inj tx.inputs h (List.append_cancel_left (List.append_cancel_left hbytes))
  · intro hsame
    apply transactionDigest_eq_withScripts (core_withScripts tx f)
    intro k hk
    rw [scriptAt_withScripts hk, hsame k hk]

/-! ## The digests of the passes -/

/-- Lengths are `uint32_t`. -/
def Sized (tx : Transaction) : Prop :=
  ∀ x ∈ tx.inputs, x.scriptData.length < 2 ^ 32 ∧ x.fundingOutput.script.length < 2 ^ 32

theorem funding_ne_empty (h : carriesScript input = true) : input.fundingOutput.script.length ≠ 0 := by
  intro hempty
  unfold carriesScript transactionInputType at h
  have hnil : input.fundingOutput.script.toBytes = [] := toBytes_eq_nil.mpr hempty
  simp [hnil] at h

theorem carriedScript_sized (hsize : Sized tx) {k : Nat} (hin : tx.inputs[k]? = some input) (dirty : Bool) :
    (carriedScript dirty input).length < 2 ^ 32 := by
  obtain ⟨hdata, hfund⟩ := hsize input (List.mem_of_getElem? hin)
  unfold carriedScript
  split
  · split
    · exact hfund
    · decide
  split
  · decide
  · exact hdata

theorem carriedScript_empty (dirty : Bool) :
    (carriedScript dirty input).length = 0 ↔
      (carriesScript input = true → dirty = false) ∧
        ((transactionInputType input).isLegacy = false → input.scriptData.length = 0) := by
  have hlegacy : carriesScript input = true → (transactionInputType input).isLegacy = true := by
    unfold carriesScript
    cases transactionInputType input <;> simp [TransactionInputType.isLegacy]
  unfold carriedScript
  by_cases hcarries : carriesScript input = true
  · have hne := funding_ne_empty hcarries
    rw [if_pos hcarries]
    cases dirty <;> simp [hcarries, hne, hlegacy hcarries]
  · rw [if_neg hcarries]
    cases hl : (transactionInputType input).isLegacy <;> simp [hcarries]

/-- No input outside the legacy types carries script data. -/
def BareWitnessInputs (tx : Transaction) : Prop :=
  ∀ x ∈ tx.inputs, (transactionInputType x).isLegacy = false → x.scriptData.length = 0

/-- A direct signature is over the right digest when nothing is left in a later input. -/
theorem signingDigest_eq_iff (hsize : Sized tx) (hin : tx.inputs[i]? = some input) (hcarries : carriesScript input = true)
    (dirty : Bool) :
    signingDigest tx (dirty && carriesAfter tx i) i = legacyDigest tx i input.fundingOutput.script ↔
      (dirty && carriesAfter tx i) = false ∧ BareWitnessInputs tx := by
  rw [signingDigest_after]
  have hsized : (input.fundingOutput.script).length < 2 ^ 64 :=
    Nat.lt_trans (hsize input (List.mem_of_getElem? hin)).2 (by decide)
  have hempty : Data.length none = 0 := rfl
  unfold signingDigest legacyDigest
  rw [transactionDigest_withScripts_iff]
  · rw [hin, Option.map_some, Option.getD_some]
    constructor
    · intro h
      have hother : ∀ k x, k ≠ i → tx.inputs[k]? = some x → (carriedScript (if k < i then false else dirty) x).length = 0 := by
        intro k x hki hx
        have hk := h k (List.getElem?_eq_some_iff.mp hx).1
        rw [if_neg hki, if_neg hki, carriedScripts_here hx] at hk
        exact toBytes_eq_nil.mp hk
      constructor
      · by_contra hafter
        rw [Bool.not_eq_false, Bool.and_eq_true] at hafter
        obtain ⟨x, hx, hxc⟩ := List.any_eq_true.mp hafter.2
        obtain ⟨j, hj, rfl⟩ := List.mem_iff_getElem.mp hx
        have hget : tx.inputs[i + 1 + j]? = some (tx.inputs.drop (i + 1))[j] := by
          rw [← List.getElem?_drop, List.getElem?_eq_getElem hj]
        have hzero := hother (i + 1 + j) _ (by omega) hget
        rw [if_neg (by omega), carriedScript_empty] at hzero
        have := hzero.1 hxc
        rw [hafter.1] at this
        cases this
      · intro x hx hwitness
        obtain ⟨k, hk, rfl⟩ := List.mem_iff_getElem.mp hx
        have hget : tx.inputs[k]? = some tx.inputs[k] := List.getElem?_eq_getElem hk
        have hki : k ≠ i := by
          intro hki
          subst hki
          have hsame : input = tx.inputs[k] := Option.some.inj (hin.symm.trans hget)
          rw [hsame] at hcarries
          unfold carriesScript at hcarries
          cases ht : transactionInputType tx.inputs[k] <;> simp_all [TransactionInputType.isLegacy]
        exact ((carriedScript_empty _).mp (hother k _ hki hget)).2 hwitness
    · rintro ⟨hafter, hbare⟩ k hk
      by_cases hki : k = i
      · rw [if_pos hki, if_pos hki]
      rw [if_neg hki, if_neg hki]
      have hget : tx.inputs[k]? = some tx.inputs[k] := List.getElem?_eq_getElem hk
      rw [carriedScripts_here hget]
      apply toBytes_eq_nil.mpr
      rw [carriedScript_empty]
      refine ⟨fun hc => ?_, hbare _ (List.getElem_mem hk)⟩
      by_cases hlt : k < i
      · rw [if_pos hlt]
      · rw [if_neg hlt]
        have hany : carriesAfter tx i = true := by
          refine List.any_eq_true.mpr ⟨tx.inputs[k], ?_, hc⟩
          apply List.mem_of_getElem? (i := k - (i + 1))
          rw [List.getElem?_drop, ← hget]
          congr 1
          omega
        rw [hany, Bool.and_true] at hafter
        exact hafter
  · intro k hk
    have hget : tx.inputs[k]? = some tx.inputs[k] := List.getElem?_eq_getElem hk
    by_cases hki : k = i
    · rw [if_pos hki, if_pos hki, hin]
      exact ⟨hsized, hsized, Or.inl rfl⟩
    · rw [if_neg hki, if_neg hki, carriedScripts_here hget]
      exact ⟨Nat.lt_trans (carriedScript_sized hsize hget _) (by decide), by decide, Or.inr (Or.inr hempty)⟩

/-- The digest of a redeem script leaves the script out. -/
theorem redeemDigest_ne (hsize : Sized tx) (hin : tx.inputs[i]? = some input)
    (ht : transactionInputType input = .payToScriptHash) {redeem : Data} (hne : redeem.length ≠ 0)
    (hlt : redeem.length < 2 ^ 32) (dirty : Bool) : redeemDigest tx dirty ≠ legacyDigest tx i redeem := by
  unfold redeemDigest legacyDigest
  have hempty : carriedScripts tx dirty dirty 0 i = none := by
    rw [carriedScripts_here hin, carriedScript]
    simp [carriesScript, ht, TransactionInputType.isLegacy]
  intro heq
  rw [transactionDigest_withScripts_iff] at heq
  · have hi := heq i (List.getElem?_eq_some_iff.mp hin).1
    rw [hempty, if_pos rfl] at hi
    exact hne (toBytes_eq_nil.mp hi.symm)
  · intro k hk
    have hget : tx.inputs[k]? = some tx.inputs[k] := List.getElem?_eq_getElem hk
    have hcarried : (carriedScripts tx dirty dirty 0 k).length < 2 ^ 64 := by
      rw [carriedScripts_here hget]
      exact Nat.lt_trans (carriedScript_sized hsize hget _) (by decide)
    by_cases hki : k = i
    · rw [hki, hempty, if_pos rfl]
      exact ⟨by decide, Nat.lt_trans hlt (by decide), Or.inr (Or.inl rfl)⟩
    · rw [if_neg hki]
      exact ⟨hcarried, by decide, Or.inr (Or.inr rfl)⟩

/-! ## What the first pass signs -/

/-- The item matches the funding script of the input. -/
def matchesFunding (c : Crypto) (input : TransactionInput) (item : Data) : Bool :=
  match transactionInputType input with
  | .payToPubkey => signsPubkey c input.fundingOutput.script item
  | .payToPubkeyHash => signsPubkeyHash c input.fundingOutput.script item
  | .payToPubkeyWitness => signsKeyHash c input.fundingOutput.script item
  | .payToScriptWitness => isWitnessScript c input.fundingOutput.script item
  | .payToScriptHash => isRedeemScript c input.fundingOutput.script item
  | .unknown => false

section

variable {digest item : Data} {v : InputView}

/-- The keys of a pay-to-pubkey script: a key that matches marks the input and signs. -/
theorem viewScriptPubKeys_marks (keys : Datas) (s : LegacySignature) :
    let hit := keys.any fun key => dataEqual key (pubKey c item) || dataEqual key (pubKeyFull c item)
    let after := keys.foldl (fun v key => viewScriptPubKey c digest item i key v) v
    (after.affected = true ↔ v.affected = true ∨ hit = true) ∧
      (s ∈ after.signed ↔ s ∈ v.signed ∨ hit = true ∧ s = ⟨i, digest, item⟩) := by
  induction keys generalizing v with
  | nil => simp
  | cons key keys ih =>
    dsimp only at ih ⊢
    rw [List.foldl_cons, ih.1, ih.2, List.any_cons]
    unfold viewScriptPubKey
    by_cases hkey : (dataEqual key (pubKey c item) || dataEqual key (pubKeyFull c item)) = true
    · rw [if_pos hkey, hkey]
      simp [InputView.effect, InputView.record, InputView.setScriptSig]
      tauto
    · rw [if_neg hkey]
      rw [Bool.not_eq_true] at hkey
      rw [hkey, Bool.false_or]
      exact ⟨Iff.rfl, Iff.rfl⟩

/-- A step of the first pass marks the input exactly when the item matches. -/
theorem viewDirect_affected (tx : Transaction) (i : Nat) (digest : Data) :
    (viewDirect c tx digest item i input v).affected = true ↔ v.affected = true ∨ matchesFunding c input item = true := by
  unfold viewDirect matchesFunding
  cases transactionInputType input with
  | payToPubkey =>
    dsimp only
    unfold viewPayToPubkey signsPubkey
    split
    · rename_i hlen
      simp [hlen]
    · rename_i hlen
      rw [not_not] at hlen
      rw [(viewScriptPubKeys_marks _ ⟨i, digest, item⟩).1]
      simp [hlen]
  | payToPubkeyHash =>
    dsimp only
    unfold viewPayToPubkeyHash signsPubkeyHash isKey viewHashedKey
    by_cases hlen : item.length = 32
    · rw [if_neg (not_not.mpr hlen)]
      split
      · rename_i hfull
        simp_all [InputView.effect, InputView.record]
      split
      · rename_i hpub
        simp_all [InputView.effect, InputView.record]
      · simp_all
    · rw [if_pos hlen]
      simp [hlen]
  | payToPubkeyWitness =>
    dsimp only
    unfold viewPayToPubkeyWitness signsKeyHash isKey
    by_cases hlen : item.length = 32
    · rw [if_neg (not_not.mpr hlen)]
      split
      · rename_i hkey
        simp_all [InputView.effect]
      · simp_all
    · rw [if_pos hlen]
      simp [hlen]
  | payToScriptHash =>
    dsimp only
    unfold viewPayToScriptHash isRedeemScript
    split <;> simp_all [InputView.effect]
  | payToScriptWitness =>
    dsimp only
    unfold viewPayToScriptWitness isWitnessScript
    split <;> simp_all [InputView.effect]
  | unknown => simp

/-- An item that does not match changes nothing. -/
theorem viewDirect_skip (tx : Transaction) (i : Nat) (digest : Data) (v : InputView)
    (h : matchesFunding c input item = false) : viewDirect c tx digest item i input v = v := by
  unfold matchesFunding at h
  cases ht : transactionInputType input with
  | payToPubkey =>
    rw [ht] at h
    exact viewDirect_pubkey_skip ht h
  | payToPubkeyHash =>
    rw [ht] at h
    exact viewDirect_pubkeyHash_skip ht h
  | payToPubkeyWitness =>
    rw [ht] at h
    unfold viewDirect viewPayToPubkeyWitness
    unfold signsKeyHash isKey at h
    rw [ht]
    dsimp only at h ⊢
    split
    · rfl
    · rename_i hlen
      rw [decide_eq_true (not_not.mp hlen), Bool.true_and] at h
      rw [h]
      rfl
  | payToScriptHash =>
    rw [ht] at h
    unfold viewDirect viewPayToScriptHash
    unfold isRedeemScript at h
    rw [ht]
    dsimp only at h ⊢
    rw [h]
    rfl
  | payToScriptWitness =>
    rw [ht] at h
    unfold viewDirect viewPayToScriptWitness
    unfold isWitnessScript at h
    rw [ht]
    dsimp only at h ⊢
    rw [h]
    rfl
  | unknown =>
    unfold viewDirect
    rw [ht]

/-- A step of the first pass signs exactly when the item is a key that signs. -/
theorem viewDirect_signed (tx : Transaction) (i : Nat) (digest : Data) (s : LegacySignature) :
    s ∈ (viewDirect c tx digest item i input v).signed ↔
      s ∈ v.signed ∨ signsDirect c input item = true ∧ s = ⟨i, digest, item⟩ := by
  unfold viewDirect signsDirect
  cases transactionInputType input with
  | payToPubkey =>
    dsimp only
    unfold viewPayToPubkey signsPubkey
    split
    · rename_i hlen
      simp [hlen]
    · rename_i hlen
      rw [not_not] at hlen
      rw [(viewScriptPubKeys_marks _ s).2]
      simp [hlen]
  | payToPubkeyHash =>
    dsimp only
    unfold viewPayToPubkeyHash signsPubkeyHash isKey viewHashedKey
    by_cases hlen : item.length = 32
    · rw [if_neg (not_not.mpr hlen)]
      split
      · simp_all [InputView.effect, InputView.record, InputView.setScriptSig]
      split
      · simp_all [InputView.effect, InputView.record, InputView.setScriptSig]
      · simp_all
    · rw [if_pos hlen]
      simp [hlen]
  | payToPubkeyWitness =>
    dsimp only
    unfold viewPayToPubkeyWitness
    split
    · simp
    split <;> simp [InputView.effect, InputView.setWitnessStack]
  | payToScriptHash =>
    dsimp only
    unfold viewPayToScriptHash
    split <;> simp [InputView.effect, InputView.setScriptSig]
  | payToScriptWitness =>
    dsimp only
    unfold viewPayToScriptWitness
    split <;> simp [InputView.effect, InputView.setWitnessStack]
  | unknown => simp

end

theorem viewDirects_affected (items : Datas) (v : InputView) :
    (viewDirects c tx i input false items v).affected = true ↔
      v.affected = true ∨ ∃ item ∈ items, matchesFunding c input item = true := by
  rw [viewDirects_marked]
  rw [foldl_hit (fun v : InputView => v.affected = true) (fun _ p => matchesFunding c input p.2 = true)]
  · conv_rhs => rw [← map_snd_marked false items]
    simp only [List.mem_map, exists_exists_and_eq_and]
  · intro v p hp
    exact (viewDirect_affected ..).mpr (Or.inr hp)
  · intro v p hp
    rw [viewDirect_affected]
    simp [hp]

theorem viewDirects_skip (items : Datas) (v : InputView) (h : ∀ item ∈ items, matchesFunding c input item = false) :
    viewDirects c tx i input false items v = v := by
  rw [viewDirects_marked]
  refine foldl_inv (fun w => w = v) rfl ?_
  intro p hp w hw
  have hmem : p.2 ∈ items := by
    rw [← map_snd_marked false items]
    exact List.mem_map.mpr ⟨p, hp, rfl⟩
  rw [viewDirect_skip tx i _ w (h p.2 hmem), hw]

/-- The signatures of the first pass. -/
theorem viewDirects_signed (items : Datas) (v : InputView) (s : LegacySignature) :
    s ∈ (viewDirects c tx i input false items v).signed ↔
      s ∈ v.signed ∨ ∃ p ∈ directSigners tx i (signsDirect c input) items, s = ⟨i, signingDigest tx p.1 i, p.2⟩ := by
  rw [viewDirects_after]
  rw [foldl_hit (fun v : InputView => s ∈ v.signed)
    (fun _ p => signsDirect c input p.2 = true ∧ s = ⟨i, signingDigest tx p.1 i, p.2⟩)]
  · simp only [directSigners, List.mem_filter, and_assoc]
  · intro v p hp
    exact (viewDirect_signed ..).mpr (Or.inr hp)
  · intro v p hp
    rw [viewDirect_signed]
    simp [hp]

/-! ## What the third pass signs -/

section

variable {digest : Data}

theorem viewScripts_witness (ht : transactionInputType input ≠ .payToScriptHash) (item : Data) (v : InputView) :
    viewScripts c tx digest item i input v = signWitnessKey c tx item i v := by
  rw [viewScripts_eq, if_neg fun h => ht h.1, if_neg ht]

theorem signWitnessKey_skip {item : Data} {v : InputView} (h : ¬ isScriptKey c (datasLast v.witnessStack) item = true) :
    signWitnessKey c tx item i v = v := if_neg h

theorem signed_signWitnessKey (item : Data) (v : InputView) : (signWitnessKey c tx item i v).signed = v.signed := by
  unfold signWitnessKey
  split <;> rfl

theorem scriptSig_signWitnessKey (item : Data) (v : InputView) : (signWitnessKey c tx item i v).scriptSig = v.scriptSig := by
  unfold signWitnessKey
  split <;> rfl

theorem affected_signWitnessKey (item : Data) {v : InputView} (h : v.affected = true) :
    (signWitnessKey c tx item i v).affected = true := by
  unfold signWitnessKey
  split
  · rfl
  · exact h

/-- The keys of the last element of the stack mark the input. -/
theorem signWitnessKeys_affected (items : Datas) (v : InputView) :
    (items.foldl (fun v item => signWitnessKey c tx item i v) v).affected = true ↔
      v.affected = true ∨ ∃ item ∈ items, isScriptKey c (datasLast v.witnessStack) item = true := by
  apply foldl_hit (fun v : InputView => v.affected = true) (fun v item => isScriptKey c (datasLast v.witnessStack) item = true)
  · intro v item hkey
    rw [signWitnessKey, if_pos hkey]
    rfl
  · intro v item hkey
    rw [signWitnessKey_skip hkey]
    exact ⟨Iff.rfl, fun _ => Iff.rfl⟩

/-- In the third pass only a key of the redeem script signs, over the digest of the pass. -/
theorem viewScripts_signed (item : Data) (v : InputView) (s : LegacySignature)
    (h : s ∈ (viewScripts c tx digest item i input v).signed) : s ∈ v.signed ∨ s.digest = digest := by
  rw [viewScripts_eq] at h
  split at h
  · exact Or.inl h
  rw [signed_signWitnessKey] at h
  split at h
  · unfold signRedeemKey at h
    split at h
    · rcases List.mem_append.mp h with h | h
      · exact Or.inl h
      · right
        rw [List.mem_singleton.mp h]
    · exact Or.inl h
  · exact Or.inl h

/-- A redeem script is signed exactly when a listed key is in it. -/
theorem viewScripts_signs (ht : transactionInputType input = .payToScriptHash) (items : Datas) (v : InputView) :
    (items.foldl (fun v item => viewScripts c tx digest item i input v) v).signed ≠ [] ↔
      v.signed ≠ [] ∨ ∃ item ∈ items, isScriptKey c v.redeem item = true := by
  apply foldl_hit (fun v : InputView => v.signed ≠ []) (fun v item => isScriptKey c v.redeem item = true)
  · intro v item hkey
    have hnested : ¬ (transactionInputType input = .payToScriptHash ∧ isNestedKey c v.redeem item = true) := by
      intro hn
      rw [isScriptKey_of_nestedKey hn.2] at hkey
      cases hkey
    rw [viewScripts_eq, if_neg hnested, signed_signWitnessKey, if_pos ht, signRedeemKey, if_pos hkey]
    simp [InputView.record]
  · intro v item hkey
    have hsame : (viewScripts c tx digest item i input v).signed = v.signed ∧
        (viewScripts c tx digest item i input v).scriptSig = v.scriptSig := by
      rw [viewScripts_eq]
      split
      · exact ⟨rfl, rfl⟩
      rw [signed_signWitnessKey, scriptSig_signWitnessKey, signRedeemKey, if_neg hkey]
      exact ⟨rfl, rfl⟩
    have hredeem : (viewScripts c tx digest item i input v).redeem = v.redeem := by
      rw [InputView.redeem, InputView.scriptSigData, hsame.2]
      rfl
    rw [hsame.1, hredeem]
    exact ⟨Iff.rfl, fun _ => Iff.rfl⟩

end

/-! ## What a run marks and signs -/

/-- The item matches the funding script or is a key of the last element of the stack; for an
    input that is not pay-to-script-hash. -/
def touches (c : Crypto) (input : TransactionInput) (item : Data) : Bool :=
  matchesFunding c input item || isScriptKey c (datasLast input.witnessStack) item

theorem signedView_eq (ht : transactionInputType input ≠ .payToScriptHash) :
    signedView c tx items i input =
      items.foldl (fun v item => signWitnessKey c tx item i v) (viewDirects c tx i input false items (startView input)) := by
  unfold signedView
  dsimp only
  rw [viewNesteds_skip ht]
  simp only [viewScripts_witness ht]

theorem signedView_affected (ht : transactionInputType input ≠ .payToScriptHash) :
    (signedView c tx items i input).affected = true ↔ ∃ item ∈ items, touches c input item = true := by
  rw [signedView_eq ht, signWitnessKeys_affected, viewDirects_affected]
  by_cases hmatch : ∃ item ∈ items, matchesFunding c input item = true
  · obtain ⟨item, hitem, hm⟩ := hmatch
    have htouch : ∃ item ∈ items, touches c input item = true := ⟨item, hitem, by rw [touches, hm, Bool.true_or]⟩
    simp only [htouch, iff_true]
    exact Or.inl (Or.inr ⟨item, hitem, hm⟩)
  · have hnone : ∀ item ∈ items, matchesFunding c input item = false := by
      intro item hitem
      exact Bool.eq_false_of_not_eq_true fun hm => hmatch ⟨item, hitem, hm⟩
    rw [viewDirects_skip items _ hnone]
    have hstart : (startView input).affected = false := rfl
    have hstack : (startView input).witnessStack = input.witnessStack := rfl
    simp only [hmatch, hstart, hstack, Bool.false_eq_true, false_or, touches, Bool.or_eq_true]
    constructor
    · intro ⟨item, hitem, hkey⟩
      exact ⟨item, hitem, Or.inr hkey⟩
    · intro ⟨item, hitem, hkey⟩
      rw [hnone item hitem] at hkey
      exact ⟨item, hitem, hkey.resolve_left (by decide)⟩

/-- An input that nothing touches is left as it was. -/
theorem signedView_untouched (ht : transactionInputType input ≠ .payToScriptHash)
    (h : ∀ item ∈ items, touches c input item = false) : signedView c tx items i input = startView input := by
  have hsplit : ∀ item ∈ items, matchesFunding c input item = false ∧
      isScriptKey c (datasLast input.witnessStack) item = false := by
    intro item hitem
    have := h item hitem
    rwa [touches, Bool.or_eq_false_iff] at this
  rw [signedView_eq ht, viewDirects_skip items _ fun item hitem => (hsplit item hitem).1]
  refine foldl_inv (fun w => w = startView input) rfl ?_
  intro item hitem w hw
  rw [hw, signWitnessKey_skip (Bool.not_eq_true _ ▸ (hsplit item hitem).2)]

/-- A pay-to-script-hash input that is not marked keeps its script sig. -/
theorem signedView_unaffected (ht : transactionInputType input = .payToScriptHash)
    (h : (signedView c tx items i input).affected = false) : (signedView c tx items i input).scriptSig = stashed input := by
  have hinv : (signedView c tx items i input).affected = true ∨
      (signedView c tx items i input).scriptSig = stashed input := by
    unfold signedView
    dsimp only
    refine foldl_inv (fun w : InputView => w.affected = true ∨ w.scriptSig = stashed input) ?_ ?_
    · refine foldl_inv (fun w : InputView => w.affected = true ∨ w.scriptSig = stashed input) ?_ ?_
      · rw [viewDirects_marked]
        refine foldl_inv (fun w : InputView => w.affected = true ∨ w.scriptSig = stashed input) (Or.inr rfl) ?_
        intro p _ w hw
        cases hmatch : matchesFunding c input p.2 with
        | true => exact Or.inl ((viewDirect_affected ..).mpr (Or.inr hmatch))
        | false => rwa [viewDirect_skip tx i _ w hmatch]
      · intro item _ w hw
        unfold viewNested
        split
        · split
          · exact Or.inl rfl
          · exact hw
        · exact hw
    · intro item _ w hw
      rw [viewScripts_eq]
      split
      · exact Or.inl rfl
      rw [scriptSig_signWitnessKey]
      unfold signRedeemKey
      split
      · exact Or.inl (affected_signWitnessKey _ rfl)
      · rcases hw with hw | hw
        · exact Or.inl (affected_signWitnessKey _ hw)
        · exact Or.inr hw
  rw [h] at hinv
  exact hinv.resolve_left (by decide)

/-- The legacy signatures of an input that is not pay-to-script-hash. -/
theorem signedView_signed (ht : transactionInputType input ≠ .payToScriptHash) (s : LegacySignature) :
    s ∈ (signedView c tx items i input).signed ↔
      ∃ p ∈ directSigners tx i (signsDirect c input) items, s = ⟨i, signingDigest tx p.1 i, p.2⟩ := by
  have hsigned : (signedView c tx items i input).signed =
      (viewDirects c tx i input false items (startView input)).signed := by
    rw [signedView_eq ht]
    refine foldl_inv (fun w : InputView => w.signed = _) rfl ?_
    intro item _ w hw
    rw [signed_signWitnessKey, hw]
  rw [hsigned, viewDirects_signed]
  simp [startView]

/-- The first two passes sign no pay-to-script-hash input. -/
theorem signed_before (ht : transactionInputType input = .payToScriptHash) :
    (items.foldl (fun v item => viewNested c item input v)
      (viewDirects c tx i input false items (startView input))).signed = [] := by
  refine foldl_inv (fun w : InputView => w.signed = []) ?_ ?_
  · rw [viewDirects_plain fun digest digest' item v => by simp only [viewDirect, ht]]
    refine foldl_inv (fun w : InputView => w.signed = []) rfl ?_
    intro item _ w hw
    unfold viewDirect viewPayToScriptHash
    rw [ht]
    dsimp only
    split <;> exact hw
  · intro item _ w hw
    unfold viewNested
    split
    · split <;> exact hw
    · exact hw

/-- The legacy signatures of a pay-to-script-hash input: all over one digest. -/
theorem signedView_signed_redeem (c : Crypto) (tx : Transaction) (i : Nat) (items : Datas)
    (ht : transactionInputType input = .payToScriptHash) :
    ((signedView c tx items i input).signed ≠ [] ↔ ∃ item ∈ items, isScriptKey c (redeemOf c items input) item = true) ∧
      ∀ s ∈ (signedView c tx items i input).signed, s.digest = redeemDigest tx (endsDirty false items) := by
  have hredeem : (items.foldl (fun v item => viewNested c item input v)
      (viewDirects c tx i input false items (startView input))).redeem = redeemOf c items input := by
    rw [InputView.redeem, scriptSigData_before ht, redeemOf]
  unfold signedView
  dsimp only
  constructor
  · rw [viewScripts_signs ht, signed_before ht, hredeem]
    simp
  · refine foldl_inv (fun w : InputView => ∀ s ∈ w.signed, s.digest = redeemDigest tx (endsDirty false items)) ?_ ?_
    · rw [signed_before ht]
      intro s hs
      cases hs
    · intro item _ w hw s hs
      rcases viewScripts_signed item w s hs with hs | hs
      · exact hw s hs
      · exact hs

/-! ## What the signatures write

The script sig of a legacy input is the one the input had, or the push of a listed redeem
script, with every signature put in as its type wants it. -/

/-- A signature put into the script sig of an input. -/
def writeSignature (c : Crypto) (input : TransactionInput) (scriptSig : Option Data) (s : LegacySignature) : Option Data :=
  let array := readPushes (scriptSig.getD none)
  match transactionInputType input with
  | .payToPubkey => some (some (writePushes (array ++ [signAll c s.digest s.key])))
  | .payToPubkeyHash => some (hashedKeyScriptSig c s.digest s.key input.fundingOutput.script)
  | .payToScriptHash =>
    some (some (writePushes (datasAddCopyIndex array (signAll c s.digest s.key) (array.length - 1))))
  | .payToPubkeyWitness | .payToScriptWitness | .unknown => scriptSig

/-- The script sig before any signature. -/
def unsignedScriptSig (c : Crypto) (items : Datas) (input : TransactionInput) : Option Data :=
  if transactionInputType input = .payToScriptHash then
    ((items.filter (isRedeemScript c input.fundingOutput.script)).getLast?.map fun item => some (some (scriptPush item))).getD
      (stashed input)
  else stashed input

/-- The script sig of a view holds its signatures, put into `scriptSig` one after the other;
    they are made with listed keys. -/
structure Written (c : Crypto) (items : Datas) (input : TransactionInput) (scriptSig : Option Data) (v : InputView) : Prop where
  scriptSig_eq : v.scriptSig = v.signed.foldl (writeSignature c input) scriptSig
  keys : ∀ s ∈ v.signed, s.key ∈ items

namespace Written

variable {scriptSig : Option Data} {v w : InputView} {s : LegacySignature}

theorem start (hsig : v.scriptSig = scriptSig) (hsigned : v.signed = []) : Written c items input scriptSig v := by
  refine ⟨?_, ?_⟩
  · rw [hsigned, hsig]
    rfl
  · simp [hsigned]

theorem same (h : Written c items input scriptSig v) (hsig : w.scriptSig = v.scriptSig) (hsigned : w.signed = v.signed) :
    Written c items input scriptSig w := by
  refine ⟨?_, ?_⟩
  · rw [hsig, hsigned, h.scriptSig_eq]
  · rw [hsigned]
    exact h.keys

theorem sign (h : Written c items input scriptSig v) (hkey : s.key ∈ items)
    (hsig : w.scriptSig = writeSignature c input v.scriptSig s) (hsigned : w.signed = v.signed ++ [s]) :
    Written c items input scriptSig w := by
  refine ⟨?_, ?_⟩
  · rw [hsig, hsigned, h.scriptSig_eq, List.foldl_append]
    rfl
  · intro s' hs'
    rw [hsigned] at hs'
    rcases List.mem_append.mp hs' with hold | hnew
    · exact h.keys s' hold
    · rw [List.mem_singleton.mp hnew]
      exact hkey

end Written

section

variable {digest item : Data} {scriptSig : Option Data} {v : InputView}

theorem viewPayToPubkey_written (ht : transactionInputType input = .payToPubkey) (hitem : item ∈ items)
    (h : Written c items input scriptSig v) :
    Written c items input scriptSig (viewPayToPubkey c digest item i input.fundingOutput.script v) := by
  unfold viewPayToPubkey
  split
  · exact h
  refine foldl_inv (Written c items input scriptSig) h ?_
  intro key _ w hw
  unfold viewScriptPubKey
  split
  · refine hw.sign (s := ⟨i, digest, item⟩) hitem ?_ rfl
    unfold writeSignature
    rw [ht]
    rfl
  · exact hw

theorem viewPayToPubkeyHash_written (ht : transactionInputType input = .payToPubkeyHash) (hitem : item ∈ items)
    (h : Written c items input scriptSig v) :
    Written c items input scriptSig (viewPayToPubkeyHash c digest item i input.fundingOutput.script v) := by
  unfold viewPayToPubkeyHash
  split
  · exact h
  split
  · rename_i hfull
    refine h.sign (s := ⟨i, digest, item⟩) hitem ?_ rfl
    unfold writeSignature hashedKeyScriptSig
    rw [ht, if_pos (Bool.and_eq_true_iff.mp hfull).2]
    rfl
  split
  · rename_i hfull hpub
    refine h.sign (s := ⟨i, digest, item⟩) hitem ?_ rfl
    have hnot : ¬ dataEqual (some (p2pkhPubScript (hash160 c (pubKeyFull c item)))) input.fundingOutput.script = true := by
      intro hsame
      exact hfull (Bool.and_eq_true_iff.mpr ⟨(Bool.and_eq_true_iff.mp hpub).1, hsame⟩)
    unfold writeSignature hashedKeyScriptSig
    rw [ht, if_neg hnot]
    rfl
  · exact h

theorem viewScripts_written (ht : transactionInputType input = .payToScriptHash) (hitem : item ∈ items)
    (h : Written c items input scriptSig v) : Written c items input scriptSig (viewScripts c tx digest item i input v) := by
  rw [viewScripts_eq, if_pos ht]
  split
  · exact h.same rfl rfl
  have hredeem : Written c items input scriptSig (signRedeemKey c digest item i v) := by
    unfold signRedeemKey
    split
    · refine h.sign (s := ⟨i, digest, item⟩) hitem ?_ rfl
      unfold writeSignature
      rw [ht]
      rfl
    · exact h
  exact hredeem.same (scriptSig_signWitnessKey ..) (signed_signWitnessKey ..)

end

/-- The signatures of a legacy input are in its script sig. -/
theorem signedView_written (hlegacy : (transactionInputType input).isLegacy = true) :
    Written c items input (unsignedScriptSig c items input) (signedView c tx items i input) := by
  by_cases ht : transactionInputType input = .payToScriptHash
  · unfold signedView unsignedScriptSig
    rw [if_pos ht]
    dsimp only
    refine foldl_inv (Written c items input _) (Written.start ?_ (signed_before ht)) ?_
    · rw [scriptSig_viewNesteds, scriptSig_viewDirects ht]
      rfl
    · intro item hitem w hw
      exact viewScripts_written ht hitem hw
  · unfold unsignedScriptSig
    rw [signedView_eq ht, if_neg ht]
    refine foldl_inv (Written c items input (stashed input)) ?_ ?_
    · rw [viewDirects_marked]
      refine foldl_inv (Written c items input (stashed input)) (Written.start rfl rfl) ?_
      intro p hp w hw
      have hitem : p.2 ∈ items := by
        rw [← map_snd_marked false items]
        exact List.mem_map_of_mem hp
      unfold viewDirect
      cases htype : transactionInputType input with
      | payToPubkey => exact viewPayToPubkey_written htype hitem hw
      | payToPubkeyHash => exact viewPayToPubkeyHash_written htype hitem hw
      | payToScriptHash => exact absurd htype ht
      | payToPubkeyWitness | payToScriptWitness | unknown =>
        rw [htype] at hlegacy
        cases hlegacy
    · intro item _ w hw
      exact hw.same (scriptSig_signWitnessKey ..) (signed_signWitnessKey ..)

/-! ## What finalizing leaves of the script data -/

theorem scriptData_sortedInput {x y : TransactionInput} (h : sortedInput c tx i x = some y) : y.scriptData = x.scriptData := by
  unfold sortedInput at h
  split at h
  · split at h
    · obtain rfl := Option.some.inj h
      rfl
    · cases h
  · split at h
    · cases h
    · obtain rfl := Option.some.inj h
      rfl

theorem correctedScriptData_congr {x y : TransactionInput} (h : x.scriptData = y.scriptData) :
    correctedScriptData x = correctedScriptData y := by
  unfold correctedScriptData transactionInputScriptStack
  rw [h]

theorem correctedScriptData_none {x : TransactionInput} (h : x.scriptData = none) : correctedScriptData x = some none := by
  have hstack : ¬ 1 < (transactionInputScriptStack x).length := by
    unfold transactionInputScriptStack
    rw [h]
    decide
  rw [correctedScriptData, if_neg hstack, h]

theorem scriptData_withScriptSigAside {f : TransactionInput → Option TransactionInput} {x y : TransactionInput}
    (ht : (transactionInputType x).isLegacy = true)
    (hf : ∀ a b, a.scriptData = none → f a = some b → b.scriptData = none) (h : withScriptSigAside f x = some y) :
    y.scriptData = x.scriptData := by
  obtain ⟨z, hz, rfl⟩ := Option.map_eq_some_iff.mp h
  have hclear : (clearScriptSig x).scriptData = none := by
    rw [clearScriptSig, if_pos ht]
  have hnone := hf _ _ hclear hz
  unfold restoredBy stashed
  rw [ht]
  cases hd : x.scriptData with
  | none => exact hnone
  | some d => rfl

/-- A script sig is set aside meanwhile. -/
theorem scriptData_finalInput {x y : TransactionInput} (ht : (transactionInputType x).isLegacy = true)
    (h : finalInput c tx i x = some y) : y.scriptData = x.scriptData := by
  obtain ⟨z, hsort, hcorrect⟩ := Option.bind_eq_some_iff.mp h
  have hcore : z.core = x.core := core_withScriptSigAside (fun _ _ => core_sortedInput) hsort
  have hz : (transactionInputType z).isLegacy = true := by rw [inputType_of_core hcore, ht]
  have hsorted := scriptData_withScriptSigAside ht (fun a b ha hab => (scriptData_sortedInput hab).trans ha) hsort
  have hcorrected := scriptData_withScriptSigAside hz (fun a b ha hab => by
    obtain ⟨stack, scriptData, -, hdata, rfl⟩ := correctInput_eq_some_iff.mp hab
    rw [correctedScriptData_none ha] at hdata
    exact (Option.some.inj hdata).symm) hcorrect
  rw [hcorrected, hsorted]

/-- Script data of other types is read as a script sig all the same. -/
theorem correctedScriptData_finalInput {x y : TransactionInput} (ht : (transactionInputType x).isLegacy = false)
    (h : finalInput c tx i x = some y) : correctedScriptData x = some y.scriptData := by
  obtain ⟨z, hsort, hcorrect⟩ := Option.bind_eq_some_iff.mp h
  have hcore : z.core = x.core := core_withScriptSigAside (fun _ _ => core_sortedInput) hsort
  have haside : ∀ {f : TransactionInput → Option TransactionInput} {a b : TransactionInput},
      (transactionInputType a).isLegacy = false → withScriptSigAside f a = some b → f a = some b := by
    intro f a b ha hab
    obtain ⟨b', hb', rfl⟩ := Option.map_eq_some_iff.mp hab
    rw [clearScriptSig, ha] at hb'
    unfold restoredBy stashed
    rw [ha]
    exact hb'
  have hz : (transactionInputType z).isLegacy = false := by rw [inputType_of_core hcore, ht]
  have hsame := scriptData_sortedInput (haside ht hsort)
  obtain ⟨stack, scriptData, -, hdata, rfl⟩ := correctInput_eq_some_iff.mp (haside hz hcorrect)
  rw [← correctedScriptData_congr hsame]
  exact hdata

/-! ## The condition -/

/-- What a legacy signature of the input should be over. -/
def scriptCode (c : Crypto) (items : Datas) (input : TransactionInput) : Data :=
  match transactionInputType input with
  | .payToPubkey | .payToPubkeyHash => input.fundingOutput.script
  | .payToScriptHash => redeemOf c items input
  | .payToPubkeyWitness | .payToScriptWitness | .unknown => none

/-- The legacy signatures of an input, in the order in which they are made. -/
def legacySignatures (c : Crypto) (tx : Transaction) (items : Datas) (i : Nat) : List LegacySignature :=
  (signPasses c tx items).signed.filter fun s => s.input = i

/-- The script sig a legacy input ends with holds `signAll` of the digest of each of its
    signatures, under a listed key, and nothing else that is new but a listed redeem script. -/
def SignaturesWritten (c : Crypto) (tx : Transaction) (items : Datas) (after : Transaction) : Prop :=
  ∀ i input, tx.inputs[i]? = some input → (transactionInputType input).isLegacy = true →
    (∀ s ∈ legacySignatures c tx items i, s.key ∈ items) ∧
      ∃ out, after.inputs[i]? = some out ∧ out.scriptData =
        ((legacySignatures c tx items i).foldl (writeSignature c input) (unsignedScriptSig c items input)).getD
          (carriedScript (endsDirty false items) input)

/-- Every legacy signature is over the script code of its input, with the other inputs empty. -/
def LegacyDigestsRight (c : Crypto) (tx : Transaction) (items : Datas) : Prop :=
  ∀ s ∈ (signPasses c tx items).signed, ∃ input, tx.inputs[s.input]? = some input ∧
    s.digest = legacyDigest tx s.input (scriptCode c items input)

/-- Inputs that are not in the list of affected ones keep their script data. -/
def UnsignedKept (before after : Transaction) (affected : List Nat) : Prop :=
  ∀ i input, before.inputs[i]? = some input → i ∉ affected →
    ∃ out, after.inputs[i]? = some out ∧ out.scriptData = input.scriptData

/-- Nothing goes wrong with the script data because of input `i`. -/
structure LegacyClean (c : Crypto) (tx : Transaction) (items : Datas) (i : Nat) (input : TransactionInput) : Prop where
  /-- In front of a key that signs there is a 32 byte item, or no later input to leave a
      script in, and no input carries script data that is not set aside. -/
  direct : ∀ p ∈ directSigners tx i (signsDirect c input) items, p.1 = false ∧ BareWitnessInputs tx
  redeem : transactionInputType input = .payToScriptHash →
    ∀ item ∈ items, isScriptKey c (redeemOf c items input) item = false
  /-- No script is left in an input without script data. -/
  left : carriesScript input = true → input.scriptData = none → (∀ item ∈ items, touches c input item = false) →
    endsDirty false items = false
  /-- The pushes of script data that is not set aside are not rewritten. -/
  pushes : (transactionInputType input).isLegacy = false → (∀ item ∈ items, touches c input item = false) →
    correctedScriptData input = some input.scriptData

theorem legacyDigestsRight_iff : LegacyDigestsRight c tx items ↔ ∀ i input, tx.inputs[i]? = some input →
    ∀ s ∈ (signedView c tx items i input).signed, s.digest = legacyDigest tx i (scriptCode c items input) := by
  have hrun := signPasses_run c tx items
  have hmem : ∀ i s, s ∈ (viewAt (signPasses c tx items) i).signed ↔ s ∈ (signPasses c tx items).signed ∧ s.input = i := by
    intro i s
    show s ∈ List.filter _ _ ↔ _
    rw [List.mem_filter, decide_eq_true_eq]
  constructor
  · intro h i input hin s hs
    rw [← hrun.views i input hin, hmem] at hs
    obtain ⟨input', hin', hdigest⟩ := h s hs.1
    rw [hs.2] at hin' hdigest
    obtain rfl := Option.some.inj (hin.symm.trans hin')
    exact hdigest
  · intro h s hs
    have hview := (hmem s.input s).mpr ⟨hs, rfl⟩
    cases hin : tx.inputs[s.input]? with
    | none =>
      rw [hrun.beyond s.input hin] at hview
      cases hview
    | some input =>
      rw [hrun.views s.input input hin] at hview
      exact ⟨input, rfl, h s.input input hin s hview⟩

/-- The signatures of one input. -/
theorem signedView_digests_iff (hsize : Sized tx) (hin : tx.inputs[i]? = some input) :
    (∀ s ∈ (signedView c tx items i input).signed, s.digest = legacyDigest tx i (scriptCode c items input)) ↔
      (∀ p ∈ directSigners tx i (signsDirect c input) items, p.1 = false ∧ BareWitnessInputs tx) ∧
        (transactionInputType input = .payToScriptHash →
          ∀ item ∈ items, isScriptKey c (redeemOf c items input) item = false) := by
  have hnodirect : carriesScript input = false → directSigners tx i (signsDirect c input) items = [] := by
    intro hcarries
    have hno : ∀ item, signsDirect c input item = false := by
      intro item
      unfold signsDirect
      unfold carriesScript at hcarries
      cases ht : transactionInputType input <;> simp [ht] at hcarries ⊢
    simp [directSigners, hno]
  by_cases ht : transactionInputType input = .payToScriptHash
  · obtain ⟨hsigns, hdigest⟩ := signedView_signed_redeem c tx i items ht
    have hcode : scriptCode c items input = redeemOf c items input := by
      unfold scriptCode
      rw [ht]
    rw [hnodirect (by simp [carriesScript, ht]), hcode]
    simp only [List.not_mem_nil, false_implies, implies_true, true_and]
    constructor
    · intro h _ item hitem
      by_contra hkey
      rw [Bool.not_eq_false] at hkey
      obtain ⟨s, hs⟩ := List.exists_mem_of_ne_nil _ (hsigns.mpr ⟨item, hitem, hkey⟩)
      have hne : (redeemOf c items input).length ≠ 0 := by
        intro hempty
        rw [isScriptKey_short (by omega)] at hkey
        cases hkey
      have hlt : (redeemOf c items input).length < 2 ^ 32 := by
        obtain ⟨before, hpushes⟩ := datasLast_eq_of_ne_nil hne
        have hmem : redeemOf c items input ∈ readPushes (redeemScriptSig c items input) := by
          rw [hpushes]
          exact List.mem_append_right _ (List.mem_singleton.mpr rfl)
        exact length_lt_of_mem_readPushes hmem
      exact redeemDigest_ne hsize hin ht hne hlt _ ((hdigest s hs).symm.trans (h s hs))
    · intro h s hs
      obtain ⟨item, hitem, hkey⟩ := hsigns.mp (List.ne_nil_of_mem hs)
      rw [h ht item hitem] at hkey
      cases hkey
  · simp only [signedView_signed ht, ht, false_implies, and_true]
    cases hcarries : carriesScript input with
    | false =>
      rw [hnodirect hcarries]
      simp
    | true =>
      have hcode : scriptCode c items input = input.fundingOutput.script := by
        unfold scriptCode
        unfold carriesScript at hcarries
        cases h : transactionInputType input <;> simp [h] at hcarries ⊢
      have hiff : ∀ p ∈ directSigners tx i (signsDirect c input) items,
          signingDigest tx p.1 i = legacyDigest tx i input.fundingOutput.script ↔ p.1 = false ∧ BareWitnessInputs tx := by
        intro p hp
        obtain ⟨q, -, rfl⟩ := List.mem_map.mp (List.mem_filter.mp hp).1
        exact signingDigest_eq_iff hsize hin hcarries q.1
      rw [hcode]
      constructor
      · intro h p hp
        exact (hiff p hp).mp (h _ ⟨p, hp, rfl⟩)
      · intro h s hs
        obtain ⟨p, hp, rfl⟩ := hs
        exact (hiff p hp).mpr (h p hp)

/-- The script data of one input that is not affected. -/
theorem unsigned_kept_iff {out : TransactionInput} (hfinal : finalInput c tx i (signedInput c tx items i input) = some out) :
    ((signedView c tx items i input).affected = false → out.scriptData = input.scriptData) ↔
      (carriesScript input = true → input.scriptData = none → (∀ item ∈ items, touches c input item = false) →
        endsDirty false items = false) ∧
      ((transactionInputType input).isLegacy = false → (∀ item ∈ items, touches c input item = false) →
        correctedScriptData input = some input.scriptData) := by
  have htype : transactionInputType (signedInput c tx items i input) = transactionInputType input := rfl
  have hlegacy : (transactionInputType input).isLegacy = true → out.scriptData =
      (signedView c tx items i input).scriptSig.getD (carriedScript (endsDirty false items) input) := by
    intro hl
    rw [scriptData_finalInput (htype ▸ hl) hfinal]
    rfl
  by_cases ht : transactionInputType input = .payToScriptHash
  · have hno : carriesScript input = false := by simp [carriesScript, ht]
    have hl : (transactionInputType input).isLegacy = true := by rw [ht]; rfl
    simp only [hno, hl, Bool.false_eq_true, Bool.true_eq_false, false_implies, and_self, iff_true]
    intro haff
    rw [hlegacy hl, signedView_unaffected ht haff, carriedScript, hno, hl]
    unfold stashed
    rw [hl]
    cases input.scriptData <;> rfl
  have haff : (signedView c tx items i input).affected = false ↔ ∀ item ∈ items, touches c input item = false := by
    rw [← Bool.not_eq_true, signedView_affected ht]
    simp
  rw [haff]
  cases hl : (transactionInputType input).isLegacy with
  | true =>
    have hcarries : carriesScript input = true := by
      unfold carriesScript
      cases h : transactionInputType input <;> simp_all [TransactionInputType.isLegacy]
    simp only [hcarries, Bool.true_eq_false, false_implies, and_true, true_implies]
    constructor
    · intro h hnone hun
      have hkept := h hun
      rw [hlegacy hl, signedView_untouched ht hun, hnone] at hkept
      by_contra hdirty
      rw [Bool.not_eq_false] at hdirty
      have hempty : input.fundingOutput.script = none := by
        simpa [startView, stashed, hl, hnone, carriedScript, hcarries, hdirty] using hkept
      exact funding_ne_empty hcarries (by rw [hempty]; rfl)
    · intro h hun
      rw [hlegacy hl, signedView_untouched ht hun]
      cases hd : input.scriptData with
      | none => simp [startView, stashed, hl, hd, carriedScript, hcarries, h hd hun]
      | some d => simp [startView, stashed, hl, hd]
  | false =>
    have hcarries : carriesScript input = false := by
      unfold carriesScript
      cases h : transactionInputType input <;> simp_all [TransactionInputType.isLegacy]
    simp only [hcarries, Bool.false_eq_true, false_implies, true_and, true_implies]
    have hcorrected := correctedScriptData_finalInput (htype ▸ hl) hfinal
    have hdata : (∀ item ∈ items, touches c input item = false) →
        (signedInput c tx items i input).scriptData = input.scriptData := by
      intro hun
      unfold signedInput
      rw [signedView_untouched ht hun]
      simp [startView, stashed, hl, carriedScript, hcarries]
    constructor
    · intro h hun
      rw [← correctedScriptData_congr (hdata hun), hcorrected, h hun]
    · intro h hun
      rw [correctedScriptData_congr (hdata hun), h hun] at hcorrected
      exact (Option.some.inj hcorrected).symm

/-- Whatever the digests are, the signatures over them are what a call writes. -/
theorem transactionSign_written {tx' : Transaction} {affected : List Nat}
    (h : transactionSign c tx items = some (tx', affected)) : SignaturesWritten c tx items tx' := by
  obtain ⟨hmapped, -⟩ := transactionSign_iff.mp h
  intro i input hin hlegacy
  obtain ⟨hsig, hkeys⟩ : Written c items input _ (signedView c tx items i input) := signedView_written hlegacy
  have hsigned : (signedView c tx items i input).signed = legacySignatures c tx items i := by
    rw [← (signPasses_run c tx items).views i input hin]
    rfl
  rw [hsigned] at hsig hkeys
  obtain ⟨out, hout, hfinal⟩ := hmapped.inputs.get hin
  have htype : transactionInputType (signedInput c tx items i input) = transactionInputType input := rfl
  refine ⟨hkeys, out, hout, ?_⟩
  rw [scriptData_finalInput (htype ▸ hlegacy) hfinal, ← hsig]
  rfl

/-- The signatures a call writes are all over the right digest, and it keeps the script data
    of the inputs it did not sign, exactly when every input is clean. -/
theorem transactionSign_legacy_iff {tx' : Transaction} {affected : List Nat} (hsize : Sized tx)
    (h : transactionSign c tx items = some (tx', affected)) :
    SignaturesWritten c tx items tx' ∧ LegacyDigestsRight c tx items ∧ UnsignedKept tx tx' affected ↔
      ∀ i input, tx.inputs[i]? = some input → LegacyClean c tx items i input := by
  have hwritten := transactionSign_written h
  obtain ⟨hmapped, haffected⟩ := transactionSign_iff.mp h
  have haff : ∀ i input, tx.inputs[i]? = some input →
      (i ∉ affected ↔ (signedView c tx items i input).affected = false) := by
    intro i input hin
    rw [haffected, mem_trimDuplicateInstances, ← (signPasses_run c tx items).views i input hin]
    simp [viewAt]
  have hkept : UnsignedKept tx tx' affected ↔ ∀ (i : Nat) (input : TransactionInput), tx.inputs[i]? = some input →
      (carriesScript input = true → input.scriptData = none → (∀ item ∈ items, touches c input item = false) →
        endsDirty false items = false) ∧
      ((transactionInputType input).isLegacy = false → (∀ item ∈ items, touches c input item = false) →
        correctedScriptData input = some input.scriptData) := by
    constructor
    · intro hkeep i input hin
      obtain ⟨out, hout, hfinal⟩ := hmapped.inputs.get hin
      rw [← unsigned_kept_iff hfinal]
      intro hun
      obtain ⟨out', hout', hdata⟩ := hkeep i input hin ((haff i input hin).mpr hun)
      obtain rfl := Option.some.inj (hout.symm.trans hout')
      exact hdata
    · intro hclean i input hin hun
      obtain ⟨out, hout, hfinal⟩ := hmapped.inputs.get hin
      have hdata := (unsigned_kept_iff hfinal).mpr (hclean i input hin)
      exact ⟨out, hout, hdata ((haff i input hin).mp hun)⟩
  rw [legacyDigestsRight_iff, hkept]
  constructor
  · intro hall i input hin
    obtain ⟨-, hdigests, hdata⟩ := hall
    obtain ⟨hdirect, hredeem⟩ := (signedView_digests_iff hsize hin).mp (hdigests i input hin)
    exact ⟨hdirect, hredeem, (hdata i input hin).1, (hdata i input hin).2⟩
  · intro hclean
    refine ⟨hwritten, ?_, ?_⟩
    · intro i input hin
      have hi := hclean i input hin
      exact (signedView_digests_iff hsize hin).mpr ⟨hi.direct, hi.redeem⟩
    · intro i input hin
      have hi := hclean i input hin
      exact ⟨hi.left, hi.pushes⟩

/-! ## Legacy signing on fixed inputs -/

/-- Two inputs that pay to the key of `signerKey 1`. -/
def twoPubkeyTransaction : Transaction :=
  { pubkeyTransaction with inputs := pubkeyTransaction.inputs ++ pubkeyTransaction.inputs }

/-- A script in front of the key: the first signature is made with the funding script still
    in the second input. -/
theorem not_transactionSign_legacy :
    ¬ ∀ (c : Crypto) (tx : Transaction) (items : Datas) (tx' : Transaction) (affected : List Nat), Sized tx →
      transactionSign c tx items = some (tx', affected) →
      SignaturesWritten c tx items tx' ∧ LegacyDigestsRight c tx items ∧ UnsignedKept tx tx' affected := by
  intro h
  have hcall : (transactionSign plainCrypto twoPubkeyTransaction [some [0x51], signerKey 1]).isSome = true := by
    decide +kernel
  obtain ⟨⟨tx', affected⟩, hsome⟩ := Option.isSome_iff_exists.mp hcall
  have hsize : Sized twoPubkeyTransaction := by
    unfold Sized
    decide +kernel
  have hright := (h plainCrypto twoPubkeyTransaction _ tx' affected hsize hsome).2.1
  obtain ⟨s, hs, h0, hne⟩ : ∃ s ∈ (signPasses plainCrypto twoPubkeyTransaction [some [0x51], signerKey 1]).signed,
      s.input = 0 ∧ ∀ input ∈ twoPubkeyTransaction.inputs,
        s.digest ≠ legacyDigest twoPubkeyTransaction 0 (scriptCode plainCrypto [some [0x51], signerKey 1] input) := by
    decide +kernel
  obtain ⟨input, hin, hdigest⟩ := hright s hs
  rw [h0] at hdigest
  exact hne input (List.mem_of_getElem? hin) hdigest

/-- A key alone. -/
theorem transactionSign_legacy_pubkey :
    ∃ tx' affected, transactionSign plainCrypto twoPubkeyTransaction [signerKey 1] = some (tx', affected) ∧
      SignaturesWritten plainCrypto twoPubkeyTransaction [signerKey 1] tx' ∧
      LegacyDigestsRight plainCrypto twoPubkeyTransaction [signerKey 1] ∧
      UnsignedKept twoPubkeyTransaction tx' affected := by
  have hcall : (transactionSign plainCrypto twoPubkeyTransaction [signerKey 1]).isSome = true := by decide +kernel
  obtain ⟨⟨tx', affected⟩, hsome⟩ := Option.isSome_iff_exists.mp hcall
  have hsize : Sized twoPubkeyTransaction := by
    unfold Sized
    decide +kernel
  refine ⟨tx', affected, hsome, (transactionSign_legacy_iff hsize hsome).mpr ?_⟩
  have hfacts : ∀ k < 2, ∀ input ∈ twoPubkeyTransaction.inputs, transactionInputType input = .payToPubkey ∧
      touches plainCrypto input (signerKey 1) = true ∧
      ∀ p ∈ directSigners twoPubkeyTransaction k (signsDirect plainCrypto input) [signerKey 1], p.1 = false := by
    decide +kernel
  have hbare : BareWitnessInputs twoPubkeyTransaction := by
    unfold BareWitnessInputs
    decide +kernel
  intro k input hin
  have hk : k < 2 := (List.getElem?_eq_some_iff.mp hin).1
  obtain ⟨htype, htouch, hsigners⟩ := hfacts k hk input (List.mem_of_getElem? hin)
  have htouched : ¬ ∀ item ∈ [signerKey 1], touches plainCrypto input item = false := by
    intro hnone
    rw [hnone _ List.mem_cons_self] at htouch
    cases htouch
  exact {
    direct := fun p hp => ⟨hsigners p hp, hbare⟩
    redeem := fun ht => absurd (htype.symm.trans ht) (by decide)
    left := fun _ _ hnone => absurd hnone htouched
    pushes := fun _ hnone => absurd hnone htouched }

end BitcoinSpoon
