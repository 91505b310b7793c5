/-
  BitcoinSpoon.Transaction.Redeem — the script sig of a pay-to-script-hash input while the
  passes run.

  The first pass pushes a listed redeem script (`redeemScriptSig`), the second reads it,
  the third puts signatures in front of it by reading the pushes and writing them back.
  Writing back loses what follows an empty push, so the redeem script the third pass sees
  is the last push until a signature has been put in, and from then on the last push in
  front of an empty one (`settledRedeem`).
-/

import Mathlib.Data.List.TakeWhile
import BitcoinSpoon.Util.Pushes
import BitcoinSpoon.Transaction.PerInput

namespace BitcoinSpoon

open Wire

variable {c : Crypto} {tx : Transaction} {i : Nat} {input : TransactionInput}

/-! ## Signatures are short -/

/-- A signature is a type byte after nothing or after a DER string. -/
theorem signAll_length (c : Crypto) (digest key : Data) :
    (signAll c digest key).length ≠ 0 ∧ (signAll c digest key).length < 2 ^ 32 := by
  have hder : ∀ signature : Data, (signatureDER c signature).length ≤ 72 := by
    intro signature
    unfold signatureDER
    split
    · decide
    · cases hser : c.ecdsaSignatureSerializeDer signature.toBytes with
      | none => decide
      | some b => exact c.ecdsaSignatureSerializeDer_length _ _ hser
  have hlen : (signAll c digest key).length =
      (signatureDER c (signatureCreate c (hash256 c digest) key)).length + 1 := by
    show (_ ++ _ : Bytes).length = _
    rw [List.length_append]
    rfl
  have := hder (signatureCreate c (hash256 c digest) key)
  omega

/-! ## The redeem script -/

/-- The script sig after the first pass. -/
def redeemScriptSig (c : Crypto) (items : Datas) (input : TransactionInput) : Data :=
  items.foldl
    (fun scriptSig item =>
      if dataEqual (some (p2shPubScriptWithScript c item)) input.fundingOutput.script then some (scriptPush item)
      else scriptSig)
    input.scriptData

/-- The last push in front of an empty one. -/
def settledRedeem (scriptSig : Data) : Data := datasLast ((readPushes scriptSig).takeWhile (·.length ≠ 0))

theorem scriptSigData_start (hp2sh : transactionInputType input = .payToScriptHash) :
    (startView input).scriptSigData = input.scriptData := by
  unfold startView InputView.scriptSigData stashed
  rw [hp2sh]
  cases input.scriptData <;> rfl

theorem scriptSigData_viewDirects (hp2sh : transactionInputType input = .payToScriptHash) (dirty : Bool) (items : Datas)
    (v : InputView) :
    (viewDirects c tx i input dirty items v).scriptSigData =
      items.foldl
        (fun scriptSig item =>
          if dataEqual (some (p2shPubScriptWithScript c item)) input.fundingOutput.script then some (scriptPush item)
          else scriptSig)
        v.scriptSigData := by
  induction items generalizing dirty v with
  | nil => rfl
  | cons item items ih =>
    rw [viewDirects, ih, List.foldl_cons]
    congr 1
    unfold viewDirect viewPayToScriptHash
    rw [hp2sh]
    dsimp only
    split <;> rfl

theorem scriptSig_viewNested (item : Data) (v : InputView) : (viewNested c item input v).scriptSig = v.scriptSig := by
  unfold viewNested
  split
  · split <;> rfl
  · rfl

theorem scriptSig_viewNesteds (items : Datas) (v : InputView) :
    (items.foldl (fun v item => viewNested c item input v) v).scriptSig = v.scriptSig := by
  refine Loop.foldl_inv (fun w : InputView => w.scriptSig = v.scriptSig) rfl ?_
  intro item _ w hw
  rw [scriptSig_viewNested, hw]

/-! ## Putting signatures in front of it -/

theorem datasLast_eq_of_ne_nil {script : Data} (h : (datasLast (readPushes script)).length ≠ 0) :
    ∃ before, readPushes script = before ++ [datasLast (readPushes script)] := by
  have hne : readPushes script ≠ [] := by
    intro hnil
    rw [hnil] at h
    exact h rfl
  exact ⟨(readPushes script).dropLast, (dropLast_concat_datasLast hne).symm⟩

theorem takeWhile_last_insert {p : Data → Bool} {before : Datas} {sig last : Data} (hsig : p sig = true)
    (hlast : p last = true) :
    datasLast ((before ++ [sig, last]).takeWhile p) = datasLast ((before ++ [last]).takeWhile p) := by
  induction before with
  | nil => simp [hsig, hlast, datasLast]
  | cons d before ih =>
    rw [List.cons_append, List.cons_append]
    by_cases hd : p d = true
    · rw [List.takeWhile_cons_of_pos hd, List.takeWhile_cons_of_pos hd]
      have hcons : ∀ l : Datas, datasLast (d :: l) = if l = [] then d else datasLast l := by
        intro l
        cases l with
        | nil => rfl
        | cons x l => simp [datasLast]
      have hnil : ∀ x : Data, p x = true → ∀ rest : Datas,
          ((before ++ x :: rest).takeWhile p = [] ↔ (before ++ [last]).takeWhile p = []) := by
        intro x hx rest
        cases before with
        | nil => simp [hx, hlast]
        | cons y before => simp only [List.cons_append, List.takeWhile_cons]; split <;> simp
      rw [hcons, hcons, ih]
      simp only [hnil sig hsig [last]]
    · rw [List.takeWhile_cons_of_neg hd, List.takeWhile_cons_of_neg hd]

/-- What is read back after a signature has been put in front of the last push. -/
theorem readPushes_insert {scriptSig sig : Data} (hlast : (datasLast (readPushes scriptSig)).length ≠ 0)
    (hsig : sig.length ≠ 0 ∧ sig.length < 2 ^ 32) :
    let inserted : Data :=
      some (writePushes (datasAddCopyIndex (readPushes scriptSig) sig ((readPushes scriptSig).length - 1)))
    (∀ d ∈ readPushes inserted, d.length ≠ 0) ∧
      (datasLast (readPushes inserted)).toBytes = (settledRedeem scriptSig).toBytes := by
  obtain ⟨before, hpushes⟩ := datasLast_eq_of_ne_nil hlast
  have hlt : ∀ d ∈ readPushes scriptSig, d.length < 2 ^ 32 := fun d hd => length_lt_of_mem_readPushes hd
  unfold settledRedeem
  generalize datasLast (readPushes scriptSig) = last at hlast hpushes
  rw [hpushes] at hlt ⊢
  intro inserted
  have hinserted : readPushes inserted =
      ((before ++ [sig, last]).takeWhile (·.length ≠ 0)).map fun d => some d.toBytes := by
    show readPushes (some (writePushes _)) = _
    rw [datasAddCopyIndex_concat]
    apply readPushes_writePushes
    intro d hd
    simp only [List.mem_append, List.mem_cons, List.not_mem_nil, or_false] at hd hlt
    rcases hd with hd | rfl | rfl
    · exact hlt d (Or.inl hd)
    · exact hsig.2
    · exact hlt d (Or.inr rfl)
  rw [hinserted]
  constructor
  · intro d hd
    obtain ⟨x, hx, rfl⟩ := List.mem_map.mp hd
    have hx0 : x.length ≠ 0 := by simpa using List.mem_takeWhile_imp hx
    exact hx0
  · have hmap : ∀ l : Datas, (datasLast (l.map fun d => some d.toBytes)).toBytes = (datasLast l).toBytes := by
      intro l
      rw [datasLast, datasLast, List.getLast?_map]
      cases l.getLast? <;> rfl
    rw [hmap, takeWhile_last_insert (by simpa using hsig.1) (by simpa using hlast)]

/-- Without empty pushes the last one is the settled one. -/
theorem settledRedeem_eq {scriptSig : Data} (h : ∀ d ∈ readPushes scriptSig, d.length ≠ 0) :
    settledRedeem scriptSig = datasLast (readPushes scriptSig) := by
  unfold settledRedeem
  congr 1
  rw [List.takeWhile_eq_self_iff]
  intro d hd
  simpa using h d hd

/-- The redeem script the third pass reads: the last push, and the settled one once a
    signature is in. -/
def redeemMet (scriptSig : Data) (settled : Bool) : Data :=
  if settled then settledRedeem scriptSig else datasLast (readPushes scriptSig)

/-- The script sig `s` of the third pass: still `s₀`, or with signatures put in. -/
def SettledAt (s₀ : Data) (settled : Bool) (s : Data) : Prop :=
  if settled then (∀ d ∈ readPushes s, d.length ≠ 0) ∧ (datasLast (readPushes s)).toBytes = (settledRedeem s₀).toBytes
  else s = s₀

theorem redeem_of_settledAt {s₀ s : Data} {settled : Bool} (h : SettledAt s₀ settled s) :
    (datasLast (readPushes s)).toBytes = (redeemMet s₀ settled).toBytes := by
  cases settled with
  | false => rw [show s = s₀ from h, redeemMet, if_neg (by decide)]
  | true => rw [h.2, redeemMet, if_pos rfl]

/-! ## The two readers of a script sig -/

/-- `TransactionInputScriptStack` gives every list back, `readPushes` stops at an empty
    item. -/
theorem pushes_round_trip {items : List Bytes} (h : ∀ item ∈ items, item.length < 2 ^ 32) {input : TransactionInput}
    (hinput : input.scriptData = some (writePushes (items.map some))) :
    readPushes (some (writePushes (items.map some))) = items.map some ∧ transactionInputScriptStack input = items.map some ↔
      ∀ item ∈ items, item ≠ [] := by
  have hitems : ∀ d ∈ items.map some, Data.length d < 2 ^ 32 := by
    intro d hd
    obtain ⟨item, hitem, rfl⟩ := List.mem_map.mp hd
    exact h item hitem
  have hstack : transactionInputScriptStack input = items.map some := by
    rw [transactionInputScriptStack, hinput]
    refine (scriptStackFrom_writePushes hitems (Nat.le_refl _)).trans ?_
    rw [List.map_map]
    rfl
  have hread : readPushes (some (writePushes (items.map some))) = (items.takeWhile (· ≠ [])).map some := by
    have hempty : (fun d : Data => decide (d.length ≠ 0)) ∘ some = fun item : Bytes => decide (item ≠ []) := by
      funext item
      cases item <;> simp
    rw [readPushes_writePushes hitems, List.takeWhile_map, hempty, List.map_map]
    rfl
  rw [hread, and_iff_left hstack, List.map_inj_right fun _ _ => Option.some.inj, List.takeWhile_eq_self_iff]
  simp

/-- A signature, a long script and a short one. -/
def threeItems : List Bytes := [0x30 :: List.replicate 70 1, List.replicate 80 2, [0x51]]

theorem pushes_round_trip_three :
    readPushes (some (writePushes (threeItems.map some))) = threeItems.map some ∧
      transactionInputScriptStack { (default : TransactionInput) with scriptData := some (writePushes (threeItems.map some)) } =
        threeItems.map some :=
  (pushes_round_trip (show ∀ item ∈ threeItems, item.length < 2 ^ 32 by decide) rfl).2 (by simp [threeItems])

/-- The empty item alone. -/
theorem not_pushes_round_trip :
    ¬ ∀ items : List Bytes, (∀ item ∈ items, item.length < 2 ^ 32) → ∀ input : TransactionInput,
      input.scriptData = some (writePushes (items.map some)) →
        readPushes (some (writePushes (items.map some))) = items.map some ∧
          transactionInputScriptStack input = items.map some := by
  intro hall
  have h := (hall [[]] (by decide) { (default : TransactionInput) with scriptData := some [0] } (by decide)).1
  exact absurd h (by decide)

end BitcoinSpoon
