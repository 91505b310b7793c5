/-
  BitcoinSpoon.Util.Tokenizer — what the tokens of a script say about it (`scriptToTokens`,
  `firstError`, `code/BTCUtil.c`).

  `overrun` is the first place where a push of the script runs past its end: in its length
  field or in its data. Nothing comes after either, since the readers move the cursor to
  the end. Data that is cut off is reported. A length field that is cut off reads as 0,
  and a push of 0 bytes is complete: no error, and the tokens written back are longer
  than the script (`tokenized_exactly_iff`).
-/

import BitcoinSpoon.Util.Tokens

namespace BitcoinSpoon

open Wire

/-- The first error of the tokens; NULL when there is none. -/
def firstError (script : Data) : Option String := (scriptToTokens script).findSome? (·.error)

/-! ## Tokens as bytes -/

/-- The bytes of the length field of a push. -/
def lengthBytes (op : Nat) : Nat :=
  if op = OP_PUSHDATA1 then 1 else if op = OP_PUSHDATA2 then 2 else if op = OP_PUSHDATA4 then 4 else 0

/-- The opcode, the length of a PUSHDATA1, PUSHDATA2 or PUSHDATA4, and the data. -/
def tokenBytes (token : ScriptToken) : Bytes :=
  uint8D token.op ++ leBytes (lengthBytes token.op) token.data.length ++ token.data.toBytes

inductive Overrun where
  | length
  | data
  deriving DecidableEq, Repr

/-- The size a push announces; its length field is in front of `rest`. -/
def pushSize (op : UInt8) (rest : Bytes) : Nat :=
  if lengthBytes op.toNat = 0 then op.toNat else leNat (rest.take (lengthBytes op.toNat))

/-- Every round consumes a byte. -/
def overrunFrom : Nat → Bytes → Option Overrun
  | 0, _ => none
  | _ + 1, [] => none
  | rounds + 1, op :: rest =>
    if isPushData (op :: rest) then
      if rest.length < lengthBytes op.toNat then some .length
      else if rest.length < lengthBytes op.toNat + pushSize op rest then some .data
      else overrunFrom rounds (rest.drop (lengthBytes op.toNat + pushSize op rest))
    else overrunFrom rounds rest

/-- Where a push of the script runs past its end, if one does. -/
def overrun (script : Bytes) : Option Overrun := overrunFrom script.length script

/-! ## One token -/

section

variable {x : UInt8} {b : Bytes}

theorem isPushData_iff : isPushData (x :: b) = true ↔ 0 < x.toNat ∧ x.toNat ≤ OP_PUSHDATA4 := by
  rw [isPushData_cons, Bool.and_eq_true, decide_eq_true_iff, decide_eq_true_iff]

/-- A length field that is cut off reads as 0. -/
theorem readPushDataWithOp_run (h : isPushData (x :: b) = true) :
    readPushDataWithOp (x :: b) =
      if b.length < lengthBytes x.toNat then ((0, x.toNat), [])
      else ((pushSize x b, x.toNat), b.drop (lengthBytes x.toNat)) := by
  have hle := (isPushData_iff.mp h).2
  have hread : ∀ k, 0 < k → lengthBytes x.toNat = k → readLE k b =
      if b.length < lengthBytes x.toNat then (0, []) else (pushSize x b, b.drop (lengthBytes x.toNat)) := by
    intro k hk hw
    have hsize : pushSize x b = leNat (b.take k) := by
      unfold pushSize
      rw [hw, if_neg (show ¬ k = 0 by omega)]
    rw [hsize, hw]
    unfold readLE
    by_cases hlen : b.length < k
    · rw [if_pos hlen, if_neg (show ¬ k ≤ b.length by omega)]
    · rw [if_neg hlen, if_pos (show k ≤ b.length by omega)]
  unfold readPushDataWithOp
  rw [bind_run, uint8readP_cons]
  dsimp only
  by_cases h1 : x.toNat < OP_PUSHDATA1
  · have hw : lengthBytes x.toNat = 0 := by
      unfold lengthBytes
      unfold OP_PUSHDATA1 OP_PUSHDATA2 OP_PUSHDATA4 at *
      rw [if_neg (by omega), if_neg (by omega), if_neg (by omega)]
    rw [if_pos h1, pushSize, hw, if_neg (Nat.not_lt_zero _), if_pos rfl]
    rfl
  rw [if_neg h1]
  by_cases h2 : x.toNat = OP_PUSHDATA1
  · rw [if_pos h2, bind_run, uint8readP, hread 1 (by decide) (by rw [lengthBytes, if_pos h2])]
    split <;> rfl
  rw [if_neg h2]
  by_cases h3 : x.toNat = OP_PUSHDATA2
  · rw [if_pos h3, bind_run, uint16readP, hread 2 (by decide) (by rw [lengthBytes, if_neg h2, if_pos h3])]
    split <;> rfl
  have h4 : x.toNat = OP_PUSHDATA4 := by
    unfold OP_PUSHDATA1 OP_PUSHDATA2 OP_PUSHDATA4 at *
    omega
  rw [if_neg h3, bind_run, uint32readP, hread 4 (by decide) (by rw [lengthBytes, if_neg h2, if_neg h3, if_pos h4])]
  split <;> rfl

theorem readToken_cut_length (h : isPushData (x :: b) = true) (hcut : b.length < lengthBytes x.toNat) :
    readToken (x :: b) = (pushToken x.toNat [], []) := by
  unfold readToken
  rw [h, if_pos rfl, readPushDataWithOp_run h, if_pos hcut]
  rfl

theorem readToken_cut_data (h : isPushData (x :: b) = true) (hw : ¬ b.length < lengthBytes x.toNat)
    (hcut : b.length < lengthBytes x.toNat + pushSize x b) :
    (readToken (x :: b)).1.error ≠ none ∧ (readToken (x :: b)).2 = [] := by
  have hraw : readBytesUnsafe (pushSize x b) (b.drop (lengthBytes x.toNat)) = (none, []) := by
    unfold readBytesUnsafe readRaw
    rw [if_neg (by rw [List.length_drop]; omega)]
  unfold readToken
  rw [h, if_pos rfl, readPushDataWithOp_run h, if_neg hw]
  dsimp only
  rw [hraw]
  have hsize : ¬ 0 = pushSize x b := by omega
  simp [hsize]

theorem readToken_whole (h : isPushData (x :: b) = true) (hfits : ¬ b.length < lengthBytes x.toNat + pushSize x b) :
    readToken (x :: b) =
      (pushToken x.toNat ((b.drop (lengthBytes x.toNat)).take (pushSize x b)),
        b.drop (lengthBytes x.toNat + pushSize x b)) := by
  have hle : pushSize x b ≤ (b.drop (lengthBytes x.toNat)).length := by
    rw [List.length_drop]
    omega
  have hraw : readBytesUnsafe (pushSize x b) (b.drop (lengthBytes x.toNat)) =
      (some ((b.drop (lengthBytes x.toNat)).take (pushSize x b)), b.drop (lengthBytes x.toNat + pushSize x b)) := by
    unfold readBytesUnsafe readRaw
    rw [if_pos hle, List.drop_drop]
  unfold readToken
  rw [h, if_pos rfl, readPushDataWithOp_run h, if_neg (by omega)]
  dsimp only
  rw [hraw]
  have hlen : Data.length (some ((b.drop (lengthBytes x.toNat)).take (pushSize x b))) = pushSize x b := by
    rw [length_some, List.length_take]
    omega
  simp [hlen, pushToken]

/-- The bytes of a token that was read whole are the bytes that were read. -/
theorem tokenBytes_whole (hfits : ¬ b.length < lengthBytes x.toNat + pushSize x b) :
    tokenBytes (pushToken x.toNat ((b.drop (lengthBytes x.toNat)).take (pushSize x b))) =
      x :: b.take (lengthBytes x.toNat + pushSize x b) := by
  have hop : uint8D x.toNat = [x] := by
    show [UInt8.ofNat x.toNat] = [x]
    rw [UInt8.ofNat_toNat]
  have hlen : ((b.drop (lengthBytes x.toNat)).take (pushSize x b)).length = pushSize x b := by
    rw [List.length_take, List.length_drop]
    omega
  have hfield : leBytes (lengthBytes x.toNat) (pushSize x b) = b.take (lengthBytes x.toNat) := by
    unfold pushSize
    by_cases hw : lengthBytes x.toNat = 0
    · rw [hw]
      rfl
    · rw [if_neg hw]
      have htake : (b.take (lengthBytes x.toNat)).length = lengthBytes x.toNat := by
        rw [List.length_take]
        omega
      have hread := leBytes_leNat (b.take (lengthBytes x.toNat))
      rwa [htake] at hread
  show uint8D x.toNat ++ leBytes (lengthBytes x.toNat) ((b.drop (lengthBytes x.toNat)).take (pushSize x b)).length ++
    (b.drop (lengthBytes x.toNat)).take (pushSize x b) = _
  rw [hlen, hop, hfield, List.append_assoc, ← List.take_add]
  rfl

end

/-! ## The whole script -/

/-- What the tokens of `b` say, by where a push runs past the end. -/
def Tells (tokens : ScriptTokens) (b : Bytes) : Option Overrun → Prop
  | none => tokens.findSome? (·.error) = none ∧ tokens.flatMap tokenBytes = b
  | some .data => tokens.findSome? (·.error) ≠ none
  | some .length => tokens.findSome? (·.error) = none ∧ b.length < (tokens.flatMap tokenBytes).length

theorem Tells.cons {token : ScriptToken} {tokens : ScriptTokens} {b rest : Bytes} {beyond : Option Overrun}
    (herror : token.error = none) (hbytes : tokenBytes token ++ rest = b) (h : Tells tokens rest beyond) :
    Tells (token :: tokens) b beyond := by
  have hfind : (token :: tokens).findSome? (·.error) = tokens.findSome? (·.error) := by
    rw [List.findSome?_cons, herror]
  have hwritten : (token :: tokens).flatMap tokenBytes = tokenBytes token ++ tokens.flatMap tokenBytes := by
    rw [List.flatMap_cons]
  cases beyond with
  | none => exact ⟨hfind.trans h.1, by rw [hwritten, h.2, hbytes]⟩
  | some beyond =>
    cases beyond with
    | data => exact fun hnone => h (hfind.symm.trans hnone)
    | length =>
      have hshort := h.2
      refine ⟨hfind.trans h.1, ?_⟩
      rw [hwritten, ← hbytes, List.length_append, List.length_append]
      omega

theorem tokenBytes_op (x : UInt8) (hw : lengthBytes x.toNat = 0) : tokenBytes (opToken x.toNat) = [x] := by
  show uint8D x.toNat ++ leBytes (lengthBytes x.toNat) 0 ++ [] = _
  rw [hw]
  show [UInt8.ofNat x.toNat] = [x]
  rw [UInt8.ofNat_toNat]

theorem tokenBytes_cut_length (x : UInt8) : (tokenBytes (pushToken x.toNat [])).length = 1 + lengthBytes x.toNat := by
  show (uint8D x.toNat ++ leBytes (lengthBytes x.toNat) 0 ++ []).length = _
  rw [List.append_nil, List.length_append, leBytes_length]
  rfl

/-- One case for each way the first token can end: not a push, cut off in its length,
    cut off in its data, whole. -/
theorem tells_overrunFrom (rounds : Nat) (b : Bytes) (hle : b.length ≤ rounds) :
    Tells (scriptToTokens (some b)) b (overrunFrom rounds b) := by
  induction rounds generalizing b with
  | zero =>
    rw [List.eq_nil_of_length_eq_zero (Nat.le_zero.mp hle)]
    exact ⟨rfl, rfl⟩
  | succ rounds ih =>
    cases b with
    | nil => exact ⟨rfl, rfl⟩
    | cons x b =>
      rw [List.length_cons] at hle
      rw [scriptToTokens_cons, overrunFrom]
      by_cases hpush : isPushData (x :: b) = true
      · rw [if_pos hpush]
        by_cases hw : b.length < lengthBytes x.toNat
        · rw [if_pos hw, readToken_cut_length hpush hw]
          refine ⟨rfl, ?_⟩
          rw [scriptToTokens_nil, List.flatMap_singleton, tokenBytes_cut_length, List.length_cons]
          omega
        · rw [if_neg hw]
          by_cases hdata : b.length < lengthBytes x.toNat + pushSize x b
          · rw [if_pos hdata]
            have hcut := (readToken_cut_data hpush hw hdata).1
            obtain ⟨error, herror⟩ := Option.ne_none_iff_exists'.mp hcut
            show _ ≠ none
            rw [List.findSome?_cons, herror]
            exact Option.some_ne_none error
          · rw [if_neg hdata, readToken_whole hpush hdata]
            refine Tells.cons rfl ?_ (ih _ (by rw [List.length_drop]; omega))
            rw [tokenBytes_whole hdata, List.cons_append, List.take_append_drop]
      · have hplain : x.toNat = 0 ∨ OP_PUSHDATA4 < x.toNat := by
          rw [isPushData_iff] at hpush
          omega
        have hw : lengthBytes x.toNat = 0 := by
          unfold lengthBytes
          unfold OP_PUSHDATA1 OP_PUSHDATA2 OP_PUSHDATA4 at *
          rw [if_neg (by omega), if_neg (by omega), if_neg (by omega)]
        rw [if_neg hpush, readToken_plain hplain]
        refine Tells.cons rfl ?_ (ih b (by omega))
        rw [tokenBytes_op x hw]
        rfl

theorem tells_overrun (b : Bytes) : Tells (scriptToTokens (some b)) b (overrun b) :=
  tells_overrunFrom b.length b (Nat.le_refl _)

/-! ## Exactness -/

/-- There is an error, or the tokens written back are the script; and there is an error
    exactly when a push runs past the end. -/
def TokenizedExactly (b : Bytes) : Prop :=
  (firstError (some b) ≠ none ∨ (scriptToTokens (some b)).flatMap tokenBytes = b) ∧
    (firstError (some b) ≠ none ↔ overrun b ≠ none)

/-- More rounds than the script has bytes change nothing, so the loop ends. A script whose
    push is cut off in its length field is the one that is not told apart. -/
theorem tokenized_exactly_iff (b : Bytes) :
    (∀ rounds, b.length ≤ rounds → scriptToTokensFrom rounds b = scriptToTokens (some b)) ∧
      (TokenizedExactly b ↔ overrun b ≠ some .length) := by
  refine ⟨fun _ h => scriptToTokensFrom_eq h, ?_⟩
  have htells := tells_overrun b
  unfold TokenizedExactly
  generalize overrun b = beyond at htells ⊢
  cases beyond with
  | none =>
    have hnone : ¬ firstError (some b) ≠ none := fun hne => hne htells.1
    exact ⟨fun _ => by decide, fun _ => ⟨.inr htells.2, fun hne => absurd hne hnone, fun hne => absurd rfl hne⟩⟩
  | some beyond =>
    cases beyond with
    | data => exact ⟨fun _ => by decide, fun _ => ⟨.inl htells, fun _ => by decide, fun _ => htells⟩⟩
    | length => exact ⟨fun h => absurd htells.1 (h.2.mpr (by decide)), fun h => absurd rfl h⟩

/-- OP_PUSHDATA1 as the last byte of a script: no error, and the tokens are written back
    with a length byte that the script does not have. -/
theorem not_tokenized_exactly :
    ¬ ∀ b : Bytes, (firstError (some b) ≠ none ∨ (scriptToTokens (some b)).flatMap tokenBytes = b) ∧
      (firstError (some b) ≠ none ↔ overrun b ≠ none) := by
  intro h
  have herror : firstError (some [0x4c]) = none := by decide +kernel
  have hover : overrun [0x4c] = some .length := by decide +kernel
  exact (h [0x4c]).2.mpr (by rw [hover]; decide) herror

end BitcoinSpoon
