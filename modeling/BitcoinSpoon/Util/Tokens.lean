/-
  BitcoinSpoon.Util.Tokens — the tokens of a script, one at a time (`code/BTCUtil.c`).

  The opcode of a token is the byte it starts with (`readToken_op`). A direct push has its
  bytes or, where the script ends before, none and is the last token (`readToken_push`).
-/

import BitcoinSpoon.Util.Pushes

namespace BitcoinSpoon

open Wire

/-! ## One token -/

/-- A token without data. -/
def opToken (op : Nat) : ScriptToken := ⟨op, none, 0, [], none⟩

/-- A push with all its bytes. -/
def pushToken (op : Nat) (data : Bytes) : ScriptToken := ⟨op, some data, 0, [], none⟩

theorem isPushData_cons (x : UInt8) (b : Bytes) : isPushData (x :: b) = (decide (0 < x.toNat) && decide (x.toNat ≤ OP_PUSHDATA4)) :=
  rfl

theorem readToken_op (x : UInt8) (b : Bytes) : (readToken (x :: b)).1.op = x.toNat := by
  have hop : (readPushDataWithOp (x :: b)).1.2 = x.toNat := by
    unfold readPushDataWithOp
    rw [bind_run, uint8readP_cons]
    dsimp only
    split
    · rfl
    split
    · rfl
    split <;> rfl
  unfold readToken
  split
  · exact hop
  · rw [uint8readP_cons]

theorem readToken_plain {x : UInt8} (h : x.toNat = 0 ∨ OP_PUSHDATA4 < x.toNat) (b : Bytes) :
    readToken (x :: b) = (opToken x.toNat, b) := by
  have hno : isPushData (x :: b) = false := by
    rw [isPushData_cons]
    rcases h with h | h
    · simp [h]
    · simp [Nat.not_le.2 h]
  unfold readToken
  rw [hno, uint8readP_cons]
  rfl

/-- A direct push. -/
theorem readToken_push {x : UInt8} (h0 : 0 < x.toNat) (h1 : x.toNat < OP_PUSHDATA1) (b : Bytes) :
    (x.toNat ≤ b.length → readToken (x :: b) = (pushToken x.toNat (b.take x.toNat), b.drop x.toNat)) ∧
      (b.length < x.toNat → (readToken (x :: b)).1.data = none ∧ (readToken (x :: b)).2 = []) := by
  have hyes : isPushData (x :: b) = true := by
    rw [isPushData_cons]
    have : x.toNat ≤ OP_PUSHDATA4 := by unfold OP_PUSHDATA1 at h1; unfold OP_PUSHDATA4; omega
    simp [h0, this]
  have hsize : readPushDataWithOp (x :: b) = ((x.toNat, x.toNat), b) := by
    unfold readPushDataWithOp
    rw [bind_run, uint8readP_cons]
    dsimp only
    rw [if_pos h1]
    rfl
  unfold readToken
  rw [hyes, hsize]
  constructor
  · intro hlen
    simp [readBytesUnsafe, readRaw, hlen, pushToken]
  · intro hlen
    simp [readBytesUnsafe, readRaw, Nat.not_le.2 hlen]

/-! ## All of them -/

theorem scriptToTokensFrom_succ (rounds : Nat) {b : Bytes} (h : b ≠ []) :
    scriptToTokensFrom (rounds + 1) b = (readToken b).1 :: scriptToTokensFrom rounds (readToken b).2 := by
  rw [scriptToTokensFrom, if_neg h]
  rfl

theorem scriptToTokensFrom_eq {rounds : Nat} {b : Bytes} (h : b.length ≤ rounds) :
    scriptToTokensFrom rounds b = scriptToTokens (some b) := by
  have hall : ∀ rounds rounds' : Nat, ∀ b : Bytes, b.length ≤ rounds → b.length ≤ rounds' →
      scriptToTokensFrom rounds b = scriptToTokensFrom rounds' b := by
    intro rounds
    induction rounds with
    | zero =>
      intro rounds' b h _
      rw [List.eq_nil_of_length_eq_zero (Nat.le_zero.1 h)]
      cases rounds' <;> rfl
    | succ rounds ih =>
      intro rounds' b h h'
      by_cases hb : b = []
      · rw [hb]
        cases rounds' <;> rfl
      · have hpos := List.length_pos_of_ne_nil hb
        obtain ⟨rounds', rfl⟩ : ∃ r, rounds' = r + 1 := ⟨rounds' - 1, by omega⟩
        have hshort := (readToken_shorter hb).2
        rw [scriptToTokensFrom_succ rounds hb, scriptToTokensFrom_succ rounds' hb, ih rounds' _ (by omega) (by omega)]
  exact hall rounds b.length b h (Nat.le_refl _)

@[simp] theorem scriptToTokens_nil : scriptToTokens (some []) = [] := rfl

theorem scriptToTokens_cons (x : UInt8) (b : Bytes) :
    scriptToTokens (some (x :: b)) = (readToken (x :: b)).1 :: scriptToTokens (some (readToken (x :: b)).2) := by
  have hshort := (@readToken_shorter (x :: b) (by simp)).2
  rw [List.length_cons] at hshort
  show scriptToTokensFrom (b.length + 1) (x :: b) = _
  rw [scriptToTokensFrom_succ _ (by simp), scriptToTokensFrom_eq (by omega)]

theorem scriptToTokens_plain {x : UInt8} (h : x.toNat = 0 ∨ OP_PUSHDATA4 < x.toNat) (b : Bytes) :
    scriptToTokens (some (x :: b)) = opToken x.toNat :: scriptToTokens (some b) := by
  rw [scriptToTokens_cons, readToken_plain h]

theorem scriptToTokens_push {x : UInt8} {data : Bytes} (h0 : 0 < x.toNat) (h1 : x.toNat < OP_PUSHDATA1)
    (hdata : data.length = x.toNat) (b : Bytes) :
    scriptToTokens (some (x :: (data ++ b))) = pushToken x.toNat data :: scriptToTokens (some b) := by
  rw [scriptToTokens_cons, (readToken_push h0 h1 (data ++ b)).1 (by rw [List.length_append]; omega),
    List.take_left' hdata, List.drop_left' hdata]

/-! ## From the tokens back to the script -/

theorem of_scriptToTokens_nil {b : Bytes} (h : scriptToTokens (some b) = []) : b = [] := by
  cases b with
  | nil => rfl
  | cons x b =>
    rw [scriptToTokens_cons] at h
    cases h

/-- The first token, where it is no push. -/
theorem of_scriptToTokens_plain {b : Bytes} {token : ScriptToken} {tokens : ScriptTokens} {x : UInt8}
    (h : scriptToTokens (some b) = token :: tokens) (hop : token.op = x.toNat) (hx : x.toNat = 0 ∨ OP_PUSHDATA4 < x.toNat) :
    ∃ rest, b = x :: rest ∧ scriptToTokens (some rest) = tokens := by
  cases b with
  | nil => cases h
  | cons y rest =>
    rw [scriptToTokens_cons] at h
    have hy : y = x := by
      rw [← UInt8.toNat_inj, ← hop, ← readToken_op y rest, (List.cons.inj h).1]
    subst hy
    refine ⟨rest, rfl, ?_⟩
    have := (List.cons.inj h).2
    rwa [readToken_plain hx] at this

/-- The first token, where it is a direct push: all its bytes are there, or none are and it is
    the last. -/
theorem of_scriptToTokens_push {b : Bytes} {token : ScriptToken} {tokens : ScriptTokens} {x : UInt8}
    (h : scriptToTokens (some b) = token :: tokens) (hop : token.op = x.toNat) (h0 : 0 < x.toNat) (h1 : x.toNat < OP_PUSHDATA1) :
    (∃ data rest, b = x :: (data ++ rest) ∧ data.length = x.toNat ∧ token.data = some data ∧ scriptToTokens (some rest) = tokens) ∨
      (token.data = none ∧ tokens = []) := by
  cases b with
  | nil => cases h
  | cons y rest =>
    rw [scriptToTokens_cons] at h
    have hy : y = x := by
      rw [← UInt8.toNat_inj, ← hop, ← readToken_op y rest, (List.cons.inj h).1]
    subst hy
    obtain ⟨hfits, hends⟩ := readToken_push h0 h1 rest
    by_cases hlen : y.toNat ≤ rest.length
    · rw [hfits hlen] at h
      obtain ⟨rfl, hrest⟩ := List.cons.inj h
      refine .inl ⟨rest.take y.toNat, rest.drop y.toNat, ?_, ?_, rfl, hrest⟩
      · rw [List.take_append_drop]
      · rw [List.length_take]
        omega
    · obtain ⟨hdata, hnil⟩ := hends (Nat.not_le.1 hlen)
      obtain ⟨rfl, hrest⟩ := List.cons.inj h
      refine .inr ⟨hdata, ?_⟩
      rw [← hrest, hnil, scriptToTokens_nil]

end BitcoinSpoon
