/-
  BitcoinSpoon.Util.Pushes — what `readPushes` makes of `writePushes` (`code/BTCUtil.c`).

  `pushData` writes every `uint32_t` so that `readPushData` reads it back. An empty item
  is written as the byte 0, which is no push to `isPushData`: reading stops there, so a
  list comes back up to its first empty item (`readPushes_writePushes`). The keys of a
  script are data of its pushes, hence shorter than it (`length_lt_of_mem_allPubKeys`).
-/

import BitcoinSpoon.Util.VarInt
import BitcoinSpoon.Loop.Rules

namespace BitcoinSpoon

open Wire

/-! ## The size of a push -/

/-- The masks, read as bounds. -/
theorem pushData_eq {n : Nat} (h : n < 2 ^ 32) :
    pushData n =
      if 2 ^ 16 ≤ n then UInt8.ofNat OP_PUSHDATA4 :: leBytes 4 n
      else if 2 ^ 8 ≤ n then UInt8.ofNat OP_PUSHDATA2 :: leBytes 2 n
      else if OP_PUSHDATA1 ≤ n then UInt8.ofNat OP_PUSHDATA1 :: leBytes 1 n else leBytes 1 n := by
  have m16 : 0xFFFF0000 = 2 ^ 32 - 2 ^ 16 := rfl
  have m8 : 0xFF00 = 2 ^ 16 - 2 ^ 8 := rfl
  unfold pushData
  rw [m16, m8]
  by_cases h16 : 2 ^ 16 ≤ n
  · rw [if_pos ((land_mask_ne_zero h).mpr h16), if_pos h16]; rfl
  rw [if_neg (fun hm => h16 ((land_mask_ne_zero h).mp hm)), if_neg h16]
  have h' : n < 2 ^ 16 := by omega
  by_cases h8 : 2 ^ 8 ≤ n
  · rw [if_pos ((land_mask_ne_zero h').mpr h8), if_pos h8]; rfl
  rw [if_neg (fun hm => h8 ((land_mask_ne_zero h').mp hm)), if_neg h8]
  rfl

theorem readPushData_cons (x : UInt8) (b : Bytes) :
    readPushData (x :: b) =
      if x.toNat < OP_PUSHDATA1 then (x.toNat, b) else if x.toNat = OP_PUSHDATA1 then uint8readP b
      else if x.toNat = OP_PUSHDATA2 then uint16readP b else uint32readP b := by
  unfold readPushData readPushDataWithOp
  rw [bind_run, bind_run, uint8readP_cons]
  dsimp only
  split
  · rfl
  split
  · rfl
  split <;> rfl

theorem reads_pushData {n : Nat} (h : n < 2 ^ 32) : Reads readPushData (pushData n) n := by
  intro rest
  rw [pushData_eq h]
  split
  · exact Reads.readLE (k := 4) (by omega) rest
  split
  · exact Reads.readLE (k := 2) (by omega) rest
  split
  · exact Reads.readLE (k := 1) (by omega) rest
  · rename_i hlt
    have hn : n < OP_PUSHDATA1 := Nat.lt_of_not_le hlt
    have hbyte : (UInt8.ofNat n).toNat = n := by
      rw [UInt8.toNat_ofNat']
      unfold OP_PUSHDATA1 at hn
      omega
    show readPushData (UInt8.ofNat n :: rest) = (n, rest)
    rw [readPushData_cons, hbyte, if_pos hn]

/-- A read size fits into a `uint32_t`. -/
theorem readPushData_lt (b : Bytes) : (readPushData b).1 < 2 ^ 32 := by
  have hle : ∀ k ≤ 4, ∀ b, (readLE k b).1 < 2 ^ 32 := by
    intro k hk b
    unfold readLE
    split
    · have hlt := leNat_lt (b.take k)
      have hlen : (b.take k).length ≤ 4 := (List.length_take_le k b).trans hk
      exact Nat.lt_of_lt_of_le hlt (Nat.pow_le_pow_right (by decide) hlen)
    · decide
  cases b with
  | nil => decide
  | cons x b =>
    rw [readPushData_cons]
    split
    · have := x.toNat_lt
      show x.toNat < 2 ^ 32
      omega
    split
    · exact hle 1 (by decide) b
    split
    · exact hle 2 (by decide) b
    · exact hle 4 (by decide) b

/-! ## One push -/

theorem isPushData_scriptPush {d : Data} (h : d.length < 2 ^ 32) (rest : Bytes) :
    isPushData (scriptPush d ++ rest) = decide (d.length ≠ 0) := by
  rw [scriptPush, pushData_eq h]
  by_cases h16 : 2 ^ 16 ≤ d.length
  · rw [if_pos h16]
    have : d.length ≠ 0 := by omega
    simp [isPushData, OP_PUSHDATA4, this]
  rw [if_neg h16]
  by_cases h8 : 2 ^ 8 ≤ d.length
  · rw [if_pos h8]
    have : d.length ≠ 0 := by omega
    simp [isPushData, OP_PUSHDATA2, OP_PUSHDATA4, this]
  rw [if_neg h8]
  by_cases h1 : OP_PUSHDATA1 ≤ d.length
  · rw [if_pos h1]
    have : d.length ≠ 0 := by unfold OP_PUSHDATA1 at h1; omega
    simp [isPushData, OP_PUSHDATA1, OP_PUSHDATA4, this]
  · rw [if_neg h1]
    have hbyte : (UInt8.ofNat d.length).toNat = d.length := by
      rw [UInt8.toNat_ofNat']
      omega
    unfold OP_PUSHDATA1 at h1
    simp only [leBytes, isPushData, List.cons_append, List.nil_append, hbyte, OP_PUSHDATA4]
    by_cases h0 : d.length = 0
    · simp [h0]
    · simp [Nat.pos_of_ne_zero h0, h0]
      omega

/-- A push with something in it reads back as it was written. -/
theorem readPush_scriptPush {d : Data} (h : d.length < 2 ^ 32) (rest : Bytes) :
    readPushData (scriptPush d ++ rest) = (d.length, d.toBytes ++ rest) ∧
      readBytes d.length (d.toBytes ++ rest) = (some d.toBytes, rest) := by
  constructor
  · rw [scriptPush, List.append_assoc]
    exact reads_pushData h _
  · exact Reads.readRaw d.toBytes rest

/-! ## Lists of pushes -/

theorem readPushesFrom_succ (rounds : Nat) (script : Bytes) :
    readPushesFrom (rounds + 1) script =
      if isPushData script then
        (readBytes (readPushData script).1 (readPushData script).2).1 ::
          readPushesFrom rounds (readBytes (readPushData script).1 (readPushData script).2).2
      else [] := rfl

theorem scriptPush_ne_nil (d : Data) : scriptPush d ≠ [] := by
  unfold scriptPush pushData uint8D leBytes
  repeat' split
  all_goals simp

theorem readPushesFrom_writePushes {items : Datas} (h : ∀ d ∈ items, d.length < 2 ^ 32) {rounds : Nat}
    (hr : (writePushes items).length ≤ rounds) :
    readPushesFrom rounds (writePushes items) = (items.takeWhile (·.length ≠ 0)).map fun d => some d.toBytes := by
  induction items generalizing rounds with
  | nil => cases rounds <;> rfl
  | cons d items ih =>
    have hd : d.length < 2 ^ 32 := h d List.mem_cons_self
    have hcons : writePushes (d :: items) = scriptPush d ++ writePushes items := rfl
    rw [hcons] at hr ⊢
    have hpos := List.length_pos_of_ne_nil (scriptPush_ne_nil d)
    rw [List.length_append] at hr
    obtain ⟨rounds, rfl⟩ : ∃ r, rounds = r + 1 := ⟨rounds - 1, by omega⟩
    rw [readPushesFrom_succ, isPushData_scriptPush hd]
    by_cases h0 : d.length = 0
    · simp [h0]
    · obtain ⟨hsize, hbytes⟩ := readPush_scriptPush hd (writePushes items)
      rw [if_pos (by simpa using h0), hsize, hbytes]
      dsimp only
      rw [ih (fun x hx => h x (List.mem_cons_of_mem _ hx)) (by omega), List.takeWhile_cons_of_pos (by simpa using h0),
        List.map_cons]

theorem readPushes_writePushes {items : Datas} (h : ∀ d ∈ items, d.length < 2 ^ 32) :
    readPushes (some (writePushes items)) = (items.takeWhile (·.length ≠ 0)).map fun d => some d.toBytes :=
  readPushesFrom_writePushes h (Nat.le_refl _)

/-- The loop of `TransactionInputScriptStack` reads empty items too. -/
theorem scriptStackFrom_writePushes {items : Datas} (h : ∀ d ∈ items, d.length < 2 ^ 32) {rounds : Nat}
    (hr : (writePushes items).length ≤ rounds) :
    scriptStackFrom rounds (writePushes items) = items.map fun d => some d.toBytes := by
  induction items generalizing rounds with
  | nil => cases rounds <;> rfl
  | cons d items ih =>
    have hd : d.length < 2 ^ 32 := h d List.mem_cons_self
    have hcons : writePushes (d :: items) = scriptPush d ++ writePushes items := rfl
    have hpos := List.length_pos_of_ne_nil (scriptPush_ne_nil d)
    rw [hcons] at hr ⊢
    rw [List.length_append] at hr
    obtain ⟨rounds, rfl⟩ : ∃ r, rounds = r + 1 := ⟨rounds - 1, by omega⟩
    obtain ⟨hsize, hbytes⟩ := readPush_scriptPush hd (writePushes items)
    rw [scriptStackFrom, if_neg (by simp [scriptPush_ne_nil]), hsize]
    dsimp only
    rw [hbytes]
    dsimp only
    rw [ih (fun x hx => h x (List.mem_cons_of_mem _ hx)) (by omega), List.map_cons]

theorem length_lt_of_mem_readPushes {script d : Data} (h : d ∈ readPushes script) : d.length < 2 ^ 32 := by
  unfold readPushes at h
  generalize script.length = rounds at h
  generalize script.toBytes = b at h
  induction rounds generalizing b with
  | zero => cases h
  | succ rounds ih =>
    rw [readPushesFrom_succ] at h
    split at h
    · have hlt := readPushData_lt b
      rcases List.mem_cons.mp h with rfl | h
      · unfold readBytes readBytesUnsafe readRaw
        split
        · exact Nat.lt_of_le_of_lt (List.length_take_le _ _) hlt
        · decide
      · exact ih _ h
    · cases h

/-! ## The keys of a script -/

theorem readLE_shorter (k : Nat) (b : Bytes) : (readLE k b).2.length ≤ b.length := by
  unfold readLE
  split
  · rw [List.length_drop]
    omega
  · exact Nat.zero_le _

theorem readBytesUnsafe_shorter (n : Nat) (b : Bytes) :
    (readBytesUnsafe n b).1.length ≤ b.length ∧ (readBytesUnsafe n b).2.length ≤ b.length := by
  unfold readBytesUnsafe readRaw
  split
  · constructor
    · show (b.take n).length ≤ _
      rw [List.length_take]
      omega
    · rw [List.length_drop]
      omega
  · exact ⟨Nat.zero_le _, Nat.zero_le _⟩

theorem readPushDataWithOp_shorter (x : UInt8) (b : Bytes) : (readPushDataWithOp (x :: b)).2.length ≤ b.length := by
  unfold readPushDataWithOp
  rw [bind_run, uint8readP_cons]
  dsimp only
  split
  · exact Nat.le_refl _
  split
  · exact readLE_shorter 1 b
  split
  · exact readLE_shorter 2 b
  · exact readLE_shorter 4 b

theorem readToken_shorter {b : Bytes} (hb : b ≠ []) :
    (readToken b).1.data.length < b.length ∧ (readToken b).2.length < b.length := by
  obtain ⟨x, b, rfl⟩ := List.exists_cons_of_ne_nil hb
  have hpush := readPushDataWithOp_shorter x b
  unfold readToken
  split
  · generalize readPushDataWithOp (x :: b) = r at hpush
    obtain ⟨⟨size, op⟩, rest⟩ := r
    dsimp only at hpush ⊢
    have hraw := readBytesUnsafe_shorter size rest
    generalize readBytesUnsafe size rest = r at hraw
    obtain ⟨data, rest'⟩ := r
    dsimp only at hraw ⊢
    rw [List.length_cons]
    omega
  · rw [uint8readP_cons]
    simp

theorem data_lt_of_mem_scriptToTokens {script : Data} {token : ScriptToken} (h : token ∈ scriptToTokens script) :
    token.data.length < script.length := by
  unfold scriptToTokens at h
  have hle : script.toBytes.length ≤ script.length := Nat.le_refl _
  generalize hrounds : script.length = rounds at h
  rw [hrounds] at hle
  generalize script.toBytes = b at h hle
  clear hrounds
  have hall : ∀ rounds : Nat, ∀ b : Bytes, ∀ token ∈ scriptToTokensFrom rounds b, token.data.length < b.length := by
    intro rounds
    induction rounds with
    | zero => intro b token h; cases h
    | succ rounds ih =>
      intro b token h
      rw [scriptToTokensFrom] at h
      split at h
      · cases h
      · rename_i hb
        obtain ⟨hdata, hrest⟩ := readToken_shorter hb
        rcases List.mem_cons.mp h with rfl | h
        · exact hdata
        · exact (ih _ token h).trans hrest
  exact Nat.lt_of_lt_of_le (hall rounds b token h) hle

theorem scriptTokenI_lt {script : Data} (hpos : 0 < script.length) (j : Nat) :
    (scriptTokenI (scriptToTokens script) j).data.length < script.length := by
  unfold scriptTokenI
  rw [List.getD_eq_getElem?_getD]
  cases hj : (scriptToTokens script)[j]? with
  | none => exact hpos
  | some token => exact data_lt_of_mem_scriptToTokens (List.mem_of_getElem? hj)

theorem length_lt_of_mem_allPubKeys {script key : Data} (h : key ∈ allPubKeys script) : key.length < script.length := by
  unfold allPubKeys at h
  dsimp only at h
  by_cases hempty : script.length = 0
  · unfold scriptToTokens at h
    rw [hempty] at h
    cases h
  have htoken := scriptTokenI_lt (Nat.pos_of_ne_zero hempty)
  generalize scriptToTokens script = tokens at h htoken
  refine Loop.foldl_inv (fun array : Datas => ∀ key ∈ array, key.length < script.length) ?_ ?_ key h
  · intro key h
    cases h
  intro i _ array harray key h
  have hsig : ∀ key ∈ checkSigPubKeys tokens i ++ array, key.length < script.length := by
    intro key h
    rcases List.mem_append.mp h with h | h
    · unfold checkSigPubKeys at h
      split at h
      · rw [List.mem_singleton.mp h]
        exact htoken _
      · cases h
    · exact harray key h
  split at h
  · unfold multisigPubKeys at h
    refine Loop.foldl_inv (fun array : Datas => ∀ key ∈ array, key.length < script.length) hsig ?_ key h
    intro j _ array harray key h
    split at h
    · rcases List.mem_cons.mp h with rfl | h
      · exact htoken _
      · exact harray key h
    · exact harray key h
  · exact hsig key h

/-- The keys depend on the contents only. -/
theorem allPubKeys_congr {a b : Data} (h : a.toBytes = b.toBytes) : allPubKeys a = allPubKeys b := by
  have hlen : a.length = b.length := congrArg List.length h
  have htokens : scriptToTokens a = scriptToTokens b := by
    rw [scriptToTokens, scriptToTokens, hlen, h]
  unfold allPubKeys
  rw [htokens]

theorem allCheckSigs_congr {a b : Data} (h : a.toBytes = b.toBytes) : allCheckSigs a = allCheckSigs b := by
  have hlen : a.length = b.length := congrArg List.length h
  have htokens : scriptToTokens a = scriptToTokens b := by
    rw [scriptToTokens, scriptToTokens, hlen, h]
  unfold allCheckSigs
  rw [htokens]

end BitcoinSpoon
