/-
  BitcoinSpoon.Util.Multisig — the scripts the library writes, read back
  (`multisigScript`, `vaultScript`, `allPubKeys`, `allCheckSigs`, `code/BTCUtil.c`).

  The tokens of a multisig script are the number of signatures, the keys, their number and
  CHECKMULTISIG; a vault has the master key and CHECKSIGVERIFY in front. Both loops go
  through the tokens and act at those two opcodes only, so the keys come out in the order
  of the script, the master key last, and the checks in the order of their signatures on
  the stack.

  The number of keys goes into one byte, and the builders take any list. Above 16 keys the
  byte is no number, or another one, and the analysers do not find the keys
  (`scripts_read_back_iff`).
-/

import BitcoinSpoon.Util.Tokens

namespace BitcoinSpoon

open Wire Loop

/-! ## Loops that do nothing for a while -/

theorem foldl_range_quiet {β : Type} {f : β → Nat → β} {n k : Nat} (hk : k ≤ n) (h : ∀ i x, k ≤ i → i < n → f x i = x)
    (init : β) : (List.range n).foldl f init = (List.range k).foldl f init := by
  obtain ⟨d, rfl⟩ := Nat.exists_eq_add_of_le hk
  clear hk
  induction d with
  | zero => rfl
  | succ d ih =>
    rw [← Nat.add_assoc, List.range_succ, List.foldl_append, ih fun i x hi hlt => h i x hi (by omega)]
    exact h _ _ (by omega) (by omega)

/-! ## The tokens -/

/-- The tokens of `needed` of the keys. -/
def multisigTokens (needed : Nat) (keys : List Bytes) : ScriptTokens :=
  opToken (OP_1 - 1 + needed) :: (keys.map (pushToken 33) ++
    [opToken (OP_1 - 1 + keys.length), opToken OP_CHECKMULTISIG])

section

variable {needed : Nat} {keys : List Bytes}

theorem multisigTokens_length (needed : Nat) (keys : List Bytes) : (multisigTokens needed keys).length = keys.length + 3 := by
  simp [multisigTokens]

theorem multisigTokens_key {j : Nat} (h : j < keys.length) :
    (multisigTokens needed keys).getD (j + 1) default = pushToken 33 keys[j] := by
  rw [multisigTokens, List.getD_cons_succ, List.getD_eq_getElem?_getD, List.getElem?_append_left (by simpa using h)]
  simp [h]

theorem multisigTokens_count :
    (multisigTokens needed keys).getD (keys.length + 1) default = opToken (OP_1 - 1 + keys.length) := by
  rw [multisigTokens, List.getD_cons_succ, List.getD_eq_getElem?_getD, List.getElem?_append_right (by simp)]
  simp

theorem multisigTokens_check : (multisigTokens needed keys).getD (keys.length + 2) default = opToken OP_CHECKMULTISIG := by
  rw [multisigTokens, List.getD_cons_succ, List.getD_eq_getElem?_getD, List.getElem?_append_right (by simp)]
  simp

/-- No token in front of the last one checks signatures. -/
theorem multisigTokens_quiet (hneeded : needed ≤ 16) (hkeys : keys.length ≤ 16) {j : Nat} (hj : j < keys.length + 2) :
    isCheckSig ((multisigTokens needed keys).getD j default).op = false ∧
      isCheckMultisig ((multisigTokens needed keys).getD j default).op = false := by
  have hsmall : ∀ token : ScriptToken, token.op ≤ 0x60 → isCheckSig token.op = false ∧ isCheckMultisig token.op = false := by
    intro token h
    constructor
    · simp only [isCheckSig, OP_CHECKSIG, OP_CHECKSIGVERIFY, Bool.or_eq_false_iff]
      exact ⟨decide_eq_false (by omega), decide_eq_false (by omega)⟩
    · simp only [isCheckMultisig, OP_CHECKMULTISIG, OP_CHECKMULTISIGVERIFY, Bool.or_eq_false_iff]
      exact ⟨decide_eq_false (by omega), decide_eq_false (by omega)⟩
  apply hsmall
  rcases Nat.eq_zero_or_pos j with rfl | hpos
  · show OP_1 - 1 + needed ≤ 0x60
    unfold OP_1
    omega
  obtain ⟨j, rfl⟩ : ∃ k, j = k + 1 := ⟨j - 1, by omega⟩
  by_cases hlt : j < keys.length
  · rw [multisigTokens_key hlt]
    show 33 ≤ 0x60
    decide
  · obtain rfl : j = keys.length := by omega
    rw [multisigTokens_count]
    show OP_1 - 1 + keys.length ≤ 0x60
    unfold OP_1
    omega

end

/-! ## The loops -/

section

variable {before tokens : ScriptTokens} {needed : Nat} {keys : List Bytes}

theorem scriptTokenI_append (before after : ScriptTokens) (j : Nat) :
    scriptTokenI (before ++ after) (before.length + j) = after.getD j default := by
  rw [scriptTokenI, List.getD_append_right _ _ _ _ (Nat.le_add_right _ _), Nat.add_sub_cancel_left]

variable (htokens : tokens = before ++ multisigTokens needed keys)

include htokens

theorem token_check : scriptTokenI tokens (before.length + (keys.length + 2)) = opToken OP_CHECKMULTISIG := by
  rw [htokens, scriptTokenI_append, multisigTokens_check]

theorem token_count : scriptTokenI tokens (before.length + (keys.length + 2) - 1) = opToken (OP_1 - 1 + keys.length) := by
  rw [htokens, show before.length + (keys.length + 2) - 1 = before.length + (keys.length + 1) by omega,
    scriptTokenI_append, multisigTokens_count]

theorem numPubKeysAt_check : numPubKeysAt tokens (before.length + (keys.length + 2)) = keys.length := by
  rw [numPubKeysAt, token_count htokens]
  show 1 + (OP_1 - 1 + keys.length) - OP_1 = _
  unfold OP_1
  omega

theorem hasPubKeyCount_check (hpos : 0 < keys.length) (hkeys : keys.length ≤ 16) :
    hasPubKeyCount tokens (before.length + (keys.length + 2)) = true := by
  have hcount : (opToken (OP_1 - 1 + keys.length)).op = OP_1 - 1 + keys.length := rfl
  unfold hasPubKeyCount
  rw [token_check htokens, token_count htokens, hcount]
  have hlow : OP_1 ≤ OP_1 - 1 + keys.length := by unfold OP_1; omega
  have hhigh : OP_1 - 1 + keys.length ≤ OP_16 := by unfold OP_1 OP_16; omega
  have hop : isCheckMultisig (opToken OP_CHECKMULTISIG).op = true := rfl
  simp only [hop, hlow, hhigh, decide_true, Bool.and_true, decide_eq_true_eq, Bool.true_and]
  omega

/-- The key the walk back from the CHECKMULTISIG meets at step `j`. -/
theorem token_key {j : Nat} (hj : j < keys.length) :
    (scriptTokenI tokens (before.length + (keys.length + 2) - j - 2)).data = some keys[keys.length - (j + 1)] := by
  have hat : before.length + (keys.length + 2) - j - 2 = before.length + (keys.length - (j + 1) + 1) := by omega
  rw [hat, htokens, scriptTokenI_append, multisigTokens_key]
  rfl

omit htokens in
/-- Putting the keys to the front one by one, the last key first. -/
theorem foldl_keys_to_front {f : Datas → Nat → Datas}
    (hf : ∀ j (hj : j < keys.length) (array : Datas), f array j = some keys[keys.length - (j + 1)] :: array) (array : Datas) :
    (List.range keys.length).foldl f array = keys.map some ++ array := by
  have hwalk : ∀ k ≤ keys.length, (List.range k).foldl f array = (keys.drop (keys.length - k)).map some ++ array := by
    intro k hk
    induction k with
    | zero => simp
    | succ k ih =>
      have hlt : keys.length - (k + 1) < keys.length := by omega
      rw [List.range_succ, List.foldl_append, ih (by omega), List.foldl_cons, List.foldl_nil, hf k (by omega),
        List.drop_eq_getElem_cons hlt, show keys.length - (k + 1) + 1 = keys.length - k by omega]
      rfl
  rw [hwalk _ (Nat.le_refl _), Nat.sub_self, List.drop_zero]

theorem multisigPubKeys_check (array : Datas) :
    multisigPubKeys tokens (before.length + (keys.length + 2)) array = keys.map some ++ array := by
  rw [multisigPubKeys, numPubKeysAt_check htokens]
  apply foldl_keys_to_front
  intro j hj array
  rw [if_pos (by omega), token_key htokens hj]

theorem checkMultisigEntry_pubKeys :
    (checkMultisigEntry tokens (before.length + (keys.length + 2))).pubKeys = keys.map some := by
  unfold checkMultisigEntry
  dsimp only
  rw [numPubKeysAt_check htokens, foldl_keys_to_front, List.append_nil]
  intro j hj array
  have hinside : j + 2 ≤ before.length + (keys.length + 2) := by omega
  rw [token_key htokens hj]
  simp [hinside]

theorem token_quiet (hneeded : needed ≤ 16) (hkeys : keys.length ≤ 16) {i : Nat} (hi : before.length ≤ i)
    (hlt : i < before.length + (keys.length + 2)) :
    isCheckSig (scriptTokenI tokens i).op = false ∧ isCheckMultisig (scriptTokenI tokens i).op = false := by
  obtain ⟨j, rfl⟩ := Nat.exists_eq_add_of_le hi
  rw [htokens, scriptTokenI_append]
  exact multisigTokens_quiet hneeded hkeys (by omega)

theorem tokens_length : tokens.length = before.length + (keys.length + 2) + 1 := by
  rw [htokens, List.length_append, multisigTokens_length]
  omega

/-- The keys in front of those that `before` has. -/
theorem allPubKeys_tokens {script : Data} (hscript : scriptToTokens script = tokens) (hneeded : needed ≤ 16)
    (hpos : 0 < keys.length) (hkeys : keys.length ≤ 16) :
    allPubKeys script = keys.map some ++ (List.range before.length).foldl
      (fun array i =>
        let array := checkSigPubKeys tokens i ++ array
        if hasPubKeyCount tokens i then multisigPubKeys tokens i array else array) [] := by
  have hnone : ∀ i, isCheckSig (scriptTokenI tokens i).op = false → checkSigPubKeys tokens i = [] := by
    intro i h
    simp [checkSigPubKeys, h]
  unfold allPubKeys
  rw [hscript]
  dsimp only
  rw [tokens_length htokens, List.range_succ, List.foldl_append, List.foldl_cons, List.foldl_nil,
    hnone (before.length + (keys.length + 2)) (by rw [token_check htokens]; rfl)]
  rw [if_pos (hasPubKeyCount_check htokens hpos hkeys), multisigPubKeys_check htokens, List.nil_append,
    foldl_range_quiet (k := before.length) (by omega)]
  intro i array hi hlt
  obtain ⟨hsig, hmulti⟩ := token_quiet htokens hneeded hkeys hi hlt
  rw [hnone i hsig, List.nil_append, if_neg (by simp [hasPubKeyCount, hmulti])]

/-- The entry of a CHECKMULTISIG. -/
def multisigEntry (needed : Nat) (pubKeys : Datas) : ScriptToken := ⟨OP_CHECKMULTISIG, none, needed, pubKeys, none⟩

theorem checkMultisigEntry_check :
    checkMultisigEntry tokens (before.length + (keys.length + 2)) = multisigEntry needed (keys.map some) := by
  have hop : (scriptTokenI tokens (before.length + (keys.length + 2))).op = OP_CHECKMULTISIG := by
    rw [token_check htokens]
    rfl
  have hneeded : (1 + (scriptTokenI tokens (before.length + (keys.length + 2) -
      numPubKeysAt tokens (before.length + (keys.length + 2)) - 2)).op - OP_1 : Int) = needed := by
    rw [numPubKeysAt_check htokens, show before.length + (keys.length + 2) - keys.length - 2 = before.length + 0 by omega,
      htokens, scriptTokenI_append]
    show (1 + ((OP_1 - 1 + needed : Nat) : Int) - OP_1 : Int) = needed
    unfold OP_1
    omega
  have hpubs := checkMultisigEntry_pubKeys htokens
  unfold checkMultisigEntry at hpubs ⊢
  dsimp only at hpubs ⊢
  rw [hpubs, hop, hneeded]
  rfl

/-- The CHECKMULTISIG in front of the checks that `before` has. -/
theorem allCheckSigs_tokens {script : Data} (hscript : scriptToTokens script = tokens) (hneeded : needed ≤ 16)
    (hpos : 0 < keys.length) (hkeys : keys.length ≤ 16) :
    allCheckSigs script = multisigEntry needed (keys.map some) :: (List.range before.length).foldl
      (fun array i =>
        let array := if checkSigPubKeys tokens i ≠ [] then checkSigEntry tokens i :: array else array
        if hasPubKeyCount tokens i && numPubKeysAt tokens i + 2 ≤ i then checkMultisigEntry tokens i :: array else array)
      [] := by
  have hnone : ∀ i, isCheckSig (scriptTokenI tokens i).op = false → checkSigPubKeys tokens i = [] := by
    intro i h
    simp [checkSigPubKeys, h]
  unfold allCheckSigs
  rw [hscript]
  dsimp only
  rw [tokens_length htokens, List.range_succ, List.foldl_append, List.foldl_cons, List.foldl_nil,
    hnone (before.length + (keys.length + 2)) (by rw [token_check htokens]; rfl)]
  have hinside : numPubKeysAt tokens (before.length + (keys.length + 2)) + 2 ≤ before.length + (keys.length + 2) := by
    rw [numPubKeysAt_check htokens]
    omega
  have hcounted : (hasPubKeyCount tokens (before.length + (keys.length + 2)) &&
      decide (numPubKeysAt tokens (before.length + (keys.length + 2)) + 2 ≤ before.length + (keys.length + 2))) = true := by
    rw [hasPubKeyCount_check htokens hpos hkeys, decide_eq_true hinside]
    rfl
  rw [if_pos hcounted, if_neg (fun h => h rfl), checkMultisigEntry_check htokens,
    foldl_range_quiet (k := before.length) (by omega)]
  intro i array hi hlt
  obtain ⟨hsig, hmulti⟩ := token_quiet htokens hneeded hkeys hi hlt
  have hno : hasPubKeyCount tokens i = false := by simp [hasPubKeyCount, hmulti]
  simp [hnone i hsig, hno]

end

/-! ## The scripts -/

theorem scriptToTokens_op {op : Nat} (hlow : OP_PUSHDATA4 < op) (hhigh : op < 256) (rest : Bytes) :
    scriptToTokens (some (uint8D op ++ rest)) = opToken op :: scriptToTokens (some rest) := by
  have hop : (UInt8.ofNat op).toNat = op := by
    rw [UInt8.toNat_ofNat']
    omega
  show scriptToTokens (some (UInt8.ofNat op :: rest)) = _
  rw [scriptToTokens_plain (Or.inr (by rw [hop]; exact hlow)), hop]

theorem scriptToTokens_pubKey {key : Data} (hkey : key.length = 33) (rest : Bytes) :
    scriptToTokens (some (scriptPush key ++ rest)) = pushToken 33 key.toBytes :: scriptToTokens (some rest) := by
  have hpush : scriptPush key ++ rest = 33 :: (key.toBytes ++ rest) := by
    rw [scriptPush, hkey]
    rfl
  rw [hpush]
  exact scriptToTokens_push (x := 33) (by decide) (by decide) hkey rest

theorem scriptToTokens_pubKeys {keys : Datas} (hkeys : ∀ key ∈ keys, key.length = 33) (rest : Bytes) :
    scriptToTokens (some (keys.flatMap scriptPush ++ rest)) =
      (keys.map Data.toBytes).map (pushToken 33) ++ scriptToTokens (some rest) := by
  induction keys with
  | nil => rfl
  | cons key keys ih =>
    rw [List.flatMap_cons, List.append_assoc, scriptToTokens_pubKey (hkeys key List.mem_cons_self),
      ih fun k hk => hkeys k (List.mem_cons_of_mem _ hk)]
    rfl

theorem datasSort_perm (keys : Datas) : (datasSort keys).Perm keys := List.mergeSort_perm keys _

@[simp] theorem datasSort_length (keys : Datas) : (datasSort keys).length = keys.length := (datasSort_perm keys).length_eq

theorem map_some_toBytes {keys : Datas} (hkeys : ∀ key ∈ keys, key.length = 33) : (keys.map Data.toBytes).map some = keys := by
  rw [List.map_map]
  conv_rhs => rw [← List.map_id keys]
  apply List.map_congr_left
  intro key hkey
  cases key with
  | none => exact absurd (hkeys none hkey) (by decide)
  | some b => rfl

section

variable {keys : Datas} {mk : Data}

theorem neededOf_datasSort (keys : Datas) : neededOf (datasSort keys) = neededOf keys := by
  rw [neededOf, neededOf, datasSort_length]

theorem neededOf_le (hle : keys.length ≤ 16) : neededOf keys ≤ 16 := by
  unfold neededOf
  omega

variable (hkeys : ∀ key ∈ keys, key.length = 33)

include hkeys

theorem length_datasSort_key : ∀ key ∈ datasSort keys, key.length = 33 :=
  fun key hkey => hkeys key ((datasSort_perm keys).mem_iff.mp hkey)

variable (hpos : keys ≠ []) (hle : keys.length ≤ 16)

include hle

theorem scriptToTokens_multisigScript :
    scriptToTokens (some (multisigScript keys)) =
      multisigTokens (neededOf keys) ((datasSort keys).map Data.toBytes) := by
  have hneeded := neededOf_le hle
  unfold multisigScript
  dsimp only
  rw [neededOf_datasSort, List.append_assoc, List.append_assoc,
    scriptToTokens_op (by unfold OP_PUSHDATA4 OP_1; omega) (by unfold OP_1; omega),
    scriptToTokens_pubKeys (length_datasSort_key hkeys), datasSort_length,
    scriptToTokens_op (by unfold OP_PUSHDATA4 OP_1; omega) (by unfold OP_1; omega),
    ← List.append_nil (uint8D OP_CHECKMULTISIG), scriptToTokens_op (by decide) (by decide), scriptToTokens_nil]
  unfold multisigTokens
  rw [List.length_map, datasSort_length]

/-- A vault has the master key and its check in front. -/
theorem scriptToTokens_vaultScript (hmk : mk.length = 33) :
    scriptToTokens (some (vaultScript mk keys)) =
      [pushToken 33 mk.toBytes, opToken OP_CHECKSIGVERIFY] ++
        multisigTokens (neededOf keys) ((datasSort keys).map Data.toBytes) := by
  have hsplit : vaultScript mk keys = scriptPush mk ++ (uint8D OP_CHECKSIGVERIFY ++ multisigScript keys) := by
    unfold vaultScript multisigScript
    simp only [List.append_assoc]
  rw [hsplit, scriptToTokens_pubKey hmk, scriptToTokens_op (by decide) (by decide), scriptToTokens_multisigScript hkeys hle]
  rfl

include hpos

theorem allPubKeys_multisigScript : allPubKeys (some (multisigScript keys)) = datasSort keys := by
  have htokens := scriptToTokens_multisigScript hkeys hle
  have hlen := List.length_pos_of_ne_nil hpos
  rw [allPubKeys_tokens (List.nil_append _).symm htokens (neededOf_le hle) (by simpa using hlen) (by simpa using hle),
    map_some_toBytes (length_datasSort_key hkeys)]
  exact List.append_nil _

/-- The master key, which is checked first, comes last. -/
theorem allPubKeys_vaultScript (hmk : mk.length = 33) : allPubKeys (some (vaultScript mk keys)) = datasSort keys ++ [mk] := by
  have htokens := scriptToTokens_vaultScript hkeys hle hmk
  have hlen := List.length_pos_of_ne_nil hpos
  rw [allPubKeys_tokens rfl htokens (neededOf_le hle) (by simpa using hlen) (by simpa using hle),
    map_some_toBytes (length_datasSort_key hkeys)]
  cases mk with
  | none => cases hmk
  | some b => rfl

theorem allCheckSigs_multisigScript :
    allCheckSigs (some (multisigScript keys)) = [multisigEntry (neededOf keys) (datasSort keys)] := by
  have hlen := List.length_pos_of_ne_nil hpos
  rw [allCheckSigs_tokens (List.nil_append _).symm (scriptToTokens_multisigScript hkeys hle) (neededOf_le hle)
    (by simpa using hlen) (by simpa using hle), map_some_toBytes (length_datasSort_key hkeys)]
  rfl

/-- The list is built from the back: the check of the master key, which the script does
    first, comes last. -/
theorem allCheckSigs_vaultScript (hmk : mk.length = 33) :
    allCheckSigs (some (vaultScript mk keys)) =
      [multisigEntry (neededOf keys) (datasSort keys), ⟨OP_CHECKSIGVERIFY, none, 1, [mk], none⟩] := by
  have hlen := List.length_pos_of_ne_nil hpos
  rw [allCheckSigs_tokens rfl (scriptToTokens_vaultScript hkeys hle hmk) (neededOf_le hle)
    (by simpa using hlen) (by simpa using hle), map_some_toBytes (length_datasSort_key hkeys)]
  cases mk with
  | none => cases hmk
  | some b => rfl

end

/-! ## Too many keys -/

theorem op_lt_of_mem_scriptToTokens {script : Data} {token : ScriptToken} (h : token ∈ scriptToTokens script) :
    token.op < 256 := by
  unfold scriptToTokens at h
  generalize script.length = rounds at h
  generalize script.toBytes = b at h
  induction rounds generalizing b with
  | zero => cases h
  | succ rounds ih =>
    cases b with
    | nil => cases h
    | cons x b =>
      rw [scriptToTokensFrom_succ rounds (by simp)] at h
      rcases List.mem_cons.mp h with rfl | h
      · rw [readToken_op]
        exact x.toNat_lt
      · exact ih _ h

/-- The number of signatures is read from one byte. -/
theorem neededSigs_le {script : Data} {token : ScriptToken} (h : token ∈ allCheckSigs script) : token.neededSigs ≤ 175 := by
  have hop : ∀ i, (scriptTokenI (scriptToTokens script) i).op < 256 := by
    intro i
    unfold scriptTokenI
    rw [List.getD_eq_getElem?_getD]
    cases ht : (scriptToTokens script)[i]? with
    | none => decide
    | some t => exact op_lt_of_mem_scriptToTokens (List.mem_of_getElem? ht)
  unfold allCheckSigs at h
  generalize scriptToTokens script = tokens at h hop
  refine foldl_inv (fun array : ScriptTokens => ∀ t ∈ array, t.neededSigs ≤ 175) (by simp) ?_ token h
  intro i _ array harray
  have hsig : ∀ t ∈ (if checkSigPubKeys tokens i ≠ [] then checkSigEntry tokens i :: array else array), t.neededSigs ≤ 175 := by
    intro t ht
    split at ht
    · rcases List.mem_cons.mp ht with rfl | ht
      · show (1 : Int) ≤ 175
        decide
      · exact harray t ht
    · exact harray t ht
  dsimp only
  split
  · intro t ht
    rcases List.mem_cons.mp ht with rfl | ht
    · have := hop (i - numPubKeysAt tokens i - 2)
      show (1 + (scriptTokenI tokens (i - numPubKeysAt tokens i - 2)).op - OP_1 : Int) ≤ 175
      unfold OP_1
      omega
    · exact hsig t ht
  · exact hsig

/-- The analysers find in the two scripts what the builders put in. -/
structure ScriptsReadBack (mk : Data) (keys : Datas) : Prop where
  pubKeys : allPubKeys (some (multisigScript keys)) = datasSort keys
  vaultPubKeys : allPubKeys (some (vaultScript mk keys)) = datasSort keys ++ [mk]
  checkSigs : allCheckSigs (some (multisigScript keys)) = [multisigEntry (max 1 (2 * keys.length / 3)) (datasSort keys)]
  /-- The first check of the script is the last entry. -/
  vaultCheckSigs : allCheckSigs (some (vaultScript mk keys)) =
    [multisigEntry (max 1 (2 * keys.length / 3)) (datasSort keys), ⟨OP_CHECKSIGVERIFY, none, 1, [mk], none⟩]
  /-- Both numbers are opcodes of numbers. -/
  numbers : ∃ needed count, (OP_1 ≤ needed ∧ needed ≤ OP_16) ∧ (OP_1 ≤ count ∧ count ≤ OP_16) ∧
    multisigScript keys = uint8D needed ++ (datasSort keys).flatMap scriptPush ++ uint8D count ++ uint8D OP_CHECKMULTISIG ∧
    vaultScript mk keys = scriptPush mk ++ uint8D OP_CHECKSIGVERIFY ++ uint8D needed ++
      (datasSort keys).flatMap scriptPush ++ uint8D count ++ uint8D OP_CHECKMULTISIG

theorem neededOf_eq (keys : Datas) : neededOf keys = max 1 (2 * keys.length / 3) := by
  rw [neededOf, Nat.mul_comm]

theorem scripts_read_back_iff {keys : Datas} {mk : Data} (hpos : keys ≠ []) (hkeys : ∀ key ∈ keys, key.length = 33)
    (hmk : mk.length = 33) : ScriptsReadBack mk keys ↔ keys.length ≤ 16 := by
  have hlen := List.length_pos_of_ne_nil hpos
  constructor
  · intro h
    obtain ⟨needed, count, hneeded, hcount, hscript, -⟩ := h.numbers
    have hshort : (multisigEntry (max 1 (2 * keys.length / 3)) (datasSort keys)).neededSigs ≤ 175 :=
      neededSigs_le (h.checkSigs ▸ List.mem_singleton_self _)
    have hle : max 1 (2 * keys.length / 3) ≤ 175 := by
      have : ((max 1 (2 * keys.length / 3) : Nat) : Int) ≤ 175 := hshort
      omega
    unfold multisigScript at hscript
    dsimp only at hscript
    rw [neededOf_datasSort, neededOf_eq, datasSort_length] at hscript
    simp only [List.append_assoc] at hscript
    obtain ⟨hneededByte, hrest⟩ := List.append_inj hscript rfl
    obtain ⟨hcountByte, -⟩ := List.append_inj (List.append_cancel_left hrest) rfl
    -- what a byte holds of a number
    have hbyte : ∀ a b : Nat, uint8D a = uint8D b → a % 256 = b % 256 := by
      intro a b hab
      have := congrArg UInt8.toNat (List.head_eq_of_cons_eq hab)
      simpa only [UInt8.toNat_ofNat'] using this
    have h1 := hbyte _ _ hneededByte
    have h2 := hbyte _ _ hcountByte
    unfold OP_1 OP_16 at *
    have hneeded16 : max 1 (2 * keys.length / 3) ≤ 16 := by omega
    have hkeys25 : keys.length ≤ 25 := by omega
    omega
  · intro hle
    have hneeded := neededOf_le hle
    have hone : 1 ≤ neededOf keys := Nat.le_max_left _ _
    refine ⟨allPubKeys_multisigScript hkeys hpos hle, allPubKeys_vaultScript hkeys hpos hle hmk, ?_, ?_, ?_⟩
    · rw [← neededOf_eq]
      exact allCheckSigs_multisigScript hkeys hpos hle
    · rw [← neededOf_eq]
      exact allCheckSigs_vaultScript hkeys hpos hle hmk
    · refine ⟨OP_1 - 1 + neededOf keys, OP_1 - 1 + keys.length, ?_, ?_, ?_, ?_⟩
      · unfold OP_1 OP_16
        omega
      · unfold OP_1 OP_16
        omega
      · unfold multisigScript
        dsimp only
        rw [neededOf_datasSort, datasSort_length]
      · unfold vaultScript
        dsimp only
        rw [neededOf_datasSort, datasSort_length]

/-- A public key of 33 bytes. -/
def someKey (n : UInt8) : Data := some (0x02 :: List.replicate 32 n)

theorem scripts_read_back_three : ScriptsReadBack (someKey 9) [someKey 3, someKey 1, someKey 2] :=
  (scripts_read_back_iff (by decide) (by decide) (by decide)).mpr (by decide)

/-- Seventeen keys: the byte in front of CHECKMULTISIG is OP_NOP and no key is found. -/
theorem not_scripts_read_back :
    ¬ ∀ (keys : Datas) (mk : Data), keys ≠ [] → (∀ key ∈ keys, key.length = 33) → mk.length = 33 →
      ScriptsReadBack mk keys := by
  intro h
  have hkeys := (h (List.replicate 17 (someKey 1)) (someKey 9) (by decide) (by decide) (by decide)).pubKeys
  unfold multisigScript at hkeys
  rw [List.perm_replicate.mp (datasSort_perm (List.replicate 17 (someKey 1)))] at hkeys
  revert hkeys
  decide +kernel

end BitcoinSpoon
