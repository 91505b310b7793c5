/-
  BitcoinSpoon.Tracker.Fresh — the addresses handed out are unpaid and in order
  (`code/TransactionTracker.c`).

  The loop of `TTUnusedWallet` is bounded by ten past the last paid address, and what it
  returns is less than ten past it. So the loop reaches the first address with `n` unpaid
  ones before it (`unusedWalletFrom_reaches`), and for a larger `n` it goes further
  (`HandedOut.lt`).
-/

import BitcoinSpoon.Tracker.Unused

namespace BitcoinSpoon

open Loop

variable (c : HdCrypto)

/-- No stored output pushes one of the keys and hashes. -/
def Unpaid (self : TransactionTracker) (wallet : Data) : Prop :=
  ∀ tx ∈ self.allTransactions, ∀ output ∈ tx.outputs, ∀ key, IsKey (ttKeysAndKeyHashesForWallet c wallet) key →
    ¬ IsKey (transactionOutputGetScriptTokensPushDataSet output) key

/-- From `e` on ten derivations are unpaid, and up to there derivation does not fail. -/
structure UsedBelow (self : TransactionTracker) (root : Data) (e : Nat) : Prop where
  derives : ∀ i, i < e + HDWALLET_SCANAHEAD_COUNT → ∃ wallet, walletAt c root i = some (some wallet)
  unpaid : ∀ i, e ≤ i → i < e + HDWALLET_SCANAHEAD_COUNT → paidAt c self root i = false

variable {c} {self : TransactionTracker} {root : Data}

theorem unpaid_iff {wallet : Data} :
    Unpaid c self wallet ↔ anyOutputContainsOneOf self (ttKeysAndKeyHashesForWallet c wallet) = false := by
  rw [← Bool.not_eq_true, anyOutputContainsOneOf, List.any_eq_true]
  constructor
  · rintro h ⟨tx, htx, hpays⟩
    rw [ttTransactionOutputsContainsOneOf, List.any_eq_true] at hpays
    obtain ⟨output, houtput, hboth⟩ := hpays
    obtain ⟨key, hpush, hkey⟩ := dictDoesIntersect_iff.1 hboth
    exact h tx htx output houtput key hkey hpush
  · intro h tx htx output houtput key hkey hpush
    refine h ⟨tx, htx, ?_⟩
    rw [ttTransactionOutputsContainsOneOf, List.any_eq_true]
    exact ⟨output, houtput, dictDoesIntersect_iff.2 ⟨key, hpush, hkey⟩⟩

/-! ## The loop gets there -/

/-- Misses do not move it. -/
theorem pastHit_of_quiet {p : Nat → Bool} {k s : Nat} (h : ∀ i, k ≤ i → i < k + s → p i = false) :
    pastHit p (k + s) = pastHit p k := by
  induction s with
  | zero => rfl
  | succ s ih =>
    rw [← Nat.add_assoc, pastHit, h (k + s) (by omega) (by omega), if_neg Bool.false_ne_true]
    exact ih fun i hi hlt => h i hi (by omega)

theorem miss_of_pastHit_le {p : Nat → Bool} {k i : Nat} (hle : pastHit p k ≤ i) (hlt : i < k) : p i = false := by
  induction k with
  | zero => cases hlt
  | succ k ih =>
    unfold pastHit at hle
    split at hle
    · omega
    · rename_i hmiss
      rcases Nat.lt_succ_iff_lt_or_eq.1 hlt with hlt | rfl
      · exact ih hle hlt
      · exact Bool.eq_false_of_not_eq_true hmiss

/-- Among ten misses in a row, or before them, there is one with `n` misses before it. -/
theorem exists_count {p : Nat → Bool} {e n : Nat} (h : ∀ i, e ≤ i → i < e + HDWALLET_SCANAHEAD_COUNT → p i = false)
    (hn : n < HDWALLET_SCANAHEAD_COUNT) :
    ∃ r, r < e + HDWALLET_SCANAHEAD_COUNT ∧ p r = false ∧ r = pastHit p r + n := by
  have hle := pastHit_le p e
  have hmiss : ∀ i, pastHit p e ≤ i → i < e + HDWALLET_SCANAHEAD_COUNT → p i = false := by
    intro i hi hlt
    by_cases hbefore : i < e
    · exact miss_of_pastHit_le hi hbefore
    · exact h i (Nat.le_of_not_lt hbefore) hlt
  have hself : pastHit p (pastHit p e) = pastHit p e := by
    obtain ⟨s, hs⟩ := Nat.exists_eq_add_of_le hle
    have hquiet := @pastHit_of_quiet p (pastHit p e) s fun i hi hlt => hmiss i hi (by omega)
    rw [← hs] at hquiet
    exact hquiet.symm
  refine ⟨pastHit p e + n, by omega, hmiss _ (Nat.le_add_right _ _) (by omega), ?_⟩
  rw [pastHit_of_quiet fun i hi hlt => hmiss i hi (by omega), hself]

/-- A loop that has not passed such an index returns. -/
theorem unusedWalletFrom_reaches {n r : Nat} (hn : n < HDWALLET_SCANAHEAD_COUNT) (hview : ∀ i, i ≤ r → (scanAt c root i).isSome)
    (hmiss : paidAt c self root r = false) (hcount : r = pastHit (paidAt c self root) r + n) {more i last : Nat} (hr : r = i + more)
    (hlast : last = pastHit (paidAt c self root) i) (hi : i ≤ last + n) :
    ∃ found, unusedWalletFrom c self root n (more + 1) i last = some (some found) := by
  induction more generalizing i last with
  | zero =>
    obtain rfl : r = i := hr
    obtain ⟨⟨wallet, items⟩, hscan⟩ := Option.isSome_iff_exists.1 (hview r (Nat.le_refl r))
    rw [paidAt, hitAt, hscan] at hmiss
    change anyOutputContainsOneOf self items = false at hmiss
    refine ⟨(r, wallet), ?_⟩
    rw [unusedWalletFrom, if_pos (by omega), hscan]
    dsimp only
    rw [hmiss, if_neg Bool.false_ne_true, if_pos (by omega)]
  | succ more ih =>
    obtain ⟨⟨wallet, items⟩, hscan⟩ := Option.isSome_iff_exists.1 (hview i (by omega))
    have hpaid : paidAt c self root i = anyOutputContainsOneOf self items := by
      rw [paidAt, hitAt, hscan]
      rfl
    unfold unusedWalletFrom
    rw [if_pos (by omega), hscan]
    dsimp only
    split
    · rename_i hyes
      refine ih (by omega) ?_ (Nat.le_add_right _ _)
      rw [pastHit, hpaid, if_pos hyes]
    · rename_i hno
      have hstay : pastHit (paidAt c self root) (i + 1) = pastHit (paidAt c self root) i := by
        rw [pastHit, hpaid, if_neg hno]
      split
      · exact ⟨_, rfl⟩
      · exact ih (by omega) (by rw [hstay, hlast]) (by omega)

/-! ## Freshness and order -/

/-- What is returned is derived at its index and unpaid. -/
theorem ttUnusedWallet_some {n r : Nat} {wallet : Data} (h : Returns (ttUnusedWallet c self root n) (some (r, wallet))) :
    HandedOut (paidAt c self root) (n % HDWALLET_SCANAHEAD_COUNT) r ∧ walletAt c root r = some wallet ∧ Unpaid c self wallet := by
  obtain ⟨rounds, hrun⟩ := h
  obtain ⟨hhanded, -, hscan⟩ := unusedWalletFrom_some hrun rfl (fun j hj => absurd hj (Nat.not_lt_zero j)) (Nat.zero_le _)
  obtain ⟨wallet', hwallet, heq⟩ := Option.map_eq_some_iff.1 hscan
  obtain rfl : wallet' = wallet := (Prod.mk.inj heq).1
  refine ⟨hhanded, hwallet, unpaid_iff.2 ?_⟩
  have hmiss := hhanded.miss
  rw [paidAt, hitAt, hscan] at hmiss
  exact hmiss

/-- With more misses before it the index is larger. -/
theorem HandedOut.lt {p : Nat → Bool} {n m r r' : Nat} (h : HandedOut p n r) (h' : HandedOut p m r') (hnm : n < m) : r < r' := by
  by_contra hle
  have hcount := h.count
  have hcount' := h'.count
  rcases Nat.lt_or_eq_of_le (Nat.le_of_not_lt hle) with hlt | rfl
  · have hfirst := h.first r' hlt h'.miss
    omega
  · omega

/-- While derivation does not fail and ten addresses in a row are unpaid, an unpaid address is
    returned for every `n`; and for `n` below ten a larger `n` gives a larger index. -/
theorem unused_wallet_fresh {e : Nat} (hused : UsedBelow c self root e) :
    (∀ n, ∃ r wallet, Returns (ttUnusedWallet c self root n) (some (r, some wallet)) ∧
        walletAt c root r = some (some wallet) ∧ Unpaid c self (some wallet)) ∧
      ∀ n m, n < m → m < HDWALLET_SCANAHEAD_COUNT → ∀ r r' wallet wallet',
        Returns (ttUnusedWallet c self root n) (some (r, wallet)) →
        Returns (ttUnusedWallet c self root m) (some (r', wallet')) → r < r' := by
  obtain ⟨hderives, hquiet⟩ := hused
  constructor
  · intro n
    have hn : n % HDWALLET_SCANAHEAD_COUNT < HDWALLET_SCANAHEAD_COUNT := Nat.mod_lt n (by decide)
    obtain ⟨r, hr, hmiss, hcount⟩ := exists_count hquiet hn
    have hview : ∀ i, i ≤ r → (scanAt c root i).isSome := by
      intro i hi
      obtain ⟨wallet, hwallet⟩ := hderives i (Nat.lt_of_le_of_lt hi hr)
      rw [scanAt, hwallet]
      rfl
    obtain ⟨⟨found, wallet⟩, hfound⟩ :=
      unusedWalletFrom_reaches hn hview hmiss hcount (Nat.zero_add r).symm rfl (Nat.zero_le _)
    have hreturns : Returns (ttUnusedWallet c self root n) (some (found, wallet)) := ⟨r + 1, hfound⟩
    obtain ⟨hhanded, hwallet, hunpaid⟩ := ttUnusedWallet_some hreturns
    have hfoundr : found ≤ r := by
      by_contra hlt
      have hfirst := hhanded.first r (Nat.lt_of_not_le hlt) hmiss
      omega
    obtain ⟨w, hw⟩ := hderives found (Nat.lt_of_le_of_lt hfoundr hr)
    obtain rfl : wallet = some w := Option.some.inj (hwallet.symm.trans hw)
    exact ⟨found, w, hreturns, hwallet, hunpaid⟩
  · intro n m hnm hm r r' wallet wallet' h h'
    obtain ⟨hhanded, -, -⟩ := ttUnusedWallet_some h
    obtain ⟨hhanded', -, -⟩ := ttUnusedWallet_some h'
    rw [Nat.mod_eq_of_lt (Nat.lt_trans hnm hm)] at hhanded
    rw [Nat.mod_eq_of_lt hm] at hhanded'
    exact hhanded.lt hhanded' hnm

theorem unused_wallet_fresh_second :
    ∃ r wallet, Returns (ttUnusedWallet countCrypto paidFirst countRoot 3) (some (r, some wallet)) ∧ Unpaid countCrypto paidFirst (some wallet) := by
  have hderives : ∀ i, i < 11 → (walletAt countCrypto countRoot i).join.isSome = true := by decide +kernel
  have hused : UsedBelow countCrypto paidFirst countRoot 1 := by
    constructor
    · intro i hi
      obtain ⟨wallet, hwallet⟩ := Option.isSome_iff_exists.1 (hderives i hi)
      exact ⟨wallet, Option.join_eq_some_iff.1 hwallet⟩
    · decide +kernel
  obtain ⟨r, wallet, hreturns, -, hunpaid⟩ := (unused_wallet_fresh hused).1 3
  exact ⟨r, wallet, hreturns, hunpaid⟩

end BitcoinSpoon
