/-
  BitcoinSpoon.Tracker.Unused — addresses handed out and the scans that look for them
  (`code/TransactionTracker.c`).

  `TTUnusedWallet` counts unpaid addresses from one past the last paid one and takes the one
  with `n` before it. The scans go on for ten addresses after the last one used, that one
  counted: of the ten unpaid addresses after a paid one they see nine. So the last of the
  ten is handed out and not looked at, unless none of the first ten has been paid
  (`unused_watched_iff`).
-/

import BitcoinSpoon.Address.RoundTrip
import BitcoinSpoon.Loop.Rules
import BitcoinSpoon.Tracker.Scan

namespace BitcoinSpoon

open Wire Loop

variable (c : HdCrypto)

/-- An output of a stored transaction pays derivation `i`. -/
def paidAt (self : TransactionTracker) (root : Data) : Nat → Bool :=
  hitAt (scanAt c root) fun (_, items) => anyOutputContainsOneOf self items

/-- A stored transaction pays derivation `i` or spends from it. -/
def usedAt (self : TransactionTracker) (root : Data) : Nat → Bool :=
  hitAt (scanAt c root) fun (_, items) => ttAnyTransactionContainsOneOf self items

/-- Ten derivations in a row that are not used. -/
def Settled (self : TransactionTracker) (root : Data) : Prop :=
  ∃ e, (∀ j, j < e + HDWALLET_SCANAHEAD_COUNT → (scanAt c root j).isSome) ∧
    ∀ j, e ≤ j → j < e + HDWALLET_SCANAHEAD_COUNT → usedAt c self root j = false

/-- What the scans make of a wallet derived from `root`: it is looked at, and once a
    transaction pays it the transaction and the wallet are returned, whatever else is stored
    by then. -/
structure Watched (self : TransactionTracker) (root wallet : Data) : Prop where
  examined : ∀ used result, Returns (ttAllTransactionsFor c self root used) result →
    ∀ key, IsKey (ttKeysAndKeyHashesForWallet c wallet) key → IsKey result.2 key
  returned : ∀ later : TransactionTracker, self.allTransactions ⊆ later.allTransactions → ∀ position tx,
    later.allTransactions[position]? = some tx →
    ttTransactionOutputsContainsOneOf tx (ttKeysAndKeyHashesForWallet c wallet) = true →
    ∀ used result, Returns (ttAllTransactionsFor c later root used) result → position ∈ result.1
  active : ∀ later : TransactionTracker, self.allTransactions ⊆ later.allTransactions →
    anyOutputContainsOneOf later (ttKeysAndKeyHashesForWallet c wallet) = true →
    ∀ result, Returns (ttAllActiveDerivations c later root) result → wallet ∈ result

/-- Derivation `index` has a key, and none of its keys and hashes is one of a derivation
    before it. -/
structure KeyApart (root : Data) (index : Nat) : Prop where
  key : ∀ wallet items, scanAt c root index = some (wallet, items) → pubKeyFromHdWallet c wallet ≠ none
  apart : ∀ j, j < index → ∀ wallet items wallet' items', scanAt c root j = some (wallet, items) →
    scanAt c root index = some (wallet', items') → ∀ key, IsKey items key → ¬ IsKey items' key

variable {c} {self later : TransactionTracker} {root : Data}

/-! ## Matches -/

theorem anyOutput_mono (h : self.allTransactions ⊆ later.allTransactions) {items : Dict}
    (hany : anyOutputContainsOneOf self items = true) : anyOutputContainsOneOf later items = true := by
  rw [anyOutputContainsOneOf, List.any_eq_true] at hany ⊢
  obtain ⟨tx, hmem, htx⟩ := hany
  exact ⟨tx, h hmem, htx⟩

theorem anyTransaction_mono (h : self.allTransactions ⊆ later.allTransactions) {items : Dict}
    (hany : ttAnyTransactionContainsOneOf self items = true) : ttAnyTransactionContainsOneOf later items = true := by
  rw [ttAnyTransactionContainsOneOf, List.any_eq_true] at hany ⊢
  obtain ⟨tx, hmem, htx⟩ := hany
  exact ⟨tx, h hmem, htx⟩

theorem anyTransaction_of_anyOutput {items : Dict} (h : anyOutputContainsOneOf self items = true) :
    ttAnyTransactionContainsOneOf self items = true := by
  rw [anyOutputContainsOneOf, List.any_eq_true] at h
  rw [ttAnyTransactionContainsOneOf, List.any_eq_true]
  obtain ⟨tx, hmem, htx⟩ := h
  exact ⟨tx, hmem, by rw [ttTransactionContainsOneOf, htx, Bool.or_true]⟩

/-- A hit of a weaker test. -/
theorem hitAt_mono {α : Type} {view : Nat → Option α} {hit hit' : α → Bool} (h : ∀ b, hit b = true → hit' b = true) {i : Nat}
    (hi : hitAt view hit i = true) : hitAt view hit' i = true := by
  unfold hitAt at hi ⊢
  cases hview : view i with
  | none =>
    rw [hview] at hi
    cases hi
  | some b =>
    rw [hview] at hi
    exact h b hi

theorem usedAt_of_paidAt {i : Nat} (h : paidAt c self root i = true) : usedAt c self root i = true :=
  hitAt_mono (fun _ => anyTransaction_of_anyOutput) h

theorem mem_addMatching {items : Dict} {array : List Nat} {position : Nat} :
    position ∈ addMatching self items array ↔
      position ∈ array ∨ ∃ tx, self.allTransactions[position]? = some tx ∧ ttTransactionContainsOneOf tx items = true := by
  have hfold := foldl_hit (fun array : List Nat => position ∈ array)
    (fun _ (x : Transaction × Nat) => ttTransactionContainsOneOf x.1 items = true ∧ position = x.2)
    (f := fun array x => if ttTransactionContainsOneOf x.1 items && !array.contains x.2 then array ++ [x.2] else array)
    (by
      rintro array ⟨tx, p⟩ ⟨htx, rfl⟩
      by_cases hmem : position ∈ array <;> simp [htx, hmem])
    (by
      rintro array ⟨tx, p⟩ hmiss
      refine ⟨?_, fun _ => Iff.rfl⟩
      show position ∈ ite _ _ _ ↔ _
      split
      · rename_i hadd
        rw [Bool.and_eq_true] at hadd
        rw [List.mem_append, List.mem_singleton, or_iff_left fun hp => hmiss ⟨hadd.1, hp⟩]
      · exact Iff.rfl)
    self.allTransactions.zipIdx array
  refine hfold.trans (or_congr_right ⟨?_, ?_⟩)
  · rintro ⟨⟨tx, p⟩, hmem, htx, rfl⟩
    exact ⟨tx, List.mem_zipIdx_iff_getElem?.1 hmem, htx⟩
  · rintro ⟨tx, hget, htx⟩
    exact ⟨(tx, position), List.mem_zipIdx_iff_getElem?.2 hget, htx, rfl⟩

theorem mem_addPaid {wallet w : Data} {items : Dict} {result : Datas} :
    w ∈ addPaid self wallet items result ↔ w ∈ result ∨ w = wallet ∧ anyOutputContainsOneOf self items = true := by
  have hfold := foldl_hit (fun result : Datas => w ∈ result)
    (fun _ tx => ttTransactionOutputsContainsOneOf tx items = true ∧ w = wallet)
    (f := fun result tx => if ttTransactionOutputsContainsOneOf tx items then result ++ [wallet] else result)
    (by
      rintro result tx ⟨htx, rfl⟩
      simp [htx])
    (by
      rintro result tx hmiss
      refine ⟨?_, fun _ => Iff.rfl⟩
      show w ∈ ite _ _ _ ↔ _
      split
      · rename_i htx
        rw [List.mem_append, List.mem_singleton, or_iff_left fun hw => hmiss ⟨htx, hw⟩]
      · exact Iff.rfl)
    self.allTransactions result
  rw [addPaid, hfold, anyOutputContainsOneOf, List.any_eq_true]
  refine or_congr_right ⟨?_, ?_⟩
  · rintro ⟨tx, hmem, htx, hw⟩
    exact ⟨hw, tx, hmem, htx⟩
  · rintro ⟨hw, tx, hmem, htx⟩
    exact ⟨tx, hmem, htx, hw⟩

/-! ## The wallet handed out -/

/-- One past the last hit before `k`, 0 if there is none. -/
def pastHit (p : Nat → Bool) : Nat → Nat
  | 0 => 0
  | k + 1 => if p k then k + 1 else pastHit p k

theorem pastHit_le (p : Nat → Bool) (k : Nat) : pastHit p k ≤ k := by
  induction k with
  | zero => exact Nat.le_refl 0
  | succ k ih =>
    unfold pastHit
    split
    · exact Nat.le_refl _
    · exact Nat.le_succ_of_le ih

theorem pastHit_eq_zero {p : Nat → Bool} {k : Nat} : pastHit p k = 0 ↔ ∀ i, i < k → p i = false := by
  induction k with
  | zero => simp [pastHit]
  | succ k ih =>
    unfold pastHit
    split
    · rename_i hk
      refine iff_of_false (Nat.succ_ne_zero k) fun h => ?_
      rw [h k (Nat.lt_succ_self k)] at hk
      cases hk
    · rename_i hk
      rw [ih]
      constructor
      · intro h i hi
        rcases Nat.lt_succ_iff_lt_or_eq.1 hi with hlt | rfl
        · exact h i hlt
        · exact Bool.eq_false_of_not_eq_true hk
      · exact fun h i hi => h i (Nat.lt_succ_of_lt hi)

theorem lastHit_eq_pastHit {α : Type} (view : Nat → Option α) (hit : α → Bool) (k : Nat) :
    lastHit view hit 0 0 k = pastHit (hitAt view hit) k - 1 := by
  induction k with
  | zero => rfl
  | succ k ih =>
    rw [lastHit, pastHit, Nat.zero_add, ih]
    split
    · rfl
    · rfl

/-- `r` is the first index with `n` misses right before it that is itself one. -/
structure HandedOut (p : Nat → Bool) (n r : Nat) : Prop where
  miss : p r = false
  count : r = pastHit p r + n
  first : ∀ j, j < r → p j = false → j < pastHit p j + n

/-- Up to there no more than `n` misses come in a row. -/
theorem HandedOut.run {p : Nat → Bool} {n r : Nat} (h : HandedOut p n r) {j : Nat} (hj : j ≤ r) : j ≤ pastHit p j + n := by
  induction j with
  | zero => exact Nat.zero_le _
  | succ j ih =>
    have hbefore := ih (Nat.le_of_succ_le hj)
    unfold pastHit
    split
    · exact Nat.le_add_right _ _
    · rename_i hmiss
      exact h.first j hj (Bool.eq_false_of_not_eq_true hmiss)

/-- The scan over the same hits comes past `r`, unless the tenth miss after a hit is asked
    for. -/
theorem HandedOut.passes_iff {α : Type} {view : Nat → Option α} {hit : α → Bool} {n r : Nat}
    (h : HandedOut (hitAt view hit) n r) (hn : n < HDWALLET_SCANAHEAD_COUNT) (hview : ∀ j, j ≤ r → (view j).isSome) :
    Passes HDWALLET_SCANAHEAD_COUNT view hit 0 0 (r + 1) ↔
      n ≠ 9 ∨ ∀ i, i < HDWALLET_SCANAHEAD_COUNT → hitAt view hit i = false := by
  have hten : HDWALLET_SCANAHEAD_COUNT = 10 := rfl
  have hcount := h.count
  constructor
  · intro hpass
    by_contra hnot
    obtain ⟨hnine, hpaid⟩ := not_or.1 hnot
    obtain rfl : n = 9 := not_not.1 hnine
    have hopen := (hpass r (Nat.lt_succ_self r)).1
    rw [lastHit_eq_pastHit, Nat.zero_add] at hopen
    have hzero : pastHit (hitAt view hit) r = 0 := by omega
    have hr : r = 9 := by omega
    apply hpaid
    intro i hi
    rcases Nat.lt_or_eq_of_le (Nat.le_of_lt_succ (by omega : i < 9 + 1)) with hlt | rfl
    · exact pastHit_eq_zero.1 hzero i (by omega)
    · rw [← hr]
      exact h.miss
  · intro hcond j hj
    have hjr : j ≤ r := Nat.le_of_lt_succ hj
    have hrun := h.run hjr
    refine ⟨?_, by rw [Nat.zero_add]; exact hview j hjr⟩
    rw [lastHit_eq_pastHit, Nat.zero_add]
    rcases hcond with hnine | hnone
    · omega
    · have hr : r < 10 := by
        by_contra hlong
        have hlt := h.first 9 (by omega) (hnone 9 (by omega))
        have hzero : pastHit (hitAt view hit) 9 = 0 := pastHit_eq_zero.2 fun i hi => hnone i (by omega)
        omega
      omega

theorem unusedWalletFrom_some {n rounds i last r : Nat} {wallet : Data}
    (h : unusedWalletFrom c self root n rounds i last = some (some (r, wallet)))
    (hlast : last = pastHit (paidAt c self root) i)
    (hbefore : ∀ j, j < i → (scanAt c root j).isSome ∧ (paidAt c self root j = false → j < pastHit (paidAt c self root) j + n))
    (hi : i ≤ last + n) :
    HandedOut (paidAt c self root) n r ∧ (∀ j, j ≤ r → (scanAt c root j).isSome) ∧
      scanAt c root r = some (wallet, ttKeysAndKeyHashesForWallet c wallet) := by
  induction rounds generalizing i last with
  | zero => cases h
  | succ rounds ih =>
    unfold unusedWalletFrom at h
    split at h
    swap
    · cases h
    cases hscan : scanAt c root i with
    | none =>
      rw [hscan] at h
      cases h
    | some b =>
      obtain ⟨w, items⟩ := b
      rw [hscan] at h
      have hitems : items = ttKeysAndKeyHashesForWallet c w := by
        obtain ⟨wallet', -, heq⟩ := Option.map_eq_some_iff.1 hscan
        cases heq
        rfl
      have hpaid : paidAt c self root i = anyOutputContainsOneOf self items := by
        rw [paidAt, hitAt, hscan]
        rfl
      have hnext : ∀ {next}, (paidAt c self root i = false → i < pastHit (paidAt c self root) i + n) →
          next = i + 1 → ∀ j, j < next → (scanAt c root j).isSome ∧
            (paidAt c self root j = false → j < pastHit (paidAt c self root) j + n) := by
        rintro next hat rfl j hj
        rcases Nat.lt_succ_iff_lt_or_eq.1 hj with hlt | rfl
        · exact hbefore j hlt
        · exact ⟨by rw [hscan]; rfl, hat⟩
      dsimp only at h
      split at h
      · rename_i hyes
        rw [← hpaid] at hyes
        refine ih h (by rw [pastHit, if_pos hyes]) (hnext (fun hno => ?_) rfl) (Nat.le_add_right _ _)
        rw [hyes] at hno
        cases hno
      · rename_i hno
        rw [← hpaid] at hno
        have hmiss : paidAt c self root i = false := Bool.eq_false_of_not_eq_true hno
        have hle : last ≤ i := by
          rw [hlast]
          exact pastHit_le _ i
        split at h
        · rename_i hcount
          cases h
          refine ⟨⟨hmiss, by omega, fun j hj => (hbefore j hj).2⟩, fun j hj => ?_, by rw [hscan, hitems]⟩
          rcases Nat.lt_or_eq_of_le hj with hlt | rfl
          · exact (hbefore j hlt).1
          · rw [hscan]
            rfl
        · rename_i hcount
          have hlast' : last = pastHit (paidAt c self root) (i + 1) := by rw [pastHit, hmiss, if_neg Bool.false_ne_true, hlast]
          exact ih h hlast' (hnext (fun _ => by omega) rfl) (by omega)

/-! ## What the scans return -/

theorem allTransactionsFor_spec {used : Dict} {result : List Nat × Dict}
    (h : Returns (ttAllTransactionsFor c self root used) result) :
    ∃ t, EndsAt HDWALLET_SCANAHEAD_COUNT (scanAt c root) (fun (_, items) => ttAnyTransactionContainsOneOf self items) 0 0 t ∧
      (∀ position, position ∈ result.1 ↔ ∃ j, j < t ∧ ∃ wallet items, scanAt c root j = some (wallet, items) ∧
        ∃ tx, self.allTransactions[position]? = some tx ∧ ttTransactionContainsOneOf tx items = true) ∧
      ∀ key, IsKey result.2 key ↔
        IsKey used key ∨ ∃ j, j < t ∧ ∃ wallet items, scanAt c root j = some (wallet, items) ∧ IsKey items key := by
  obtain ⟨⟨last, array, used'⟩, hscan, rfl⟩ := returns_map.1 h
  obtain ⟨t, hends, heq⟩ := returns_gapScan.1 hscan
  have hresult := (Prod.mk.inj heq).2
  refine ⟨t, hends, fun position => ?_, fun key => ?_⟩
  · rw [hresult]
    refine (gathered_iff (fun result : List Nat × Dict => position ∈ result.1)
      (fun _ b => ∃ tx, self.allTransactions[position]? = some tx ∧ ttTransactionContainsOneOf tx b.2 = true)
      fun _ _ _ => mem_addMatching).trans ?_
    simp
  · rw [hresult]
    refine (gathered_iff (fun result : List Nat × Dict => IsKey result.2 key) (fun _ b => IsKey b.2 key)
      fun _ _ _ => isKey_addDict).trans ?_
    simp

theorem allActiveDerivations_spec {result : Datas} (h : Returns (ttAllActiveDerivations c self root) result) :
    ∃ t, EndsAt HDWALLET_SCANAHEAD_COUNT (scanAt c root) (fun (_, items) => anyOutputContainsOneOf self items) 0 0 t ∧
      ∀ wallet, wallet ∈ result ↔
        ∃ j, j < t ∧ ∃ items, scanAt c root j = some (wallet, items) ∧ anyOutputContainsOneOf self items = true := by
  obtain ⟨⟨last, result'⟩, hscan, rfl⟩ := returns_map.1 h
  obtain ⟨t, hends, heq⟩ := returns_gapScan.1 hscan
  have hresult := (Prod.mk.inj heq).2
  refine ⟨t, hends, fun wallet => ?_⟩
  rw [hresult]
  refine (gathered_iff (fun result : Datas => wallet ∈ result) (fun _ (b : Data × Dict) => wallet = b.1 ∧ anyOutputContainsOneOf self b.2 = true)
    fun _ _ _ => mem_addPaid).trans ?_
  constructor
  · rintro (hmem | ⟨j, hj, ⟨w, items⟩, hview, rfl, hpaid⟩)
    · cases hmem
    · rw [Nat.zero_add] at hview
      exact ⟨j, hj, items, hview, hpaid⟩
  · rintro ⟨j, hj, items, hview, hpaid⟩
    exact Or.inr ⟨j, hj, (wallet, items), by rw [Nat.zero_add]; exact hview, rfl, hpaid⟩

theorem allTransactionsFor_returns {t : Nat} (used : Dict)
    (h : EndsAt HDWALLET_SCANAHEAD_COUNT (scanAt c root) (fun (_, items) => ttAnyTransactionContainsOneOf self items) 0 0 t) :
    ∃ result, Returns (ttAllTransactionsFor c self root used) result :=
  ⟨_, returns_map.2 ⟨_, returns_gapScan.2 ⟨t, h, rfl⟩, rfl⟩⟩

theorem allActiveDerivations_returns {t : Nat}
    (h : EndsAt HDWALLET_SCANAHEAD_COUNT (scanAt c root) (fun (_, items) => anyOutputContainsOneOf self items) 0 0 t) :
    ∃ result, Returns (ttAllActiveDerivations c self root) result :=
  ⟨_, returns_map.2 ⟨_, returns_gapScan.2 ⟨t, h, rfl⟩, rfl⟩⟩

/-- The scans of a wallet with ten unused derivations in a row return. -/
theorem returns_of_settled (h : Settled c self root) :
    (∀ used, ∃ result, Returns (ttAllTransactionsFor c self root used) result) ∧
      ∃ result, Returns (ttAllActiveDerivations c self root) result := by
  obtain ⟨e, hview, hquiet⟩ := h
  have hunpaid : ∀ j, e ≤ j → j < e + HDWALLET_SCANAHEAD_COUNT → paidAt c self root j = false := by
    intro j hj hlt
    rw [← Bool.not_eq_true]
    intro hpaid
    have hused := usedAt_of_paidAt hpaid
    rw [hquiet j hj hlt] at hused
    cases hused
  obtain ⟨t, -, hused⟩ := gapScan_returns hview hquiet
  obtain ⟨s, -, hpaid⟩ := gapScan_returns hview hunpaid
  exact ⟨fun used => allTransactionsFor_returns used hused, allActiveDerivations_returns hpaid⟩

/-! ## Watched or not -/

theorem scanAt_items {i : Nat} {wallet : Data} {items : Dict} (h : scanAt c root i = some (wallet, items)) :
    items = ttKeysAndKeyHashesForWallet c wallet := by
  obtain ⟨wallet', -, heq⟩ := Option.map_eq_some_iff.1 h
  cases heq
  rfl

/-- What the paid scan comes past is watched. -/
theorem watched_of_passes {r : Nat} {wallet : Data} (hscan : scanAt c root r = some (wallet, ttKeysAndKeyHashesForWallet c wallet))
    (hpass : Passes HDWALLET_SCANAHEAD_COUNT (scanAt c root) (fun (_, items) => anyOutputContainsOneOf self items) 0 0 (r + 1)) :
    Watched c self root wallet := by
  have hused : ∀ later : TransactionTracker, self.allTransactions ⊆ later.allTransactions →
      Passes HDWALLET_SCANAHEAD_COUNT (scanAt c root) (fun (_, items) => ttAnyTransactionContainsOneOf later items) 0 0 (r + 1) :=
    fun later hsub => passes_mono hpass (fun _ _ h => h)
      (fun _ _ => hitAt_mono fun _ h => anyTransaction_mono hsub (anyTransaction_of_anyOutput h)) (Nat.le_refl _)
  constructor
  · intro used result hreturns key hkey
    obtain ⟨t, hends, -, hkeys⟩ := allTransactionsFor_spec hreturns
    have hlt : r + 1 ≤ t := (hused self (List.Subset.refl _)).le_of_ends hends
    exact (hkeys key).2 (Or.inr ⟨r, hlt, wallet, _, hscan, hkey⟩)
  · intro later hsub position tx hget hpays used result hreturns
    obtain ⟨t, hends, harray, -⟩ := allTransactionsFor_spec hreturns
    have hlt : r + 1 ≤ t := (hused later hsub).le_of_ends hends
    refine (harray position).2 ⟨r, hlt, wallet, _, hscan, tx, hget, ?_⟩
    rw [ttTransactionContainsOneOf, hpays, Bool.or_true]
  · intro later hsub hpays result hreturns
    obtain ⟨t, hends, hmem⟩ := allActiveDerivations_spec hreturns
    have hlater : Passes HDWALLET_SCANAHEAD_COUNT (scanAt c root) (fun (_, items) => anyOutputContainsOneOf later items) 0 0 (r + 1) :=
      passes_mono hpass (fun _ _ h => h) (fun _ _ => hitAt_mono fun _ => anyOutput_mono hsub) (Nat.le_refl _)
    exact (hmem wallet).2 ⟨r, hlater.le_of_ends hends, _, hscan, hpays⟩

/-- A transaction that pays a key. -/
def payTo (c : HdCrypto) (wallet : Data) : Transaction :=
  { version := 1, inputs := [], outputs := [⟨some (p2pkhPubScript (hash160 c.toCrypto (pubKeyFromHdWallet c wallet))), 1⟩],
    locktime := 0 }

/-- The transaction matches what has the hash of the key. -/
theorem payTo_pays {wallet : Data} (hkey : pubKeyFromHdWallet c wallet ≠ none) (items : Dict) :
    ttTransactionOutputsContainsOneOf (payTo c wallet) items = true ↔
      IsKey items (hash160 c.toCrypto (pubKeyFromHdWallet c wallet)).toBytes := by
  obtain ⟨key, hk⟩ := Option.ne_none_iff_exists'.1 hkey
  obtain ⟨hash, hhash, hlen⟩ := hash160_some c.toCrypto key
  have hset : ∀ k, IsKey (transactionOutputGetScriptTokensPushDataSet ⟨some (p2pkhPubScript (some hash)), 1⟩) k ↔ k = hash := by
    intro k
    rw [transactionOutputGetScriptTokensPushDataSet, isKey_ofKeys]
    dsimp only
    rw [tokens_p2pkh hlen]
    have hne : hash ≠ [] := by
      rintro rfl
      cases hlen
    constructor
    · rintro ⟨d, hmem, rfl⟩
      obtain ⟨hmem, hpos⟩ := List.mem_filter.1 hmem
      simp only [opToken, pushToken, List.map_cons, List.map_nil, List.mem_cons, List.not_mem_nil, or_false] at hmem
      rcases hmem with rfl | rfl | rfl | rfl | rfl
      · simp [Data.length, Data.toBytes] at hpos
      · simp [Data.length, Data.toBytes] at hpos
      · rfl
      · simp [Data.length, Data.toBytes] at hpos
      · simp [Data.length, Data.toBytes] at hpos
    · rintro rfl
      exact ⟨some k, by simp [opToken, pushToken, Data.length, hne], rfl⟩
  rw [ttTransactionOutputsContainsOneOf, payTo, List.any_cons, List.any_nil, Bool.or_false, dictDoesIntersect_iff, hk, hhash,
    toBytes_some]
  constructor
  · rintro ⟨k, hpush, hitem⟩
    rw [(hset k).1 hpush] at hitem
    exact hitem
  · intro hitem
    exact ⟨hash, (hset hash).2 rfl, hitem⟩

/-- Where the paid scan ends before the wallet, one more payment does not bring it there. -/
theorem not_watched_of_ends {r t : Nat} {wallet : Data} (hscan : scanAt c root r = some (wallet, ttKeysAndKeyHashesForWallet c wallet))
    (hapart : KeyApart c root r) (hle : t ≤ r)
    (hends : EndsAt HDWALLET_SCANAHEAD_COUNT (scanAt c root) (fun (_, items) => anyOutputContainsOneOf self items) 0 0 t) :
    ¬ Watched c self root wallet := by
  rintro ⟨-, -, hactive⟩
  have hkey := hapart.key wallet _ hscan
  let hash := (hash160 c.toCrypto (pubKeyFromHdWallet c wallet)).toBytes
  have hhash : IsKey (ttKeysAndKeyHashesForWallet c wallet) hash := by
    simp [ttKeysAndKeyHashesForWallet, hash]
  let later : TransactionTracker := { self with allTransactions := self.allTransactions ++ [payTo c wallet] }
  have hsub : self.allTransactions ⊆ later.allTransactions := List.subset_append_left _ _
  have hlater : ∀ items, anyOutputContainsOneOf later items = true ↔
      anyOutputContainsOneOf self items = true ∨ IsKey items hash := by
    intro items
    rw [← payTo_pays hkey items, anyOutputContainsOneOf, List.any_append, Bool.or_eq_true, List.any_cons, List.any_nil, Bool.or_false]
    exact Iff.rfl
  -- before the wallet the payment changes nothing
  have hsame : ∀ j, j < t →
      hitAt (scanAt c root) (fun (_, items) => anyOutputContainsOneOf self items) (0 + j) =
        hitAt (scanAt c root) (fun (_, items) => anyOutputContainsOneOf later items) (0 + j) := by
    intro j hj
    rw [Nat.zero_add, Bool.eq_iff_iff]
    refine ⟨hitAt_mono fun _ => anyOutput_mono hsub, fun h => ?_⟩
    unfold hitAt at h ⊢
    cases hview : scanAt c root j with
    | none =>
      rw [hview] at h
      cases h
    | some b =>
      obtain ⟨w, items⟩ := b
      rw [hview] at h
      exact ((hlater items).1 h).resolve_right fun hitem =>
        hapart.apart j (Nat.lt_of_lt_of_le hj hle) w items wallet _ hview hscan hash hitem hhash
  have hends' : EndsAt HDWALLET_SCANAHEAD_COUNT (scanAt c root) (fun (_, items) => anyOutputContainsOneOf later items) 0 0 t := by
    refine ⟨passes_mono hends.1 (fun _ _ h => h) (fun j hj h => ?_) (Nat.le_refl _), ?_⟩
    · rw [← hsame j hj]
      exact h
    · rw [← lastHit_congr hsame]
      exact hends.2
  obtain ⟨result, hreturns⟩ := allActiveDerivations_returns hends'
  have hmem := hactive later hsub ((hlater _).2 (Or.inr hhash)) result hreturns
  obtain ⟨s, hs, hiff⟩ := allActiveDerivations_spec hreturns
  obtain ⟨j, hj, items, hj', -⟩ := (hiff wallet).1 hmem
  have hjr : j < r := by
    have hst := hs.eq hends'
    omega
  exact hapart.apart j hjr wallet items wallet _ hj' hscan hash (by rw [scanAt_items hj']; exact hhash) hhash

/-- The scans of a settled wallet return; and the wallet handed out is one they look at,
    exactly when it is not the tenth or none of the first ten has been paid. -/
theorem unused_watched_iff {n r : Nat} {wallet : Data} (hreturns : Returns (ttUnusedWallet c self root n) (some (r, wallet)))
    (hapart : KeyApart c root r) :
    (∀ later, Settled c later root → (∀ used, ∃ result, Returns (ttAllTransactionsFor c later root used) result) ∧
        ∃ result, Returns (ttAllActiveDerivations c later root) result) ∧
      (Watched c self root wallet ↔
        n % HDWALLET_SCANAHEAD_COUNT ≠ 9 ∨ ∀ i, i < HDWALLET_SCANAHEAD_COUNT → paidAt c self root i = false) := by
  refine ⟨fun later => returns_of_settled, ?_⟩
  obtain ⟨rounds, hrun⟩ := hreturns
  obtain ⟨hhanded, hview, hscan⟩ := unusedWalletFrom_some hrun rfl (fun j hj => absurd hj (Nat.not_lt_zero j)) (Nat.zero_le _)
  have hcond := hhanded.passes_iff (Nat.mod_lt n (by decide)) hview
  rw [paidAt, ← hcond]
  constructor
  · intro hwatched
    rcases @passes_or_stops _ HDWALLET_SCANAHEAD_COUNT (scanAt c root) (fun (_, items) => anyOutputContainsOneOf self items) 0 0
      (r + 1) with hpass | ⟨t, ht, hpass, hstop⟩
    · exact hpass
    · have hsome := hview t (Nat.le_of_lt_succ ht)
      have hends := hstop.resolve_right fun hnone => by
        rw [Nat.zero_add] at hnone
        rw [hnone] at hsome
        cases hsome
      exact absurd hwatched (not_watched_of_ends hscan hapart (Nat.le_of_lt_succ ht) ⟨hpass, hends⟩)
  · exact watched_of_passes hscan

/-- A wallet whose first address has been paid. -/
def paidFirst : TransactionTracker := ⟨[payTo countCrypto (countWallet 0)], [], [], 0, 0⟩

theorem second_apart : KeyApart countCrypto countRoot 1 := by
  have hkey : (scanAt countCrypto countRoot 1).map (fun b => (pubKeyFromHdWallet countCrypto b.1).isSome) = some true := by
    decide +kernel
  have hapart : (scanAt countCrypto countRoot 0).bind (fun b => (scanAt countCrypto countRoot 1).map fun b' =>
      dictDoesIntersect b.2 b'.2) = some false := by decide +kernel
  constructor
  · rintro wallet items hscan hnone
    rw [hscan, Option.map_some, hnone] at hkey
    cases hkey
  · intro j hj wallet items wallet' items' h h' key hitem hitem'
    obtain rfl : j = 0 := by omega
    rw [h, h', Option.bind_some, Option.map_some] at hapart
    have hboth := dictDoesIntersect_iff.2 ⟨key, hitem, hitem'⟩
    rw [Option.some.inj hapart] at hboth
    cases hboth

theorem unused_watched_second : Watched countCrypto paidFirst countRoot (countWallet 1) :=
  (unused_watched_iff (n := 0) ⟨3, by decide +kernel⟩ second_apart).2.2 (Or.inl (by decide))

/-- The tenth address after the first one. -/
theorem not_unused_watched :
    Returns (ttUnusedWallet countCrypto paidFirst countRoot 9) (some (10, countWallet 10)) ∧
      ¬ Watched countCrypto paidFirst countRoot (countWallet 10) := by
  refine ⟨⟨12, by decide +kernel⟩, ?_⟩
  rintro ⟨hexamined, -, -⟩
  have hkey : IsKey (ttKeysAndKeyHashesForWallet countCrypto (countWallet 10))
      (pubKeyFromHdWallet countCrypto (countWallet 10)).toBytes := by simp [ttKeysAndKeyHashesForWallet]
  have hmissing : (ttAllTransactionsFor countCrypto paidFirst countRoot dictNew 11).map (fun result =>
      dictHasKey result.2 (some (pubKeyFromHdWallet countCrypto (countWallet 10)).toBytes)) = some false := by decide +kernel
  obtain ⟨result, hresult, hno⟩ := Option.map_eq_some_iff.1 hmissing
  have hyes := hexamined dictNew result ⟨11, hresult⟩ _ hkey
  rw [IsKey, hno] at hyes
  cases hyes

end BitcoinSpoon
