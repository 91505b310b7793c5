/-
  BitcoinSpoon.Tracker.LookAhead — how many watched addresses are left
  (`code/TransactionTracker.c`).

  `TTUnusedAddresses` scans from the last address that was used when the filter was made,
  and as if none had been: the scan looks at no index from ten on. So it agrees with
  `TTLastUsedAddress`, now and after any transactions, exactly for a wallet whose last used
  address was below ten (`look_ahead_real_iff`).
-/

import BitcoinSpoon.Tracker.Update
import BitcoinSpoon.Tracker.Unused
import BitcoinSpoon.Loop.Runs

namespace BitcoinSpoon

open Wire Loop

variable (c : HdCrypto) (lib : BloomLibrary) (transactionTrackerBloomaheadCount : Int32)

/-- The count stored for a wallet. -/
def lookAheadOf (self : BloomTracker) (hdWallet : Data) : Option Int32 := do
  let index ← datasMatchingDataIndex (ttAllHdWallets self) hdWallet
  let stored ← (ttLookAheadCount self)[index]?
  dataGetInt stored

/-- What is returned is the count less the last used address. -/
def RealGap (self : BloomTracker) (hdWallet : Data) : Prop :=
  ∀ unused, Returns (ttUnusedAddresses c transactionTrackerBloomaheadCount self hdWallet) unused ↔
    ∃ count last, lookAheadOf self hdWallet = some count ∧ Returns (ttLastUsedAddress c self hdWallet) last ∧ unused = count - last

/-- The last used address is one of the first ten. -/
def LastUsedBelow (self : BloomTracker) (hdWallet : Data) : Prop :=
  ∃ last, Returns (ttLastUsedAddress c self hdWallet) last ∧ last < Int32.ofNat HDWALLET_SCANAHEAD_COUNT

variable {c lib transactionTrackerBloomaheadCount} {km : KeyManager} {self updated next : BloomTracker}

/-! ## The update and what follows -/

/-- The tracker that the key set is built for, and what is stored of it. -/
theorem updateBloomFilter_cases {rounds : Nat}
    (h : ttUpdateBloomFilter c lib transactionTrackerBloomaheadCount km self rounds = some updated) :
    ∃ built : BloomTracker, ∃ counts vaultCount vaultCounts lasts set cache filter,
      (built.toTransactionTracker = self.toTransactionTracker ∧ built.keysAndKeyHashes = self.keysAndKeyHashes ∧
        built.scriptAndHashCache = [] ∧ built.allHdWallets = datasSerialize km.allHdWalletPubRoots ∧
        built.vaultCount = dataInt (Int32.ofNat (kmVaultNames km).length)) ∧
      (built.lookAheadCount = datasSerialize counts ∧
        (ttAllHdWallets built).mapM (fun w => (ttLastUsedAddress c built w rounds).map fun last =>
          dataInt (last + transactionTrackerBloomaheadCount)) = some counts) ∧
      (dataGetInt built.vaultCount = some vaultCount ∧ built.vaultLookAheadCount = datasSerialize vaultCounts ∧
        (List.range vaultCount.toInt.toNat).mapM lasts = some vaultCounts ∧ ∀ i stored, lasts i = some stored → stored.length = 4) ∧
      buildKeysAndKeyHashes c km built = some (set, cache) ∧
      bloomFilterArray lib (set.elements.map fun item => some item.1) = some filter ∧
      updated = { built with keysAndKeyHashes := set, scriptAndHashCache := cache, bloomFilter := filter } := by
  unfold ttUpdateBloomFilter at h
  obtain ⟨counts, hcounts, h⟩ := Option.bind_eq_some_iff.1 h
  obtain ⟨vaultCount, hvaultCount, h⟩ := Option.bind_eq_some_iff.1 h
  obtain ⟨vaultCounts, hvaultCounts, h⟩ := Option.bind_eq_some_iff.1 h
  obtain ⟨⟨set, cache⟩, hbuild, h⟩ := Option.bind_eq_some_iff.1 h
  obtain ⟨filter, hfilter, heq⟩ := Option.bind_eq_some_iff.1 h
  let built : BloomTracker := { self with
    allHdWallets := datasSerialize km.allHdWalletPubRoots
    vaultCount := dataInt (Int32.ofNat (kmVaultNames km).length)
    scriptAndHashCache := []
    lookAheadCount := datasSerialize counts
    vaultLookAheadCount := datasSerialize vaultCounts }
  refine ⟨built, counts, vaultCount, vaultCounts, _, set, cache, filter, ⟨rfl, rfl, rfl, rfl, rfl⟩, ⟨rfl, ?_⟩,
    ⟨hvaultCount, rfl, hvaultCounts, fun i stored hi => ?_⟩, hbuild, hfilter, (Option.some.inj heq).symm⟩
  · rw [← hcounts]
    refine congrArg (fun f => List.mapM f _) (funext fun w => ?_)
    rw [Option.map_eq_bind]
    rfl
  · obtain ⟨last, -, hi⟩ := Option.bind_eq_some_iff.1 hi
    rw [← Option.some.inj hi]
    exact dataInt_length _

/-- What an update leaves, except for the key set. -/
theorem updateBloomFilter_spec {rounds : Nat}
    (h : ttUpdateBloomFilter c lib transactionTrackerBloomaheadCount km self rounds = some updated) :
    updated.toTransactionTracker = self.toTransactionTracker ∧
      updated.allHdWallets = datasSerialize km.allHdWalletPubRoots ∧
      updated.vaultCount = dataInt (Int32.ofNat (kmVaultNames km).length) ∧
      ∃ counts, updated.lookAheadCount = datasSerialize counts ∧
        (ttAllHdWallets updated).mapM (fun w => (ttLastUsedAddress c updated w rounds).map fun last =>
          dataInt (last + transactionTrackerBloomaheadCount)) = some counts := by
  obtain ⟨built, counts, -, -, -, -, -, -, ⟨htracker, -, -, hwallets, hvaults⟩, ⟨hcounts, hlasts⟩, -, -, -, rfl⟩ :=
    updateBloomFilter_cases h
  exact ⟨htracker, hwallets, hvaults, counts, hcounts, hlasts⟩

theorem addTransaction_subset {interesting : TransactionTracker → Transaction → Bool} {tracker after : TransactionTracker}
    {data : Data} {result : Int} (h : ttAddTransaction c.toCrypto interesting tracker data = some (after, result)) :
    tracker.allTransactions ⊆ after.allTransactions := by
  unfold ttAddTransaction at h
  obtain ⟨transaction, -, h⟩ := Option.bind_eq_some_iff.1 h
  dsimp only at h
  split at h
  · cases h
    exact List.Subset.refl _
  split at h
  · cases h
    exact List.Subset.refl _
  · cases h
    exact List.subset_append_left _ _

/-- Adding keeps the wallets, their counts and the transactions. -/
theorem after_adds {datas : Datas} (h : after (bloomAddTransaction c) updated datas = some next) :
    next.allHdWallets = updated.allHdWallets ∧ next.lookAheadCount = updated.lookAheadCount ∧
      next.vaultCount = updated.vaultCount ∧ updated.allTransactions ⊆ next.allTransactions := by
  refine @after_inv _ _ _ (fun s : BloomTracker => s.allHdWallets = updated.allHdWallets ∧
    s.lookAheadCount = updated.lookAheadCount ∧ s.vaultCount = updated.vaultCount ∧
    updated.allTransactions ⊆ s.allTransactions) ?_ _ _ _ ⟨rfl, rfl, rfl, List.Subset.refl _⟩ h
  rintro s data s' ⟨hwallets, hcounts, hvaults, hsub⟩ hstep
  obtain ⟨⟨tracker, result⟩, hadd, rfl⟩ := Option.map_eq_some_iff.1 hstep
  exact ⟨hwallets, hcounts, hvaults, List.Subset.trans hsub (addTransaction_subset hadd)⟩

/-! ## One wallet -/

theorem matchingIndex_of_mem {datas : Datas} {w : Data} (h : w ∈ datas) :
    ∃ index w', datasMatchingDataIndex datas w = some index ∧ datas[index]? = some w' ∧ dataEqual w' w = true := by
  cases hfind : datasMatchingDataIndex datas w with
  | none =>
    have hnone := List.findIdx?_eq_none_iff.1 hfind w h
    rw [dataEqual_iff.2 rfl] at hnone
    cases hnone
  | some index =>
    obtain ⟨hlt, heq, -⟩ := List.findIdx?_eq_some_iff_getElem.1 hfind
    exact ⟨index, datas[index], rfl, List.getElem?_eq_getElem hlt, heq⟩

/-- What a wallet's count was computed from. -/
theorem lookAheadOf_updated {rounds : Nat}
    (h : ttUpdateBloomFilter c lib transactionTrackerBloomaheadCount km self rounds = some updated) {w : Data}
    (hw : w ∈ ttAllHdWallets updated) :
    ∃ last, ttLastUsedAddress c updated w rounds = some last ∧
      lookAheadOf updated w = some (last + transactionTrackerBloomaheadCount) := by
  obtain ⟨-, -, -, counts, hcounts, hmap⟩ := updateBloomFilter_spec h
  obtain ⟨index, w', hindex, hget, heq⟩ := matchingIndex_of_mem hw
  have hsame : w' = w := by
    obtain ⟨bytes, rfl, -⟩ := mem_datasDeserialize hw
    obtain ⟨bytes', rfl, -⟩ := mem_datasDeserialize (List.mem_of_getElem? hget)
    exact congrArg some (dataEqual_iff.1 heq)
  subst hsame
  obtain ⟨count, hcount, hmapped⟩ := (mapM_eq_some_iff.1 hmap).get hget
  have hfits : Fits counts := by
    intro d hd
    obtain ⟨x, -, hx⟩ := mem_mapM hmap hd
    obtain ⟨value, -, rfl⟩ := Option.map_eq_some_iff.1 hx
    rw [dataInt_length]
    decide
  obtain ⟨last, hlast, rfl⟩ := Option.map_eq_some_iff.1 hmapped
  refine ⟨last, hlast, ?_⟩
  rw [lookAheadOf, hindex, ttLookAheadCount, hcounts, datasDeserialize_serialize hfits, Option.bind_eq_bind, Option.bind_some,
    List.getElem?_map, hcount, Option.map_some, Option.bind_eq_bind, Option.bind_some, dataGetInt_filled]

/-! ## The two scans -/

variable {tracker later : TransactionTracker} {view : Nat → Option Dict} {w : Data}

theorem returns_lastContained {start last : Nat} :
    Returns (lastContained tracker view start) last ↔
      ∃ t, EndsAt HDWALLET_SCANAHEAD_COUNT view (fun items => ttAnyTransactionContainsOneOf tracker items) start 0 t ∧
        last = lastHit view (fun items => ttAnyTransactionContainsOneOf tracker items) start 0 t := by
  constructor
  · intro h
    obtain ⟨⟨last', acc⟩, hscan, rfl⟩ := returns_map.1 h
    obtain ⟨t, hends, heq⟩ := returns_gapScan.1 hscan
    exact ⟨t, hends, (Prod.mk.inj heq).1⟩
  · rintro ⟨t, hends, rfl⟩
    exact returns_map.2 ⟨_, returns_gapScan.2 ⟨t, hends, rfl⟩, rfl⟩

theorem hitAt_later (hsub : tracker.allTransactions ⊆ later.allTransactions) {i : Nat}
    (h : hitAt view (fun items => ttAnyTransactionContainsOneOf tracker items) i = true) :
    hitAt view (fun items => ttAnyTransactionContainsOneOf later items) i = true :=
  hitAt_mono (fun _ => anyTransaction_mono hsub) h

/-- The last used index only grows. -/
theorem lastContained_grows (hsub : tracker.allTransactions ⊆ later.allTransactions) {last last' : Nat}
    (h : Returns (lastContained tracker view 0) last) (h' : Returns (lastContained later view 0) last') : last ≤ last' := by
  obtain ⟨t, hends, rfl⟩ := returns_lastContained.1 h
  obtain ⟨t', hends', rfl⟩ := returns_lastContained.1 h'
  have hpass : Passes HDWALLET_SCANAHEAD_COUNT view (fun items => ttAnyTransactionContainsOneOf later items) 0 0 t :=
    passes_mono hends.1 (fun _ _ h => h) (fun _ _ => hitAt_later hsub) (Nat.le_refl 0)
  obtain ⟨more, rfl⟩ := Nat.exists_eq_add_of_le (hpass.le_of_ends hends')
  exact Nat.le_trans (lastHit_mono (fun _ _ => hitAt_later hsub) (Nat.le_refl 0)) (lastHit_le_later more)

/-- From one of the first ten indices the scan goes on as from the beginning. -/
theorem lastContained_from (hsub : tracker.allTransactions ⊆ later.allTransactions) {last last' : Nat}
    (h : Returns (lastContained tracker view 0) last) (hlt : last < HDWALLET_SCANAHEAD_COUNT) :
    Returns (lastContained later view last) last' ↔ Returns (lastContained later view 0) last' := by
  obtain ⟨t, hends, rfl⟩ := returns_lastContained.1 h
  have hend := hends.2
  have hpass : Passes HDWALLET_SCANAHEAD_COUNT view (fun items => ttAnyTransactionContainsOneOf later items) 0 0 t :=
    passes_mono hends.1 (fun _ _ h => h) (fun _ _ => hitAt_later hsub) (Nat.le_refl 0)
  have hten : 0 < HDWALLET_SCANAHEAD_COUNT := by decide
  unfold lastContained
  rw [returns_map, returns_map]
  refine exists_congr fun result => and_congr_left fun _ => ?_
  refine returns_rejoin (hpass.le (by omega)) ?_ hlt rfl
  rcases @lastHit_zero_or_hit _ view (fun items => ttAnyTransactionContainsOneOf tracker items) t with hzero | ⟨-, hhit⟩
  · exact Or.inl hzero
  · exact Or.inr (hitAt_later hsub hhit)

/-- From a later one it does not start. -/
theorem lastContained_beyond {start last : Nat} (hle : HDWALLET_SCANAHEAD_COUNT ≤ start) :
    Returns (lastContained tracker view start) last ↔ last = 0 := by
  have hends : EndsAt HDWALLET_SCANAHEAD_COUNT view (fun items => ttAnyTransactionContainsOneOf tracker items) start 0 0 :=
    ⟨passes_zero, by rw [lastHit]; omega⟩
  rw [returns_lastContained]
  constructor
  · rintro ⟨t, hends', rfl⟩
    rw [hends'.eq hends]
    rfl
  · rintro rfl
    exact ⟨0, hends, rfl⟩

theorem walletItems_lt {root : Data} {i : Nat} (h : (walletItems c root i).isSome) : i < 2 ^ 31 := by
  by_contra hge
  rw [walletItems, scanAt, walletAt, if_neg hge] at h
  cases h

theorem lastContained_lt {root : Data} {last : Nat} (h : Returns (lastContained tracker (walletItems c root) 0) last) :
    last < 2 ^ 31 := by
  obtain ⟨t, -, rfl⟩ := returns_lastContained.1 h
  rcases @lastHit_zero_or_hit _ (walletItems c root) (fun items => ttAnyTransactionContainsOneOf tracker items) t with hzero | ⟨-, hhit⟩
  · rw [hzero]
    decide
  · refine @walletItems_lt c root _ ?_
    unfold hitAt at hhit
    cases hview : walletItems c root (lastHit (walletItems c root) (fun items => ttAnyTransactionContainsOneOf tracker items) 0 0 t) with
    | none =>
      rw [hview] at hhit
      cases hhit
    | some b => rfl

/-! ## The functions on a tracked wallet -/

theorem lastUsedAddress_tracked (hw : w ∈ ttAllHdWallets self) {last : Int32} :
    Returns (ttLastUsedAddress c self w) last ↔
      ∃ l, Returns (lastContained self.toTransactionTracker (walletItems c w) 0) l ∧ last = Int32.ofNat l := by
  obtain ⟨index, w', hindex, -, -⟩ := matchingIndex_of_mem hw
  have heq : ttLastUsedAddress c self w = fun rounds =>
      (lastContained self.toTransactionTracker (walletItems c w) 0 rounds).map Int32.ofNat := by
    funext rounds
    rw [ttLastUsedAddress, hindex]
  rw [heq, returns_map]
  exact exists_congr fun l => and_congr_right fun _ => eq_comm

theorem unusedAddresses_tracked {count unused : Int32} (hcount : lookAheadOf self w = some count)
    (hstart : ¬ count - transactionTrackerBloomaheadCount < 0) :
    Returns (ttUnusedAddresses c transactionTrackerBloomaheadCount self w) unused ↔
      ∃ l, Returns (lastContained self.toTransactionTracker (walletItems c w)
        (count - transactionTrackerBloomaheadCount).toInt.toNat) l ∧ unused = count - Int32.ofNat l := by
  obtain ⟨index, hindex, hrest⟩ := Option.bind_eq_some_iff.1 hcount
  obtain ⟨stored, hstored, hget⟩ := Option.bind_eq_some_iff.1 hrest
  have heq : ttUnusedAddresses c transactionTrackerBloomaheadCount self w = fun rounds =>
      (lastContained self.toTransactionTracker (walletItems c w) (count - transactionTrackerBloomaheadCount).toInt.toNat
        rounds).map fun l => count - Int32.ofNat l := by
    funext rounds
    simp only [ttUnusedAddresses, hindex, hstored, hget, Option.bind_eq_bind, Option.bind_some, if_neg hstart, Option.map_eq_bind]
    rfl
  rw [heq, returns_map]
  exact exists_congr fun l => and_congr_right fun _ => eq_comm

/-! ## Agreement -/

theorem ofNat_lt_iff {m n : Nat} (hm : m < 2 ^ 31) (hn : n < 2 ^ 31) : Int32.ofNat m < Int32.ofNat n ↔ m < n := by
  rw [Int32.lt_iff_toInt_lt, Int32.toInt_ofNat_of_lt hm, Int32.toInt_ofNat_of_lt hn, Int.ofNat_lt]

theorem ofNat_inj {m n : Nat} (hm : m < 2 ^ 31) (hn : n < 2 ^ 31) (h : Int32.ofNat m = Int32.ofNat n) : m = n := by
  have hint := congrArg Int32.toInt h
  rwa [Int32.toInt_ofNat_of_lt hm, Int32.toInt_ofNat_of_lt hn, Int.ofNat_inj] at hint

theorem lastContained_unique {start last last' : Nat} (h : Returns (lastContained tracker view start) last)
    (h' : Returns (lastContained tracker view start) last') : last = last' := by
  obtain ⟨t, hends, rfl⟩ := returns_lastContained.1 h
  obtain ⟨t', hends', rfl⟩ := returns_lastContained.1 h'
  rw [hends.eq hends']

/-- The count was made from the last used index `l` at the time of the update. -/
theorem realGap_iff {l : Nat} (hw : w ∈ ttAllHdWallets next) (hsub : updated.allTransactions ⊆ next.allTransactions)
    (hl : Returns (lastContained updated.toTransactionTracker (walletItems c w) 0) l)
    (hcount : lookAheadOf next w = some (Int32.ofNat l + transactionTrackerBloomaheadCount)) :
    RealGap c transactionTrackerBloomaheadCount next w ↔ l < HDWALLET_SCANAHEAD_COUNT := by
  have hlt := lastContained_lt hl
  have hstart : Int32.ofNat l + transactionTrackerBloomaheadCount - transactionTrackerBloomaheadCount = Int32.ofNat l :=
    Int32.add_sub_cancel _ _
  have hnonneg : ¬ Int32.ofNat l < 0 := by
    rw [show (0 : Int32) = Int32.ofNat 0 from rfl, ofNat_lt_iff hlt (by decide)]
    exact Nat.not_lt_zero l
  have hunused : ∀ unused, Returns (ttUnusedAddresses c transactionTrackerBloomaheadCount next w) unused ↔
      ∃ l', Returns (lastContained next.toTransactionTracker (walletItems c w) l) l' ∧
        unused = Int32.ofNat l + transactionTrackerBloomaheadCount - Int32.ofNat l' := by
    intro unused
    have hall := @unusedAddresses_tracked c transactionTrackerBloomaheadCount next w _ unused hcount (by rw [hstart]; exact hnonneg)
    rwa [hstart, Int32.toInt_ofNat_of_lt hlt, Int.toNat_natCast] at hall
  constructor
  · intro hgap
    by_contra hten
    -- the scan does not start, as if no address had been used
    obtain ⟨count, last, hcount', hlast, heq⟩ :=
      (hgap _).1 ((hunused _).2 ⟨0, (lastContained_beyond (Nat.le_of_not_lt hten)).2 rfl, rfl⟩)
    obtain ⟨l', hl', rfl⟩ := (lastUsedAddress_tracked hw).1 hlast
    obtain rfl : Int32.ofNat l + transactionTrackerBloomaheadCount = count := Option.some.inj (hcount.symm.trans hcount')
    have hgrows := lastContained_grows hsub hl hl'
    have hzero := ofNat_inj (by decide) (lastContained_lt hl') ((Int32.sub_right_inj _).1 heq)
    have hpos : 0 < HDWALLET_SCANAHEAD_COUNT := by decide
    omega
  · intro hten unused
    rw [hunused]
    constructor
    · rintro ⟨l', hl', rfl⟩
      exact ⟨_, _, hcount, (lastUsedAddress_tracked hw).2 ⟨l', (lastContained_from hsub hl hten).1 hl', rfl⟩, rfl⟩
    · rintro ⟨count, last, hcount', hlast, rfl⟩
      obtain ⟨l', hl', rfl⟩ := (lastUsedAddress_tracked hw).1 hlast
      obtain rfl : Int32.ofNat l + transactionTrackerBloomaheadCount = count := Option.some.inj (hcount.symm.trans hcount')
      exact ⟨l', (lastContained_from hsub hl hten).2 hl', rfl⟩

/-! ## Whether the filter is to be updated -/

theorem unusedAddresses_le {rounds rounds' : Nat} {unused : Int32} (hle : rounds ≤ rounds')
    (h : ttUnusedAddresses c transactionTrackerBloomaheadCount self w rounds = some unused) :
    ttUnusedAddresses c transactionTrackerBloomaheadCount self w rounds' = some unused := by
  unfold ttUnusedAddresses at h ⊢
  cases hindex : datasMatchingDataIndex (ttAllHdWallets self) w with
  | none =>
    rw [hindex] at h
    exact h
  | some index =>
    rw [hindex] at h
    dsimp only at h ⊢
    cases hstored : (ttLookAheadCount self)[index]? with
    | none =>
      rw [hstored] at h
      exact h
    | some stored =>
      rw [hstored] at h
      dsimp only at h ⊢
      obtain ⟨count, hcount, h⟩ := Option.bind_eq_some_iff.1 h
      rw [hcount, Option.bind_eq_bind, Option.bind_some]
      split at h
      · cases h
      · rename_i hstart
        rw [if_neg hstart]
        obtain ⟨l, hl, h⟩ := Option.bind_eq_some_iff.1 h
        obtain ⟨result, hscan, rfl⟩ := Option.map_eq_some_iff.1 hl
        rw [lastContained, gapScan_le hle hscan]
        exact h

/-- One wallet with too few is enough, if the scans before it return. -/
theorem anyUnusedTooFew_of_mem {wallets : Datas}
    (hreturns : ∀ w ∈ wallets, ∃ unused, Returns (ttUnusedAddresses c transactionTrackerBloomaheadCount self w) unused) {unused : Int32}
    (hw : w ∈ wallets) (hunused : Returns (ttUnusedAddresses c transactionTrackerBloomaheadCount self w) unused)
    (hfew : unused < Int32.ofNat HDWALLET_SCANAHEAD_COUNT) :
    ∃ rounds, ∀ rounds', rounds ≤ rounds' →
      anyUnusedTooFew c transactionTrackerBloomaheadCount self rounds' wallets = some true := by
  induction wallets with
  | nil => cases hw
  | cons first wallets ih =>
    obtain ⟨x, rounds, hx⟩ := hreturns first List.mem_cons_self
    by_cases hfirst : x < Int32.ofNat HDWALLET_SCANAHEAD_COUNT
    · refine ⟨rounds, fun rounds' hle => ?_⟩
      rw [anyUnusedTooFew, unusedAddresses_le hle hx, Option.bind_eq_bind, Option.bind_some, if_pos hfirst]
    · rcases List.mem_cons.1 hw with rfl | hw
      · obtain ⟨rounds', hrounds'⟩ := hunused
        have hmax := unusedAddresses_le (Nat.le_max_left rounds rounds') hx
        rw [unusedAddresses_le (Nat.le_max_right rounds rounds') hrounds'] at hmax
        cases hmax
        exact absurd hfew hfirst
      · obtain ⟨rest, hrest⟩ := ih (fun w hw => hreturns w (List.mem_cons_of_mem _ hw)) hw
        refine ⟨max rounds rest, fun rounds' hle => ?_⟩
        rw [anyUnusedTooFew, unusedAddresses_le (Nat.le_trans (Nat.le_max_left _ _) hle) hx, Option.bind_eq_bind, Option.bind_some,
          if_neg hfirst]
        exact hrest rounds' (Nat.le_trans (Nat.le_max_right _ _) hle)

theorem needsUpdate_of_few (hvaults : (dataGetInt self.vaultCount).isSome)
    (hreturns : ∀ w ∈ ttAllHdWallets self, ∃ unused, Returns (ttUnusedAddresses c transactionTrackerBloomaheadCount self w) unused)
    {unused : Int32} (hw : w ∈ ttAllHdWallets self)
    (hunused : Returns (ttUnusedAddresses c transactionTrackerBloomaheadCount self w) unused)
    (hfew : unused < Int32.ofNat HDWALLET_SCANAHEAD_COUNT) (km : KeyManager) :
    Returns (ttBloomFilterNeedsUpdate c transactionTrackerBloomaheadCount km self) true := by
  obtain ⟨vaultCount, hvaultCount⟩ := Option.isSome_iff_exists.1 hvaults
  obtain ⟨rounds, hrounds⟩ := anyUnusedTooFew_of_mem hreturns hw hunused hfew
  refine ⟨rounds, ?_⟩
  unfold ttBloomFilterNeedsUpdate
  split
  · rfl
  rw [hvaultCount, Option.bind_eq_bind, Option.bind_some]
  split
  · rfl
  split
  · rfl
  · exact hrounds rounds (Nat.le_refl _)

/-- After an update and any transactions: the gap of a wallet is the real one exactly if its
    last used address was one of the first ten at the update; and if that is so for every
    wallet, too few unused addresses of one of them call for an update. -/
theorem look_ahead_real_iff {datas : Datas} (hupdate : Returns (ttUpdateBloomFilter c lib transactionTrackerBloomaheadCount km self) updated)
    (hadds : after (bloomAddTransaction c) updated datas = some next) :
    (∀ w ∈ ttAllHdWallets next, RealGap c transactionTrackerBloomaheadCount next w ↔ LastUsedBelow c updated w) ∧
      ((∀ w ∈ ttAllHdWallets next, LastUsedBelow c updated w) →
        (∀ w ∈ ttAllHdWallets next, ∃ last, Returns (ttLastUsedAddress c next w) last) →
        (∃ w ∈ ttAllHdWallets next, ∃ count last, lookAheadOf next w = some count ∧
          Returns (ttLastUsedAddress c next w) last ∧ count - last < Int32.ofNat HDWALLET_SCANAHEAD_COUNT) →
        ∀ km, Returns (ttBloomFilterNeedsUpdate c transactionTrackerBloomaheadCount km next) true) := by
  obtain ⟨rounds, hrun⟩ := hupdate
  obtain ⟨-, -, hvaultCount, -⟩ := updateBloomFilter_spec hrun
  obtain ⟨hwallets, hcounts, hvaults, hsub⟩ := after_adds hadds
  have hsame : ttAllHdWallets next = ttAllHdWallets updated := by rw [ttAllHdWallets, hwallets, ttAllHdWallets]
  have hcount : ∀ w ∈ ttAllHdWallets next, ∃ l, Returns (lastContained updated.toTransactionTracker (walletItems c w) 0) l ∧
      lookAheadOf next w = some (Int32.ofNat l + transactionTrackerBloomaheadCount) := by
    intro w hw
    rw [hsame] at hw
    obtain ⟨last, hlast, hlook⟩ := lookAheadOf_updated hrun hw
    obtain ⟨l, hl, rfl⟩ := (lastUsedAddress_tracked hw).1 ⟨rounds, hlast⟩
    refine ⟨l, hl, ?_⟩
    rw [← hlook]
    simp only [lookAheadOf, ttLookAheadCount, hsame, hcounts]
  have hbelow : ∀ w ∈ ttAllHdWallets next, ∀ l, Returns (lastContained updated.toTransactionTracker (walletItems c w) 0) l →
      (LastUsedBelow c updated w ↔ l < HDWALLET_SCANAHEAD_COUNT) := by
    intro w hw l hl
    rw [hsame] at hw
    constructor
    · rintro ⟨last, hlast, hlt⟩
      obtain ⟨l', hl', rfl⟩ := (lastUsedAddress_tracked hw).1 hlast
      rw [lastContained_unique hl hl']
      exact (ofNat_lt_iff (lastContained_lt hl') (by decide)).1 hlt
    · intro hlt
      exact ⟨_, (lastUsedAddress_tracked hw).2 ⟨l, hl, rfl⟩, (ofNat_lt_iff (lastContained_lt hl) (by decide)).2 hlt⟩
  have hiff : ∀ w ∈ ttAllHdWallets next, RealGap c transactionTrackerBloomaheadCount next w ↔ LastUsedBelow c updated w := by
    intro w hw
    obtain ⟨l, hl, hlook⟩ := hcount w hw
    rw [hbelow w hw l hl]
    exact realGap_iff hw hsub hl hlook
  refine ⟨hiff, fun hall hreturns hfew km => ?_⟩
  obtain ⟨w, hw, count, last, hlook, hlast, hfew⟩ := hfew
  have hgap : ∀ w ∈ ttAllHdWallets next, RealGap c transactionTrackerBloomaheadCount next w := fun w hw => (hiff w hw).2 (hall w hw)
  refine needsUpdate_of_few ?_ (fun w hw => ?_) hw ((hgap w hw _).2 ⟨count, last, hlook, hlast, rfl⟩) hfew km
  · rw [hvaults, hvaultCount, dataGetInt_dataInt]
    rfl
  · obtain ⟨last, hlast⟩ := hreturns w hw
    obtain ⟨l, -, hlook⟩ := hcount w hw
    exact ⟨_, (hgap w hw _).2 ⟨_, last, hlook, hlast, rfl⟩⟩

/-- A key manager with one wallet. -/
def countManager : KeyManager where
  allHdWalletPubRoots := [countRoot]
  fits := by
    intro d hd
    obtain rfl := List.mem_singleton.1 hd
    decide +kernel
  vaultObjects := []
  ownMaster _ := none

/-- A tracker that has stored transactions and made no filter. -/
def storing (transactions : List Transaction) : BloomTracker :=
  { allTransactions := transactions, allTransactionHashes := [], allTransactionTxids := [], matchCount := 0, mismatchCount := 0,
    keysAndKeyHashes := dictNew, scriptAndHashCache := [], bloomFilter := none, lookAheadCount := none, vaultLookAheadCount := none,
    allHdWallets := none, vaultCount := none }

/-- A payment that is read back as it is. -/
def spendTo (c : HdCrypto) (wallet : Data) : Transaction :=
  { payTo c wallet with inputs := [⟨⟨none, 0⟩, some (List.replicate 32 0), 0, some [], 0, [], 0⟩] }

/-- After an update over a payment to the sixth address that is the last one used, and one more
    payment can be added. -/
theorem update_sixth :
    ∃ updated next, Returns (ttUpdateBloomFilter countCrypto plainBloom 1 countManager (storing [payTo countCrypto (countWallet 5)]))
        updated ∧
      (∀ w ∈ ttAllHdWallets updated, Returns (ttLastUsedAddress countCrypto updated w) 5) ∧
      bloomAddTransaction countCrypto updated (some (transactionData (spendTo countCrypto (countWallet 3)))) = some next ∧
      next.allTransactions.length = 2 := by
  have hrun : (ttUpdateBloomFilter countCrypto plainBloom 1 countManager (storing [payTo countCrypto (countWallet 5)]) 16).map
      (fun updated => ((ttAllHdWallets updated).map fun w => ttLastUsedAddress countCrypto updated w 16,
        (bloomAddTransaction countCrypto updated (some (transactionData (spendTo countCrypto (countWallet 3))))).map fun next =>
          next.allTransactions.length)) = some ([some 5], some 2) := by
    decide +kernel
  obtain ⟨updated, hupdated, hvalues⟩ := Option.map_eq_some_iff.1 hrun
  obtain ⟨hlast, hadded⟩ := Prod.mk.inj hvalues
  obtain ⟨next, hnext, hlength⟩ := Option.map_eq_some_iff.1 hadded
  refine ⟨updated, next, ⟨16, hupdated⟩, fun w hw => ⟨16, ?_⟩, hnext, hlength⟩
  have hmem : ttLastUsedAddress countCrypto updated w 16 ∈ [some 5] := by
    rw [← hlast]
    exact List.mem_map_of_mem hw
  exact List.mem_singleton.1 hmem

/-- The sixth address has been used at the update, and the fourth is used afterwards. -/
theorem look_ahead_real_sixth :
    ∃ updated next, Returns (ttUpdateBloomFilter countCrypto plainBloom 1 countManager (storing [payTo countCrypto (countWallet 5)]))
        updated ∧
      after (bloomAddTransaction countCrypto) updated [some (transactionData (spendTo countCrypto (countWallet 3)))] = some next ∧
      next.allTransactions.length = 2 ∧ ∀ w ∈ ttAllHdWallets next, RealGap countCrypto 1 next w := by
  obtain ⟨updated, next, hupdated, hlast, hnext, hlength⟩ := update_sixth
  have hadds : after (bloomAddTransaction countCrypto) updated
      [some (transactionData (spendTo countCrypto (countWallet 3)))] = some next := after_cons hnext []
  refine ⟨updated, next, hupdated, hadds, hlength, fun w hw => ?_⟩
  refine ((look_ahead_real_iff hupdated hadds).1 w hw).2 ⟨5, hlast w ?_, by decide⟩
  rwa [ttAllHdWallets, ← (after_adds hadds).1]

/-- The eleventh address has been used: eleven addresses are watched, ten of them are used up,
    and nothing calls for an update. -/
theorem not_look_ahead_real :
    ∃ updated, Returns (ttUpdateBloomFilter countCrypto plainBloom 1 countManager
        (storing [payTo countCrypto (countWallet 5), payTo countCrypto (countWallet 10)])) updated ∧
      countRoot ∈ ttAllHdWallets updated ∧ ¬ RealGap countCrypto 1 updated countRoot ∧
      lookAheadOf updated countRoot = some 11 ∧ Returns (ttLastUsedAddress countCrypto updated countRoot) 10 ∧
      Returns (ttBloomFilterNeedsUpdate countCrypto 1 countManager updated) false := by
  have hrun : (ttUpdateBloomFilter countCrypto plainBloom 1 countManager
        (storing [payTo countCrypto (countWallet 5), payTo countCrypto (countWallet 10)]) 21).map (fun updated =>
      ((ttAllHdWallets updated, lookAheadOf updated countRoot), ttLastUsedAddress countCrypto updated countRoot 21,
        ttUnusedAddresses countCrypto 1 updated countRoot 1, ttBloomFilterNeedsUpdate countCrypto 1 countManager updated 1)) =
      some (([countRoot], some 11), some 10, some 11, some false) := by decide +kernel
  obtain ⟨updated, hupdated, hvalues⟩ := Option.map_eq_some_iff.1 hrun
  simp only [Prod.mk.injEq] at hvalues
  obtain ⟨⟨hwallets, hlook⟩, hlast, hunused, hneeds⟩ := hvalues
  have hmem : countRoot ∈ ttAllHdWallets updated := by rw [hwallets]; exact List.mem_singleton_self _
  refine ⟨updated, ⟨21, hupdated⟩, hmem, fun hgap => ?_, hlook, ⟨21, hlast⟩, ⟨1, hneeds⟩⟩
  obtain ⟨count, last, hcount, hreturns, heq⟩ := (hgap 11).1 ⟨1, hunused⟩
  rw [hlook] at hcount
  cases hcount
  obtain ⟨l, hl, hten⟩ := (lastUsedAddress_tracked hmem).1 ⟨21, hlast⟩
  obtain ⟨l', hl', rfl⟩ := (lastUsedAddress_tracked hmem).1 hreturns
  rw [← lastContained_unique hl hl', ← hten] at heq
  exact absurd heq (by decide)

end BitcoinSpoon
