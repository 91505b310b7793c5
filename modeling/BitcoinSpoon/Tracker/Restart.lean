/-
  BitcoinSpoon.Tracker.Restart — the look-ahead counts under another setting
  (`code/TransactionTracker.c`, the start of the tracker in `Mac/BitcoinSpoon/main.c`).

  A stored count is the last used address at the update and the setting of that time. A
  later run takes its own setting from it to start the scan of `TTUnusedAddresses`, and
  aborts where that is negative: exactly when the setting has grown by more than the last
  used address (`look_ahead_aborts_iff`). `main.c` asks whether the filter needs an update
  before it looks whether the setting has grown.
-/

import BitcoinSpoon.Tracker.LookAhead

namespace BitcoinSpoon

open Loop

/-- How a call ends. `unfinished` is a scan that needs more rounds, or a crash in it. -/
inductive Outcome (α : Type) where
  | returned (x : α)
  | aborted
  | unfinished
  deriving DecidableEq

def Outcome.value {α : Type} : Outcome α → Option α
  | .returned x => some x
  | .aborted => none
  | .unfinished => none

variable (c : HdCrypto) (lib : BloomLibrary) (transactionTrackerBloomaheadCount : Int32)

/-- `TTUnusedAddresses`, with its ending. -/
def unusedAddressesOutcome (self : BloomTracker) (hdWalletParam : Data) (rounds : Nat) : Outcome Int32 :=
  match datasMatchingDataIndex (ttAllHdWallets self) hdWalletParam with
  | none => .returned (-1)
  | some index =>
    match (ttLookAheadCount self)[index]? with
    | none => .returned (-1)
    | some stored =>
      match dataGetInt stored with
      | none => .aborted
      | some lookAheadCount =>
        if lookAheadCount - transactionTrackerBloomaheadCount < 0 then .aborted
        else
          match lastContained self.toTransactionTracker (walletItems c hdWalletParam)
            (lookAheadCount - transactionTrackerBloomaheadCount).toInt.toNat rounds with
          | none => .unfinished
          | some lastUsedAddress => .returned (lookAheadCount - Int32.ofNat lastUsedAddress)

def anyUnusedTooFewOutcome (self : BloomTracker) (rounds : Nat) : Datas → Outcome Bool
  | [] => .returned false
  | hdWalletData :: rest =>
    match unusedAddressesOutcome c transactionTrackerBloomaheadCount self hdWalletData rounds with
    | .returned unused =>
      if unused < Int32.ofNat HDWALLET_SCANAHEAD_COUNT then .returned true else anyUnusedTooFewOutcome self rounds rest
    | .aborted => .aborted
    | .unfinished => .unfinished

/-- `TTBloomFilterNeedsUpdate`, with its ending. -/
def needsUpdateOutcome (km : KeyManager) (self : BloomTracker) (rounds : Nat) : Outcome Bool :=
  if self.bloomFilter.length = 0 then .returned true
  else
    match dataGetInt self.vaultCount with
    | none => .aborted
    | some vaultCount =>
      if Int32.ofNat (kmVaultNames km).length ≠ vaultCount then .returned true
      else if !datasEqual (ttAllHdWallets self) km.allHdWalletPubRoots then .returned true
      else anyUnusedTooFewOutcome c transactionTrackerBloomaheadCount self rounds (ttAllHdWallets self)

/-- A later run has what was stored, whatever transactions it has. -/
structure Restarted (updated next : BloomTracker) : Prop where
  wallets : next.allHdWallets = updated.allHdWallets
  counts : next.lookAheadCount = updated.lookAheadCount
  vaults : next.vaultCount = updated.vaultCount

/-- The last used address and the setting at the update are together not below the new setting. -/
def SettingFits (oldCount newCount : Int32) (updated : BloomTracker) : Prop :=
  ∀ w ∈ ttAllHdWallets updated, ∃ last, Returns (ttLastUsedAddress c updated w) last ∧ ¬ last + oldCount - newCount < 0

variable {c lib transactionTrackerBloomaheadCount} {km : KeyManager} {self updated next : BloomTracker} {w : Data}

/-! ## The endings -/

theorem unusedAddressesOutcome_value (self : BloomTracker) (w : Data) (rounds : Nat) :
    (unusedAddressesOutcome c transactionTrackerBloomaheadCount self w rounds).value =
      ttUnusedAddresses c transactionTrackerBloomaheadCount self w rounds := by
  unfold unusedAddressesOutcome ttUnusedAddresses
  cases datasMatchingDataIndex (ttAllHdWallets self) w with
  | none => rfl
  | some index =>
    dsimp only
    cases (ttLookAheadCount self)[index]? with
    | none => rfl
    | some stored =>
      dsimp only
      cases dataGetInt stored with
      | none => rfl
      | some count =>
        rw [Option.bind_eq_bind, Option.bind_some]
        dsimp only
        split
        · rfl
        · cases lastContained self.toTransactionTracker (walletItems c w) (count - transactionTrackerBloomaheadCount).toInt.toNat rounds with
          | none => rfl
          | some last => rfl

theorem anyUnusedTooFewOutcome_value (self : BloomTracker) (rounds : Nat) (wallets : Datas) :
    (anyUnusedTooFewOutcome c transactionTrackerBloomaheadCount self rounds wallets).value =
      anyUnusedTooFew c transactionTrackerBloomaheadCount self rounds wallets := by
  induction wallets with
  | nil => rfl
  | cons first wallets ih =>
    rw [anyUnusedTooFewOutcome, anyUnusedTooFew, ← unusedAddressesOutcome_value]
    cases unusedAddressesOutcome c transactionTrackerBloomaheadCount self first rounds with
    | returned unused =>
      rw [Outcome.value, Option.bind_eq_bind, Option.bind_some]
      dsimp only
      split
      · rfl
      · exact ih
    | aborted => rfl
    | unfinished => rfl

theorem needsUpdateOutcome_value (km : KeyManager) (self : BloomTracker) (rounds : Nat) :
    (needsUpdateOutcome c transactionTrackerBloomaheadCount km self rounds).value =
      ttBloomFilterNeedsUpdate c transactionTrackerBloomaheadCount km self rounds := by
  unfold needsUpdateOutcome ttBloomFilterNeedsUpdate
  split
  · rfl
  cases dataGetInt self.vaultCount with
  | none => rfl
  | some vaultCount =>
    rw [Option.bind_eq_bind, Option.bind_some]
    dsimp only
    split
    · rfl
    split
    · rfl
    · exact anyUnusedTooFewOutcome_value _ _ _

/-- With a count stored for the wallet, the start of the scan decides. -/
theorem unusedAddresses_aborts_iff {count : Int32} (hcount : lookAheadOf self w = some count) {rounds : Nat} :
    unusedAddressesOutcome c transactionTrackerBloomaheadCount self w rounds = .aborted ↔
      count - transactionTrackerBloomaheadCount < 0 := by
  obtain ⟨index, hindex, hrest⟩ := Option.bind_eq_some_iff.1 hcount
  obtain ⟨stored, hstored, hget⟩ := Option.bind_eq_some_iff.1 hrest
  rw [unusedAddressesOutcome, hindex]
  dsimp only
  rw [hstored]
  dsimp only
  rw [hget]
  dsimp only
  split
  · rename_i hneg
    exact iff_of_true rfl hneg
  · rename_i hneg
    refine iff_of_false ?_ hneg
    split
    · simp
    · simp

theorem anyUnusedTooFew_aborts {rounds : Nat} {wallets : Datas}
    (h : anyUnusedTooFewOutcome c transactionTrackerBloomaheadCount self rounds wallets = .aborted) :
    ∃ w ∈ wallets, unusedAddressesOutcome c transactionTrackerBloomaheadCount self w rounds = .aborted := by
  induction wallets with
  | nil => cases h
  | cons first wallets ih =>
    unfold anyUnusedTooFewOutcome at h
    cases hfirst : unusedAddressesOutcome c transactionTrackerBloomaheadCount self first rounds with
    | returned unused =>
      rw [hfirst] at h
      dsimp only at h
      split at h
      · cases h
      · obtain ⟨w, hw, haborts⟩ := ih h
        exact ⟨w, List.mem_cons_of_mem _ hw, haborts⟩
    | aborted => exact ⟨first, List.mem_cons_self, hfirst⟩
    | unfinished =>
      rw [hfirst] at h
      cases h

/-- The question aborts only in one of the wallets. -/
theorem needsUpdate_aborts (hvaults : (dataGetInt self.vaultCount).isSome) {rounds : Nat}
    (h : needsUpdateOutcome c transactionTrackerBloomaheadCount km self rounds = .aborted) :
    ∃ w ∈ ttAllHdWallets self, unusedAddressesOutcome c transactionTrackerBloomaheadCount self w rounds = .aborted := by
  unfold needsUpdateOutcome at h
  split at h
  · cases h
  obtain ⟨vaultCount, hcount⟩ := Option.isSome_iff_exists.1 hvaults
  rw [hcount] at h
  dsimp only at h
  split at h
  · cases h
  split at h
  · cases h
  · exact anyUnusedTooFew_aborts h

/-! ## Where the scans end they return -/

theorem lastContained_returns {tracker : TransactionTracker} {root : Data} (h : Settled c tracker root) (start : Nat) :
    ∃ last, Returns (lastContained tracker (walletItems c root) start) last := by
  obtain ⟨e, hview, hquiet⟩ := h
  have hhit : ∀ j, hitAt (walletItems c root) (fun items => ttAnyTransactionContainsOneOf tracker items) j = usedAt c tracker root j := by
    intro j
    rw [usedAt, hitAt, hitAt, walletItems]
    cases scanAt c root j with
    | none => rfl
    | some b => rfl
  obtain ⟨t, -, hends⟩ := @gapScan_returns_from _ HDWALLET_SCANAHEAD_COUNT (walletItems c root)
    (fun items => ttAnyTransactionContainsOneOf tracker items) e
    (fun j hj => by rw [walletItems, Option.isSome_map]; exact hview j hj)
    (fun j hj hlt => by rw [hhit]; exact hquiet j hj hlt) start
  exact ⟨_, returns_lastContained.2 ⟨t, hends, rfl⟩⟩

theorem anyUnusedTooFew_returns {wallets : Datas}
    (h : ∀ w ∈ wallets, ∃ unused, Returns (ttUnusedAddresses c transactionTrackerBloomaheadCount self w) unused) :
    ∃ few rounds, ∀ rounds', rounds ≤ rounds' →
      anyUnusedTooFew c transactionTrackerBloomaheadCount self rounds' wallets = some few := by
  induction wallets with
  | nil => exact ⟨false, 0, fun _ _ => rfl⟩
  | cons first wallets ih =>
    obtain ⟨unused, rounds, hunused⟩ := h first List.mem_cons_self
    by_cases hfew : unused < Int32.ofNat HDWALLET_SCANAHEAD_COUNT
    · refine ⟨true, rounds, fun rounds' hle => ?_⟩
      rw [anyUnusedTooFew, unusedAddresses_le hle hunused, Option.bind_eq_bind, Option.bind_some, if_pos hfew]
    · obtain ⟨few, rest, hrest⟩ := ih fun w hw => h w (List.mem_cons_of_mem _ hw)
      refine ⟨few, max rounds rest, fun rounds' hle => ?_⟩
      rw [anyUnusedTooFew, unusedAddresses_le (Nat.le_trans (Nat.le_max_left _ _) hle) hunused, Option.bind_eq_bind,
        Option.bind_some, if_neg hfew]
      exact hrest rounds' (Nat.le_trans (Nat.le_max_right _ _) hle)

theorem needsUpdate_returns (hvaults : (dataGetInt self.vaultCount).isSome)
    (h : ∀ w ∈ ttAllHdWallets self, ∃ unused, Returns (ttUnusedAddresses c transactionTrackerBloomaheadCount self w) unused)
    (km : KeyManager) : ∃ needs, Returns (ttBloomFilterNeedsUpdate c transactionTrackerBloomaheadCount km self) needs := by
  obtain ⟨vaultCount, hcount⟩ := Option.isSome_iff_exists.1 hvaults
  obtain ⟨few, rounds, hfew⟩ := anyUnusedTooFew_returns h
  have hrun : ∃ needs, ttBloomFilterNeedsUpdate c transactionTrackerBloomaheadCount km self rounds = some needs := by
    unfold ttBloomFilterNeedsUpdate
    split
    · exact ⟨_, rfl⟩
    rw [hcount, Option.bind_eq_bind, Option.bind_some]
    split
    · exact ⟨_, rfl⟩
    split
    · exact ⟨_, rfl⟩
    · exact ⟨few, hfew rounds (Nat.le_refl _)⟩
  obtain ⟨needs, hneeds⟩ := hrun
  exact ⟨needs, rounds, hneeds⟩

/-! ## Two runs -/

/-- What a later run finds for a wallet. -/
theorem lookAheadOf_restarted {rounds : Nat} {oldCount : Int32}
    (h : ttUpdateBloomFilter c lib oldCount km self rounds = some updated) (hnext : Restarted updated next)
    (hw : w ∈ ttAllHdWallets next) :
    ∃ last, Returns (ttLastUsedAddress c updated w) last ∧ lookAheadOf next w = some (last + oldCount) := by
  have hsame : ttAllHdWallets next = ttAllHdWallets updated := by rw [ttAllHdWallets, hnext.wallets, ttAllHdWallets]
  rw [hsame] at hw
  obtain ⟨last, hlast, hlook⟩ := lookAheadOf_updated h hw
  refine ⟨last, ⟨rounds, hlast⟩, ?_⟩
  rw [← hlook]
  simp only [lookAheadOf, ttLookAheadCount, hsame, hnext.counts]

theorem lastUsedAddress_unique (hw : w ∈ ttAllHdWallets self) {last last' : Int32} (h : Returns (ttLastUsedAddress c self w) last)
    (h' : Returns (ttLastUsedAddress c self w) last') : last = last' := by
  obtain ⟨l, hl, rfl⟩ := (lastUsedAddress_tracked hw).1 h
  obtain ⟨l', hl', rfl⟩ := (lastUsedAddress_tracked hw).1 h'
  rw [lastContained_unique hl hl']

/-- After an update under one setting and a restart under another: the endings are those of
    the two functions, neither aborts exactly if the new setting fits, and then both return
    wherever the scans come to ten unused addresses in a row. -/
theorem look_ahead_aborts_iff {oldCount : Int32} (hupdate : Returns (ttUpdateBloomFilter c lib oldCount km self) updated)
    (hnext : Restarted updated next) (newCount : Int32) :
    ((∀ w rounds, (unusedAddressesOutcome c newCount next w rounds).value = ttUnusedAddresses c newCount next w rounds) ∧
        ∀ km rounds, (needsUpdateOutcome c newCount km next rounds).value = ttBloomFilterNeedsUpdate c newCount km next rounds) ∧
      (((∀ w ∈ ttAllHdWallets next, ∀ rounds, unusedAddressesOutcome c newCount next w rounds ≠ .aborted) ∧
        ∀ km rounds, needsUpdateOutcome c newCount km next rounds ≠ .aborted) ↔ SettingFits c oldCount newCount updated) ∧
      (SettingFits c oldCount newCount updated → (∀ w ∈ ttAllHdWallets next, Settled c next.toTransactionTracker w) →
        (∀ w ∈ ttAllHdWallets next, ∃ unused, Returns (ttUnusedAddresses c newCount next w) unused) ∧
          ∀ km, ∃ needs, Returns (ttBloomFilterNeedsUpdate c newCount km next) needs) := by
  obtain ⟨rounds, hrun⟩ := hupdate
  have hsame : ttAllHdWallets next = ttAllHdWallets updated := by rw [ttAllHdWallets, hnext.wallets, ttAllHdWallets]
  have hvaults : (dataGetInt next.vaultCount).isSome := by
    rw [hnext.vaults, (updateBloomFilter_spec hrun).2.2.1, dataGetInt_dataInt]
    rfl
  refine ⟨⟨unusedAddressesOutcome_value next, fun km => needsUpdateOutcome_value km next⟩, ?_, ?_⟩
  · constructor
    · intro hnone w hw
      obtain ⟨hwallets, -⟩ := hnone
      rw [← hsame] at hw
      obtain ⟨last, hlast, hlook⟩ := lookAheadOf_restarted hrun hnext hw
      exact ⟨last, hlast, fun hneg => hwallets w hw 0 ((unusedAddresses_aborts_iff hlook).2 hneg)⟩
    · intro hfits
      have hwallets : ∀ w ∈ ttAllHdWallets next, ∀ rounds, unusedAddressesOutcome c newCount next w rounds ≠ .aborted := by
        intro w hw rounds' haborts
        obtain ⟨last, hlast, hlook⟩ := lookAheadOf_restarted hrun hnext hw
        rw [hsame] at hw
        obtain ⟨last', hlast', hstart⟩ := hfits w hw
        rw [lastUsedAddress_unique hw hlast' hlast] at hstart
        exact hstart ((unusedAddresses_aborts_iff hlook).1 haborts)
      refine ⟨hwallets, fun km rounds' haborts => ?_⟩
      obtain ⟨w, hw, hwallet⟩ := needsUpdate_aborts hvaults haborts
      exact hwallets w hw rounds' hwallet
  · intro hfits hsettled
    have hunused : ∀ w ∈ ttAllHdWallets next, ∃ unused, Returns (ttUnusedAddresses c newCount next w) unused := by
      intro w hw
      obtain ⟨last, hlast, hlook⟩ := lookAheadOf_restarted hrun hnext hw
      have hw' := hw
      rw [hsame] at hw'
      obtain ⟨last', hlast', hstart⟩ := hfits w hw'
      rw [lastUsedAddress_unique hw' hlast' hlast] at hstart
      obtain ⟨l, hl⟩ := lastContained_returns (hsettled w hw) (last + oldCount - newCount).toInt.toNat
      exact ⟨_, (unusedAddresses_tracked hlook hstart).2 ⟨l, hl, rfl⟩⟩
    exact ⟨hunused, needsUpdate_returns hvaults hunused⟩

/-- The sixth address has been used, the setting grows from one to six, and another payment
    is stored. -/
theorem look_ahead_larger_setting :
    ∃ updated, Returns (ttUpdateBloomFilter countCrypto plainBloom 1 countManager (storing [payTo countCrypto (countWallet 5)]))
        updated ∧
      (∀ w ∈ ttAllHdWallets updated, ∀ rounds, unusedAddressesOutcome countCrypto 6
        { updated with allTransactions := updated.allTransactions ++ [payTo countCrypto (countWallet 3)] } w rounds ≠ .aborted) ∧
      ∀ km rounds, needsUpdateOutcome countCrypto 6 km
        { updated with allTransactions := updated.allTransactions ++ [payTo countCrypto (countWallet 3)] } rounds ≠ .aborted := by
  obtain ⟨updated, -, hupdated, hlast, -, -⟩ := update_sixth
  have hfits : SettingFits countCrypto 1 6 updated := fun w hw => ⟨5, hlast w hw, by decide⟩
  have hnext : Restarted updated { updated with allTransactions := updated.allTransactions ++ [payTo countCrypto (countWallet 3)] } :=
    ⟨rfl, rfl, rfl⟩
  exact ⟨updated, hupdated, (look_ahead_aborts_iff hupdated hnext 6).2.1.2 hfits⟩

/-- No address has been used, and the setting grows from one to two. -/
theorem not_look_ahead_returns :
    ∃ updated, Returns (ttUpdateBloomFilter countCrypto plainBloom 1 countManager (storing [])) updated ∧
      countRoot ∈ ttAllHdWallets updated ∧ (∀ rounds, unusedAddressesOutcome countCrypto 2 updated countRoot rounds = .aborted) ∧
      needsUpdateOutcome countCrypto 2 countManager updated 1 = .aborted := by
  have hrun : (ttUpdateBloomFilter countCrypto plainBloom 1 countManager (storing []) 11).map (fun updated =>
      (ttAllHdWallets updated, lookAheadOf updated countRoot, needsUpdateOutcome countCrypto 2 countManager updated 1)) =
      some ([countRoot], some 1, .aborted) := by decide +kernel
  obtain ⟨updated, hupdated, hvalues⟩ := Option.map_eq_some_iff.1 hrun
  simp only [Prod.mk.injEq] at hvalues
  obtain ⟨hwallets, hlook, hneeds⟩ := hvalues
  have hmem : countRoot ∈ ttAllHdWallets updated := by rw [hwallets]; exact List.mem_singleton_self _
  exact ⟨updated, ⟨11, hupdated⟩, hmem, fun rounds => (unusedAddresses_aborts_iff hlook).2 (by decide), hneeds⟩

end BitcoinSpoon
