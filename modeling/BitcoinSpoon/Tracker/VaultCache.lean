/-
  BitcoinSpoon.Tracker.VaultCache — the cached scripts and the vaults
  (`code/TransactionTracker.c`, `code/KeyManager.c`).

  `TTScriptAndHash` caches by the position of a vault. Only `TTUpdateBloomFilter` forgets:
  where a vault is removed, or added before others in the list of masters, the positions
  behind it keep the scripts of other vaults. And what is cached is lent as it is. A second
  look frees it with the frame of its caller, and `TTAllTransactionsForVault` adds to it. So
  the cache gives the scripts of the vaults through a run exactly if no position with a
  cached script changes its script and none is asked for twice between two updates
  (`cached_scripts_iff`).
-/

import BitcoinSpoon.Loop.Runs
import BitcoinSpoon.Tracker.KeySet

namespace BitcoinSpoon

open Wire Loop

variable (c : HdCrypto)

/-! ## Scans over the scripts of a vault -/

abbrev ScriptScan (ρ : Type) := Asking ScriptKey Dict ρ

/-- The loop of `TTAllTransactionsForVault`; `DictAddDict` adds to the memory of the cache.
    `none` is NULL. -/
def allTransactionsForVaultFrom (self : TransactionTracker) (vaultIndex : Nat) :
    Nat → Nat → Nat → List Nat × Dict → ScriptScan (Option (List Nat) × Dict)
  | 0, _, _, _ => .stuck
  | rounds + 1, i, lastUsedAddress, (array, used) =>
    if i < lastUsedAddress + HDWALLET_SCANAHEAD_COUNT then
      if i < 2 ^ 31 then
        .ask (vaultIndex, i, false) fun items =>
          if dictIsNull items then .result (none, used)
          else .ask (vaultIndex, i, true) fun change =>
            let items := dictAddDict items change
            .change (vaultIndex, i, false) (allTransactionsForVaultFrom self vaultIndex rounds (i + 1)
              (if ttAnyTransactionContainsOneOf self items then i else lastUsedAddress)
              (addMatching self items array, dictAddDict used items))
      else .stuck
    else .result (some array, used)

def ttAllTransactionsForVault (self : TransactionTracker) (vaultIndex : Nat) (usedKeysAndHashes : Dict) (rounds : Nat) :
    ScriptScan (Option (List Nat) × Dict) :=
  allTransactionsForVaultFrom self vaultIndex rounds 0 0 ([], usedKeysAndHashes)

def ttVaultScriptForDerivationPath (km : KeyManager) (vaultIndex : Nat) (path : Bytes) : Option Data := do
  let masterHdWallet ← datasAt (kmVaultMasterHdWallets km) vaultIndex
  let masterHdWallet ← publicHdWallet c masterHdWallet
  let hdWallets ← datasAt (kmVaultHdWallets km) vaultIndex
  let script ← vaultScriptAt c masterHdWallet (datasDeserialize hdWallets) path
  some (some script)

def unusedVaultScriptFrom (km : KeyManager) (self : TransactionTracker) (vaultIndex n : Nat) (change : Bool) :
    Nat → Nat → Nat → ScriptScan Data
  | 0, _, _ => .stuck
  | rounds + 1, i, lastUsedAddress =>
    if i < lastUsedAddress + HDWALLET_SCANAHEAD_COUNT then
      if i < 2 ^ 31 then
        .ask (vaultIndex, i, change) fun items =>
          if anyOutputContainsOneOf self items then unusedVaultScriptFrom km self vaultIndex n change rounds (i + 1) (i + 1)
          else if i - lastUsedAddress = n then
            match ttVaultScriptForDerivationPath c km vaultIndex (vaultPath change i) with
            | none => .stuck
            | some script => .result script
          else unusedVaultScriptFrom km self vaultIndex n change rounds (i + 1) lastUsedAddress
      else .stuck
    else .result none

def ttUnusedVaultScript (km : KeyManager) (self : TransactionTracker) (vaultIndex n : Nat) (change : Bool) (rounds : Nat) :
    ScriptScan Data :=
  unusedVaultScriptFrom c km self vaultIndex (n % HDWALLET_SCANAHEAD_COUNT) change rounds 0 0

def vaultPathForScriptHashFrom (self : TransactionTracker) (vaultIndex : Nat) (scriptHash : Data) :
    Nat → Nat → Nat → ScriptScan (Option Bytes)
  | 0, _, _ => .stuck
  | rounds + 1, i, lastUsedAddress =>
    if i < lastUsedAddress + HDWALLET_SCANAHEAD_COUNT then
      if i < 2 ^ 31 then
        .ask (vaultIndex, i, false) fun items =>
          if dictHasKey items scriptHash then .result (some (vaultPath false i))
          else
            let lastUsedAddress := if anyOutputContainsOneOf self items then i else lastUsedAddress
            .ask (vaultIndex, i, true) fun items =>
              if dictHasKey items scriptHash then .result (some (vaultPath true i))
              else vaultPathForScriptHashFrom self vaultIndex scriptHash rounds (i + 1)
                (if anyOutputContainsOneOf self items then i else lastUsedAddress)
      else .stuck
    else .result none

def ttVaultPathForScriptHash (self : TransactionTracker) (vaultIndex : Nat) (scriptHash : Data) (rounds : Nat) :
    ScriptScan (Option Bytes) :=
  vaultPathForScriptHashFrom self vaultIndex scriptHash rounds 0 0

/-! ## Runs -/

/-- The key manager and the tracker. -/
structure VaultState where
  km : KeyManager
  tracker : BloomTracker

inductive VaultEvent where
  | kmAddVault (hdWallets : Datas) (name : Data)
  | kmAddVaultObserver (masterHdWallet : Data) (hdWallets : Datas) (name : Data)
  | kmRemoveVault (index : Nat)
  | ttScriptAndHash (vaultIndex derivation : Nat) (isChange : Bool)
  | ttAllTransactionsForVault (vaultIndex : Nat) (usedKeysAndHashes : Dict) (rounds : Nat)
  | ttUnusedVaultScript (vaultIndex n : Nat) (change : Bool) (rounds : Nat)
  | ttVaultPathForScriptHash (vaultIndex : Nat) (scriptHash : Data) (rounds : Nat)
  | ttUpdateBloomFilter (rounds : Nat)
  | ttAddTransaction (data : Data)

def scanVault {ρ : Type} (state : VaultState) (scan : ScriptScan ρ) : Option VaultState :=
  (scan.run (askTracker c state.km) cacheSpoil state.tracker.scriptAndHashCache).map fun (_, cache) =>
    { state with tracker := { state.tracker with scriptAndHashCache := cache } }

variable (lib : BloomLibrary) (transactionTrackerBloomaheadCount : Int32)

def vaultStep (state : VaultState) : VaultEvent → Option VaultState
  | .kmAddVault hdWallets name => some { state with km := kmAddVault state.km hdWallets name }
  | .kmAddVaultObserver masterHdWallet hdWallets name =>
    some { state with km := kmAddVaultObserver state.km masterHdWallet hdWallets name }
  | .kmRemoveVault index => some { state with km := kmRemoveVault state.km index }
  | .ttScriptAndHash vaultIndex derivation isChange => scanVault c state (.ask (vaultIndex, derivation, isChange) .result)
  | .ttAllTransactionsForVault vaultIndex usedKeysAndHashes rounds =>
    scanVault c state (ttAllTransactionsForVault state.tracker.toTransactionTracker vaultIndex usedKeysAndHashes rounds)
  | .ttUnusedVaultScript vaultIndex n change rounds =>
    scanVault c state (ttUnusedVaultScript c state.km state.tracker.toTransactionTracker vaultIndex n change rounds)
  | .ttVaultPathForScriptHash vaultIndex scriptHash rounds =>
    scanVault c state (ttVaultPathForScriptHash state.tracker.toTransactionTracker vaultIndex scriptHash rounds)
  | .ttUpdateBloomFilter rounds =>
    (ttUpdateBloomFilter c lib transactionTrackerBloomaheadCount state.km state.tracker rounds).map fun tracker =>
      { state with tracker := tracker }
  | .ttAddTransaction data => (bloomAddTransaction c state.tracker data).map fun tracker => { state with tracker := tracker }

/-! ## What is promised -/

/-- With the cache it returns what it computes without. -/
def Coherent (state : VaultState) : Prop :=
  ∀ key, (askTracker c state.km state.tracker.scriptAndHashCache key).map Prod.fst = scriptValue c state.km key

/-- Where the key manager has a vault at the position of a cached script, the script is the
    one of that vault. -/
def Unmoved (km : KeyManager) (cache : ScriptCache) : Prop :=
  ∀ key cached, cacheFind cache key = some cached → (vaultLists km key.1).isSome → scriptValue c km key = some cached.dict

/-- The scan asks for no cached script and adds to none it was given. -/
def QuietScan {ρ : Type} (state : VaultState) (scan : ScriptScan ρ) : Prop :=
  ∀ trace, scan.trace (scriptValue c state.km) = some trace → Quiet Cached state.tracker.scriptAndHashCache trace

def Undisturbed (state : VaultState) : VaultEvent → Prop
  | .kmAddVault hdWallets name => Unmoved c (kmAddVault state.km hdWallets name) state.tracker.scriptAndHashCache
  | .kmAddVaultObserver masterHdWallet hdWallets name =>
    Unmoved c (kmAddVaultObserver state.km masterHdWallet hdWallets name) state.tracker.scriptAndHashCache
  | .kmRemoveVault index => Unmoved c (kmRemoveVault state.km index) state.tracker.scriptAndHashCache
  | .ttScriptAndHash vaultIndex derivation isChange =>
    QuietScan c state (.ask (vaultIndex, derivation, isChange) .result : ScriptScan Dict)
  | .ttAllTransactionsForVault vaultIndex usedKeysAndHashes rounds =>
    QuietScan c state (ttAllTransactionsForVault state.tracker.toTransactionTracker vaultIndex usedKeysAndHashes rounds)
  | .ttUnusedVaultScript vaultIndex n change rounds =>
    QuietScan c state (ttUnusedVaultScript c state.km state.tracker.toTransactionTracker vaultIndex n change rounds)
  | .ttVaultPathForScriptHash vaultIndex scriptHash rounds =>
    QuietScan c state (ttVaultPathForScriptHash state.tracker.toTransactionTracker vaultIndex scriptHash rounds)
  | .ttUpdateBloomFilter _ => True
  | .ttAddTransaction _ => True

variable {c lib transactionTrackerBloomaheadCount} {km : KeyManager} {state next : VaultState}

/-! ## Scans ask for each script once -/

/-- Asked for up to now: derivations before `i`. -/
def OrderlyFrom {ρ : Type} (i : Nat) (scan : ScriptScan ρ) : Prop :=
  ∀ seen held : List ScriptKey, (∀ key ∈ seen, key.2.1 < i) → scan.Orderly (fun dict => !dictIsNull dict) seen held

theorem asked_later {seen : List ScriptKey} {i : Nat} (h : ∀ key ∈ seen, key.2.1 < i) : ∀ key ∈ seen, key.2.1 < i + 1 :=
  fun key hkey => Nat.lt_succ_of_lt (h key hkey)

theorem asked_cons {seen : List ScriptKey} {vaultIndex i : Nat} {change : Bool} (h : ∀ key ∈ seen, key.2.1 < i + 1) :
    ∀ key ∈ (vaultIndex, i, change) :: seen, key.2.1 < i + 1 := by
  intro key hkey
  rcases List.mem_cons.1 hkey with rfl | hkey
  · exact Nat.lt_succ_self i
  · exact h key hkey

theorem not_asked {seen : List ScriptKey} {vaultIndex i : Nat} {change : Bool} (h : ∀ key ∈ seen, key.2.1 < i) :
    (vaultIndex, i, change) ∉ seen := fun hold => absurd (h _ hold) (Nat.lt_irrefl i)

/-- After the deposit script of a derivation its change script is still to be asked for. -/
theorem change_not_asked {seen : List ScriptKey} {vaultIndex i : Nat} (h : ∀ key ∈ seen, key.2.1 < i) :
    (vaultIndex, i, true) ∉ (vaultIndex, i, false) :: seen := by
  intro hold
  rcases List.mem_cons.1 hold with heq | hold
  · cases heq
  · exact not_asked h hold

theorem orderly_allTransactionsForVault {self : TransactionTracker} {vaultIndex rounds : Nat} {i lastUsedAddress : Nat}
    {acc : List Nat × Dict} : OrderlyFrom i (allTransactionsForVaultFrom self vaultIndex rounds i lastUsedAddress acc) := by
  induction rounds generalizing i lastUsedAddress acc with
  | zero => exact fun _ _ _ => trivial
  | succ rounds ih =>
    obtain ⟨array, used⟩ := acc
    intro seen held hseen
    unfold allTransactionsForVaultFrom
    split
    swap
    · trivial
    split
    swap
    · trivial
    refine ⟨not_asked hseen, fun items => ?_⟩
    dsimp only
    by_cases hnull : dictIsNull items = true
    · rw [if_pos hnull]
      trivial
    · rw [if_neg hnull]
      refine ⟨change_not_asked hseen, fun change => ⟨?_, ih _ _ (asked_cons (asked_cons (asked_later hseen)))⟩⟩
      -- the first dictionary is not NULL, so the cache has it
      have hkept : (!dictIsNull items) = true := by simp [hnull]
      rw [if_pos hkept]
      split
      · exact List.mem_cons_of_mem _ List.mem_cons_self
      · exact List.mem_cons_self

theorem orderly_unusedVaultScript {self : TransactionTracker} {vaultIndex n rounds : Nat} {change : Bool} {i lastUsedAddress : Nat} :
    OrderlyFrom i (unusedVaultScriptFrom c km self vaultIndex n change rounds i lastUsedAddress) := by
  induction rounds generalizing i lastUsedAddress with
  | zero => exact fun _ _ _ => trivial
  | succ rounds ih =>
    intro seen held hseen
    unfold unusedVaultScriptFrom
    split
    swap
    · trivial
    split
    swap
    · trivial
    refine ⟨not_asked hseen, fun items => ?_⟩
    have hlater := @asked_cons _ vaultIndex _ change (asked_later hseen)
    dsimp only
    generalize (if (!dictIsNull items) = true then (vaultIndex, i, change) :: held else held) = held
    split
    · exact ih _ _ hlater
    split
    · split
      · trivial
      · trivial
    · exact ih _ _ hlater

theorem orderly_vaultPathForScriptHash {self : TransactionTracker} {vaultIndex rounds : Nat} {scriptHash : Data}
    {i lastUsedAddress : Nat} : OrderlyFrom i (vaultPathForScriptHashFrom self vaultIndex scriptHash rounds i lastUsedAddress) := by
  induction rounds generalizing i lastUsedAddress with
  | zero => exact fun _ _ _ => trivial
  | succ rounds ih =>
    intro seen held hseen
    unfold vaultPathForScriptHashFrom
    split
    swap
    · trivial
    split
    swap
    · trivial
    refine ⟨not_asked hseen, fun items => ?_⟩
    dsimp only
    generalize (if (!dictIsNull items) = true then (vaultIndex, i, false) :: held else held) = held
    split
    · trivial
    refine ⟨change_not_asked hseen, fun items' => ?_⟩
    dsimp only
    generalize (if (!dictIsNull items') = true then (vaultIndex, i, true) :: held else held) = held
    split
    · trivial
    exact ih _ _ (asked_cons (asked_cons (asked_later hseen)))

/-! ## One event -/

/-- Every cached script is intact. -/
def Intact (state : VaultState) : Prop :=
  ∀ key cached, cacheFind state.tracker.scriptAndHashCache key = some cached → cached.intact = true

theorem coherent_of_sound (h : ∀ key, SoundAt c state.km state.tracker.scriptAndHashCache key) : Coherent c state :=
  fun key => (h key).answers

theorem intact_of_sound (h : ∀ key, SoundAt c state.km state.tracker.scriptAndHashCache key) : Intact state :=
  fun key cached hfind => (h key cached hfind).1

/-- An intact cache is coherent exactly where it has the scripts of the vaults there are. -/
theorem coherent_iff_unmoved (h : Intact state) : Coherent c state ↔ Unmoved c state.km state.tracker.scriptAndHashCache := by
  constructor
  · intro hcoherent key cached hfind hlists
    obtain ⟨lists, hlists⟩ := Option.isSome_iff_exists.1 hlists
    rw [← hcoherent key, askTracker_eq, hlists, Option.bind_some, flexible_hit hfind, if_pos (h key cached hfind)]
    rfl
  · exact fun hunmoved => coherent_of_sound fun key cached hfind => ⟨h key cached hfind, hunmoved key cached hfind⟩

theorem sound_of_coherent (hintact : Intact state) (h : Coherent c state) (key : ScriptKey) :
    SoundAt c state.km state.tracker.scriptAndHashCache key :=
  fun cached hfind => ⟨hintact key cached hfind, (coherent_iff_unmoved hintact).1 h key cached hfind⟩

theorem not_coherent_of_broken (h : Broken c state.km state.tracker.scriptAndHashCache) : ¬ Coherent c state := by
  obtain ⟨key, cached, hfind, hspoilt, dict, hvalue⟩ := h
  intro hcoherent
  have hanswer := hcoherent key
  obtain ⟨lists, hlists⟩ := Option.isSome_iff_exists.1 (scriptValue_lists hvalue)
  rw [hvalue, askTracker_eq, hlists, Option.bind_some, flexible_hit hfind, hspoilt] at hanswer
  cases hanswer

/-- A scan keeps the cache coherent exactly if it is quiet. -/
theorem scanVault_coherent_iff {ρ : Type} {scan : ScriptScan ρ} (horderly : OrderlyFrom 0 scan) (hintact : Intact state)
    (hcoherent : Coherent c state) :
    (scanVault c state scan = none → QuietScan c state scan) ∧
      ∀ next, scanVault c state scan = some next →
        (Coherent c next → Intact next) ∧ (Coherent c next ↔ QuietScan c state scan) := by
  have hsound := sound_of_coherent hintact hcoherent
  obtain ⟨hnone, hsome⟩ := (cache_lends (c := c) state.km).run_trace
    (horderly [] [] fun key hkey => absurd hkey List.not_mem_nil) (fun k hk => absurd hk List.not_mem_nil) fun k _ => hsound k
  cases htrace : scan.trace (scriptValue c state.km) with
  | none =>
    have hquiet : QuietScan c state scan := fun trace h => by rw [htrace] at h; cases h
    refine ⟨fun _ => hquiet, fun next hnext => ?_⟩
    rw [scanVault, hnone htrace] at hnext
    cases hnext
  | some trace =>
    obtain ⟨cache, hrun, hfine, hbroken⟩ := hsome trace htrace
    have hiff : QuietScan c state scan ↔ Quiet Cached state.tracker.scriptAndHashCache trace := by
      constructor
      · exact fun h => h trace htrace
      · intro h trace' htrace'
        cases htrace.symm.trans htrace'
        exact h
    refine ⟨fun hnext => ?_, fun next hnext => ?_⟩
    · rw [scanVault, hrun] at hnext
      cases hnext
    · rw [scanVault, hrun] at hnext
      cases hnext
      rw [hiff]
      by_cases hquiet : Quiet Cached state.tracker.scriptAndHashCache trace
      · have hall := hfine hquiet hsound
        exact ⟨fun _ => intact_of_sound hall, iff_of_true (coherent_of_sound hall) hquiet⟩
      · have hnot := @not_coherent_of_broken c { state with tracker := { state.tracker with scriptAndHashCache := cache } } (hbroken hquiet)
        exact ⟨fun h => absurd h hnot, iff_of_false hnot hquiet⟩

/-- An update forgets every script and computes those that it looks ahead to. -/
theorem updateBloomFilter_sound {tracker updated : BloomTracker} {rounds : Nat}
    (h : ttUpdateBloomFilter c lib transactionTrackerBloomaheadCount km tracker rounds = some updated) (key : ScriptKey) :
    SoundAt c km updated.scriptAndHashCache key :=
  (updateBloomFilter_adds h).1.soundAt key

theorem vaultStep_coherent_iff {event : VaultEvent} (hintact : Intact state) (hcoherent : Coherent c state) :
    (vaultStep c lib transactionTrackerBloomaheadCount state event = none → Undisturbed c state event) ∧
      ∀ next, vaultStep c lib transactionTrackerBloomaheadCount state event = some next →
        (Coherent c next → Intact next) ∧ (Coherent c next ↔ Undisturbed c state event) := by
  -- the vaults change and the cache stays
  have hmoved : ∀ km, (Coherent c { state with km := km } → Intact { state with km := km }) ∧
      (Coherent c { state with km := km } ↔ Unmoved c km state.tracker.scriptAndHashCache) := fun km =>
    ⟨fun _ => hintact, @coherent_iff_unmoved c { state with km := km } hintact⟩
  cases event with
  | kmAddVault hdWallets name =>
    exact ⟨fun h => (by cases h), fun next h => Option.some.inj h ▸ hmoved _⟩
  | kmAddVaultObserver masterHdWallet hdWallets name =>
    exact ⟨fun h => (by cases h), fun next h => Option.some.inj h ▸ hmoved _⟩
  | kmRemoveVault index =>
    exact ⟨fun h => (by cases h), fun next h => Option.some.inj h ▸ hmoved _⟩
  | ttScriptAndHash vaultIndex derivation isChange =>
    exact scanVault_coherent_iff (fun _ _ hseen => ⟨fun hold => absurd (hseen _ hold) (Nat.not_lt_zero _), fun _ => trivial⟩)
      hintact hcoherent
  | ttAllTransactionsForVault vaultIndex usedKeysAndHashes rounds =>
    exact scanVault_coherent_iff orderly_allTransactionsForVault hintact hcoherent
  | ttUnusedVaultScript vaultIndex n change rounds =>
    exact scanVault_coherent_iff orderly_unusedVaultScript hintact hcoherent
  | ttVaultPathForScriptHash vaultIndex scriptHash rounds =>
    exact scanVault_coherent_iff orderly_vaultPathForScriptHash hintact hcoherent
  | ttUpdateBloomFilter rounds =>
    refine ⟨fun _ => trivial, fun next h => ?_⟩
    obtain ⟨updated, hupdated, rfl⟩ := Option.map_eq_some_iff.1 h
    have hall := updateBloomFilter_sound hupdated
    exact ⟨fun _ => @intact_of_sound c { state with tracker := updated } hall,
      iff_of_true (@coherent_of_sound c { state with tracker := updated } hall) trivial⟩
  | ttAddTransaction data =>
    refine ⟨fun _ => trivial, fun next h => ?_⟩
    obtain ⟨tracker, hadd, rfl⟩ := Option.map_eq_some_iff.1 h
    obtain ⟨added, -, rfl⟩ := Option.map_eq_some_iff.1 hadd
    exact ⟨fun _ => hintact, iff_of_true hcoherent trivial⟩

/-- It returns transactions only if it has added to what the cache lent it. -/
theorem allTransactionsForVault_changes {self : TransactionTracker} {vaultIndex rounds : Nat} {used : Dict}
    {trace : Trace ScriptKey (Option (List Nat) × Dict)} {array : List Nat}
    (h : (ttAllTransactionsForVault self vaultIndex used rounds).trace (scriptValue c km) = some trace)
    (hresult : trace.result.1 = some array) : trace.changed ≠ [] := by
  cases rounds with
  | zero => cases h
  | succ rounds =>
    unfold ttAllTransactionsForVault allTransactionsForVaultFrom at h
    rw [if_pos (by decide), if_pos (by decide)] at h
    obtain ⟨items, -, h⟩ := Option.bind_eq_some_iff.1 h
    obtain ⟨first, hfirst, rfl⟩ := Option.map_eq_some_iff.1 h
    dsimp only at hfirst
    split at hfirst
    · cases hfirst
      cases hresult
    · obtain ⟨change, -, hfirst⟩ := Option.bind_eq_some_iff.1 hfirst
      obtain ⟨second, hsecond, rfl⟩ := Option.map_eq_some_iff.1 hfirst
      obtain ⟨rest, -, rfl⟩ := Option.map_eq_some_iff.1 hsecond
      exact List.cons_ne_nil _ _

/-! ## Every run -/

/-- As `TTNew` leaves the tracker, nothing is cached. -/
def vaultStart (km : KeyManager) (tracker : BloomTracker) : VaultState := ⟨km, { tracker with scriptAndHashCache := [] }⟩

/-- In a run the cache gives at every moment what is computed without it, exactly if each of
    its events leaves it undisturbed. What is computed is the script of the vault, where the
    list of masters has the vault's in its place. -/
theorem cached_scripts_iff (km : KeyManager) (tracker : BloomTracker) (events : List VaultEvent) :
    (Throughout (vaultStep c lib transactionTrackerBloomaheadCount) (Coherent c) (vaultStart km tracker) events ↔
        Along (vaultStep c lib transactionTrackerBloomaheadCount) (Undisturbed c) (vaultStart km tracker) events) ∧
      ∀ (km : KeyManager) (vaultIndex derivation : Nat) (isChange : Bool) (info : VaultObject),
        km.vaultObjects[vaultIndex]? = some info →
        datasAt (kmVaultMasterHdWallets km) vaultIndex = some (vaultMaster km info) → (vaultMaster km info).length ≠ 0 →
        scriptValue c km (vaultIndex, derivation, isChange) =
          (vaultScriptAt c (vaultMaster km info) (datasDeserialize info.hdWallets) (vaultPath isChange derivation)).map
            (scriptAndHash c) := by
  refine ⟨?_, fun km vaultIndex derivation isChange info => scriptValue_vault⟩
  have hempty : ∀ key, SoundAt c km [] key := fun key cached hfind => (by cases hfind)
  refine @throughout_iff_along _ _ _ (Coherent c) Intact (Undisturbed c) ?_ ?_ _ _
    (@intact_of_sound c (vaultStart km tracker) hempty) (@coherent_of_sound c (vaultStart km tracker) hempty)
  · intro state event next hintact hcoherent hnext
    exact (vaultStep_coherent_iff hintact hcoherent).2 next hnext
  · intro state event hintact hcoherent hnone
    exact (vaultStep_coherent_iff hintact hcoherent).1 hnone

/-- Two observed vaults, each the other's member. -/
def twoVaults : KeyManager where
  allHdWalletPubRoots := []
  fits := vaultManager.fits
  vaultObjects := [⟨none, datasSerialize [vaultMember], countRoot⟩, ⟨none, datasSerialize [countRoot], vaultMember⟩]
  ownMaster _ := none

/-- The first vault is removed, and its script stays; or its script is asked for twice, and a
    third time it is freed memory. -/
theorem not_cached_scripts :
    ¬ Throughout (vaultStep countCrypto plainBloom 1) (Coherent countCrypto) (vaultStart twoVaults (storing []))
        [.ttScriptAndHash 0 0 false, .kmRemoveVault 0] ∧
      ¬ Throughout (vaultStep countCrypto plainBloom 1) (Coherent countCrypto) (vaultStart twoVaults (storing []))
        [.ttScriptAndHash 0 0 false, .ttScriptAndHash 0 0 false] := by
  have hdiffer : ∀ events, (after (vaultStep countCrypto plainBloom 1) (vaultStart twoVaults (storing [])) events).map (fun state =>
      decide (((askTracker countCrypto state.km state.tracker.scriptAndHashCache (0, 0, false)).map fun answer =>
          answer.1.elements) =
        (scriptValue countCrypto state.km (0, 0, false)).map fun dict => dict.elements)) = some false →
      ¬ Throughout (vaultStep countCrypto plainBloom 1) (Coherent countCrypto) (vaultStart twoVaults (storing [])) events := by
    intro events hrun hall
    obtain ⟨state, hstate, hno⟩ := Option.map_eq_some_iff.1 hrun
    refine of_decide_eq_false hno ?_
    have hcoherent := congrArg (Option.map fun dict : Dict => dict.elements) (hall events (List.prefix_refl _) state hstate (0, 0, false))
    rw [Option.map_map] at hcoherent
    exact hcoherent
  exact ⟨hdiffer _ (by decide +kernel), hdiffer _ (by decide +kernel)⟩

end BitcoinSpoon
