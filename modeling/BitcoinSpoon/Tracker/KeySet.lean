/-
  BitcoinSpoon.Tracker.KeySet — what is watched after an update
  (`code/TransactionTracker.c`).

  The set is built by loops over wallets, vaults and transactions, and the filter is made of
  it, so what is in the set is in the filter. `AddedKey` says what that is. The keys of the
  members of a vault are not: the loop over them reads one member as if it were a list of
  wallets, and where it finds one it compares pointers that have nothing to do with each
  other. And the missing funding transactions are those of the keys before the update. So
  nothing is left out exactly if these keys and transactions come in another way
  (`watch_set_complete_iff`).
-/

import BitcoinSpoon.Tracker.LookAhead
import BitcoinSpoon.Tracker.Scripts

namespace BitcoinSpoon

open Wire Loop

variable (c : HdCrypto) (lib : BloomLibrary) (km : KeyManager) (self : BloomTracker)

/-! ## What the loops add -/

def lookAheadAt (counts : Datas) (i : Nat) : Option Nat := do
  let stored ← counts[i]?
  let count ← dataGetInt stored
  some count.toInt.toNat

/-- A key or hash of the derivation at the path. -/
def DerivesKey (wallet : Data) (path key : Bytes) : Prop :=
  ∃ derived, hdWallet c wallet path = some derived ∧ IsKey (ttKeysAndKeyHashesForWallet c derived) key

def WalletKey (i : Nat) (key : Bytes) : Prop :=
  ∃ root count j, (ttAllHdWallets self)[i]? = some root ∧ lookAheadAt (ttLookAheadCount self) i = some count ∧ j < count ∧
    DerivesKey c root (decimal j) key

/-- Derivation `j` of vault `i` is looked ahead. -/
def VaultAhead (i j : Nat) (masterHdWallet : Data) (members : Datas) : Prop :=
  vaultLists km i = some (masterHdWallet, members) ∧
    ∃ count, lookAheadAt (ttVaultLookAheadCount self) i = some count ∧ j < count

def ScriptEntry (i j : Nat) (key : Bytes) : Prop := ∃ change dict, scriptValue c km (i, j, change) = some dict ∧ IsKey dict key

def MissingKey (self : BloomTracker) (key : Bytes) : Prop :=
  ∃ txid ∈ ttMissingFundingTransactions (fun _ => ttInterestingTransaction self.keysAndKeyHashes) self.toTransactionTracker,
    txid.toBytes = key

def SingleOutputKey (self : BloomTracker) (key : Bytes) : Prop :=
  ∃ trans ∈ self.allTransactions, trans.outputs.length = 1 ∧ (transactionTxid c.toCrypto trans).toBytes = key

/-- What the loops of `buildKeysAndKeyHashes` add; `before` is the tracker they are run for,
    with the key set of then. -/
def AddedKey (before : BloomTracker) (key : Bytes) : Prop :=
  (∃ i, WalletKey c self i key) ∨
    (∃ i j masterHdWallet members, VaultAhead km self i j masterHdWallet members ∧ ScriptEntry c km i j key) ∨
    MissingKey before key ∨ SingleOutputKey c before key

/-! ## What is promised -/

/-- In the set and in the filter. -/
def Watches (key : Bytes) : Prop :=
  IsKey self.keysAndKeyHashes key ∧
    ∃ bloom, self.bloomFilter = some bloom ∧ bloomFilterCheckElement lib bloom (some key) = some true

/-- A key or hash of a member of a vault. -/
def MemberKey (key : Bytes) : Prop :=
  ∃ i j masterHdWallet members, VaultAhead km self i j masterHdWallet members ∧
    ∃ member ∈ members, ∃ change, DerivesKey c member (vaultPath change j) key

/-- The script of a vault that has a master, and its hash. -/
def VaultScriptKey (key : Bytes) : Prop :=
  ∃ i j masterHdWallet members, VaultAhead km self i j masterHdWallet members ∧ masterHdWallet.length ≠ 0 ∧
    ∃ change script, kmVaultScriptDerivation c km i (vaultPath change j) = some script ∧
      (key = script ∨ key = (sha256 c.toCrypto (some script)).toBytes)

structure WatchSetComplete : Prop where
  wallets : ∀ i key, WalletKey c self i key → Watches lib self key
  members : ∀ key, MemberKey c km self key → Watches lib self key
  scripts : ∀ key, VaultScriptKey c km self key → Watches lib self key
  missing : ∀ key, MissingKey self key → Watches lib self key
  single : ∀ key, SingleOutputKey c self key → Watches lib self key

variable {c lib km self} {set next : Dict} {key : Bytes}

/-! ## Wallets -/

theorem addKeysAt_adds {wallet : Data} {path : Bytes} (h : addKeysAt c wallet path set = some next) :
    IsKey next key ↔ IsKey set key ∨ DerivesKey c wallet path key := by
  obtain ⟨derived, hderived, heq⟩ := Option.bind_eq_some_iff.1 h
  cases heq
  rw [isKey_addDict]
  refine or_congr_right ⟨fun hkey => ⟨derived, hderived, hkey⟩, fun hkey => ?_⟩
  obtain ⟨derived', hderived', hkey⟩ := hkey
  cases hderived.symm.trans hderived'
  exact hkey

theorem forInt_addKeysAt {wallet : Data} {count : Int32} {path : Nat → Bytes}
    (h : forInt count (fun j set => addKeysAt c wallet (path j) set) set = some next) :
    IsKey next key ↔ IsKey set key ∨ ∃ j, j < count.toInt.toNat ∧ DerivesKey c wallet (path j) key := by
  have hall := foldlM_adds (fun _ _ => True) (fun set => IsKey set key) (fun j => DerivesKey c wallet (path j) key) h trivial fun _ _ _ _ _ _ _ hstep => ⟨trivial, addKeysAt_adds hstep⟩
  rw [hall.2]
  simp only [List.mem_range]

theorem addWallet_adds {i : Nat} (h : addWallet c self set i = some next) :
    IsKey next key ↔ IsKey set key ∨ WalletKey c self i key := by
  obtain ⟨stored, hstored, h⟩ := Option.bind_eq_some_iff.1 h
  obtain ⟨count, hcount, h⟩ := Option.bind_eq_some_iff.1 h
  obtain ⟨wallet, hwallet, h⟩ := Option.bind_eq_some_iff.1 h
  have hahead : lookAheadAt (ttLookAheadCount self) i = some count.toInt.toNat := by simp [lookAheadAt, hstored, hcount]
  rw [forInt_addKeysAt h]
  refine or_congr_right ⟨?_, ?_⟩
  · intro hkey
    obtain ⟨j, hj, hkey⟩ := hkey
    exact ⟨wallet, _, j, hwallet, hahead, hj, hkey⟩
  · intro hkey
    obtain ⟨root, count', j, hroot, hcount', hj, hkey⟩ := hkey
    cases hwallet.symm.trans hroot
    cases hahead.symm.trans hcount'
    exact ⟨j, hj, hkey⟩

/-! ## Vaults -/

/-- The scripts asked for before derivation `j` of vault `i`. -/
def AskedBefore (i j : Nat) (key : ScriptKey) : Prop := key.1 < i ∨ key.1 = i ∧ key.2.1 < j

theorem addVaultDerivation_adds {i j : Nat} {master : Data} {members : Datas} {cache cache' : ScriptCache}
    (hlists : vaultLists km i = some (master, members)) (hcache : Filled c km (AskedBefore i j) cache)
    (h : addVaultDerivation c i master members j (set, cache) = some (next, cache')) :
    Filled c km (AskedBefore i (j + 1)) cache' ∧ (IsKey next key ↔ IsKey set key ∨ ScriptEntry c km i j key) := by
  obtain ⟨inner, -, h⟩ := Option.bind_eq_some_iff.1 h
  by_cases hnested : datasDeserialize inner ≠ []
  · rw [if_pos hnested] at h
    cases h
  rw [if_neg hnested] at h
  obtain ⟨⟨deposit, between⟩, hdeposit, h⟩ := Option.bind_eq_some_iff.1 h
  obtain ⟨⟨change, last⟩, hchange, heq⟩ := Option.bind_eq_some_iff.1 h
  cases heq
  have hask : ∀ cache change, ttScriptAndHashFlexible c cache i j change master members = askTracker c km cache (i, j, change) :=
    fun cache change => by rw [askTracker_eq, hlists, Option.bind_some]
  rw [hask] at hdeposit hchange
  -- neither script has been asked for before
  obtain ⟨hvalue, hfilled⟩ := @Filled.ask _ _ _ _ _ _ _ (fun k => AskedBefore i j k ∨ k = (i, j, false)) hcache
    (by simp [AskedBefore]) (fun k hk => hk) hdeposit
  obtain ⟨hvalue', hfilled'⟩ := @Filled.ask _ _ _ _ _ _ _ (AskedBefore i (j + 1)) hfilled
    (by simp [AskedBefore]) (by
      intro k hk
      unfold AskedBefore at hk ⊢
      rcases hk with ((hk | ⟨hi, hj⟩) | rfl) | rfl
      · exact Or.inl hk
      · exact Or.inr ⟨hi, Nat.lt_succ_of_lt hj⟩
      · exact Or.inr ⟨rfl, Nat.lt_succ_self j⟩
      · exact Or.inr ⟨rfl, Nat.lt_succ_self j⟩) hchange
  refine ⟨hfilled', ?_⟩
  have hentry : ScriptEntry c km i j key ↔ IsKey deposit key ∨ IsKey change key := by
    unfold ScriptEntry
    rw [Bool.exists_bool, hvalue, hvalue']
    simp
  rw [isKey_addDict, isKey_addDict, hentry, or_assoc]

/-- What vault `i` adds. -/
def VaultKey (c : HdCrypto) (km : KeyManager) (self : BloomTracker) (i : Nat) (key : Bytes) : Prop :=
  ∃ j masterHdWallet members, VaultAhead km self i j masterHdWallet members ∧ ScriptEntry c km i j key

theorem addVault_adds {i : Nat} {cache cache' : ScriptCache} (hcache : Filled c km (AskedBefore i 0) cache)
    (h : addVault c km self (set, cache) i = some (next, cache')) :
    Filled c km (AskedBefore (i + 1) 0) cache' ∧ (IsKey next key ↔ IsKey set key ∨ VaultKey c km self i key) := by
  obtain ⟨master, hmaster, h⟩ := Option.bind_eq_some_iff.1 h
  obtain ⟨wallets, hwallets, h⟩ := Option.bind_eq_some_iff.1 h
  obtain ⟨stored, hstored, h⟩ := Option.bind_eq_some_iff.1 h
  obtain ⟨count, hcount, h⟩ := Option.bind_eq_some_iff.1 h
  have hlists : vaultLists km i = some (master, datasDeserialize wallets) := by simp [vaultLists, hmaster, hwallets]
  have hahead : lookAheadAt (ttVaultLookAheadCount self) i = some count.toInt.toNat := by simp [lookAheadAt, hstored, hcount]
  have hall := foldlM_adds (fun (pre : List Nat) (state : Dict × ScriptCache) => Filled c km (AskedBefore i pre.length) state.2)
    (fun state => IsKey state.1 key) (fun j => ScriptEntry c km i j key) h hcache (by
      intro pre j post hsplit state state' hfilled hstep
      obtain ⟨rfl, -⟩ := range_split hsplit
      rw [List.length_append]
      exact addVaultDerivation_adds hlists hfilled hstep)
  refine ⟨hall.1.mono fun k hk => ?_, ?_⟩
  · rcases hk with hk | ⟨hk, -⟩
    · exact Or.inl (Nat.lt_succ_of_lt hk)
    · exact Or.inl (Nat.lt_succ_of_le (Nat.le_of_eq hk))
  · rw [hall.2]
    refine or_congr_right ⟨?_, ?_⟩
    · intro hkey
      obtain ⟨j, hj, hkey⟩ := hkey
      exact ⟨j, master, _, ⟨hlists, _, hahead, List.mem_range.1 hj⟩, hkey⟩
    · intro hkey
      obtain ⟨j, master', members, ⟨hlists', count', hcount', hj⟩, hkey⟩ := hkey
      cases hlists.symm.trans hlists'
      cases hahead.symm.trans hcount'
      exact ⟨j, List.mem_range.2 hj, hkey⟩

/-! ## Transactions -/

theorem addTxids_adds : IsKey (addTxids c self set) key ↔ IsKey set key ∨ MissingKey self key ∨ SingleOutputKey c self key := by
  have hmissing : ∀ (txids : Datas) (set : Dict), IsKey (txids.foldl (fun set data => dictAdd set data none) set) key ↔
      IsKey set key ∨ ∃ txid ∈ txids, txid.toBytes = key := by
    intro txids
    induction txids with
    | nil => simp
    | cons txid txids ih =>
      intro set
      rw [List.foldl_cons, ih, isKey_add]
      simp only [List.mem_cons, exists_eq_or_imp]
      rw [or_comm (a := key = txid.toBytes), or_assoc, eq_comm]
  have hsingle : ∀ (transactions : List Transaction) (set : Dict),
      IsKey (transactions.foldl (fun set trans =>
        if trans.outputs.length = 1 then dictAdd set (transactionTxid c.toCrypto trans) none else set) set) key ↔
      IsKey set key ∨ ∃ trans ∈ transactions, trans.outputs.length = 1 ∧ (transactionTxid c.toCrypto trans).toBytes = key := by
    intro transactions
    induction transactions with
    | nil => simp
    | cons trans transactions ih =>
      intro set
      rw [List.foldl_cons, ih]
      simp only [List.mem_cons, exists_eq_or_imp]
      by_cases hone : trans.outputs.length = 1
      · rw [if_pos hone, isKey_add]
        simp only [hone, true_and]
        rw [or_comm (a := key = _), or_assoc, eq_comm]
      · simp [hone]
  rw [addTxids, hsingle, hmissing, or_assoc]
  exact Iff.rfl

/-! ## The set -/

theorem buildKeysAndKeyHashes_adds {cache : ScriptCache} (hcache : self.scriptAndHashCache = [])
    (hcounts : ∃ vaultCount, dataGetInt self.vaultCount = some vaultCount ∧
      (ttVaultLookAheadCount self).length = vaultCount.toInt.toNat)
    (h : buildKeysAndKeyHashes c km self = some (set, cache)) :
    Filled c km (fun _ => True) cache ∧ ∀ key, IsKey set key ↔ AddedKey c km self self key := by
  obtain ⟨wallets, hwallets, h⟩ := Option.bind_eq_some_iff.1 h
  obtain ⟨vaultCount, hvaultCount, h⟩ := Option.bind_eq_some_iff.1 h
  obtain ⟨⟨vaults, cache'⟩, hvaults, heq⟩ := Option.bind_eq_some_iff.1 h
  cases heq
  obtain ⟨vaultCount', hvaultCount', hlength⟩ := hcounts
  cases hvaultCount.symm.trans hvaultCount'
  rw [hcache] at hvaults
  have hempty : Filled c km (AskedBefore 0 0) [] := fun k cached hfind => (by cases hfind)
  have hvault : ∀ key, Filled c km (AskedBefore (List.range vaultCount.toInt.toNat).length 0) cache ∧
      (IsKey vaults key ↔ IsKey wallets key ∨ ∃ i ∈ List.range vaultCount.toInt.toNat, VaultKey c km self i key) := by
    intro key
    exact foldlM_adds (fun (pre : List Nat) (state : Dict × ScriptCache) => Filled c km (AskedBefore pre.length 0) state.2)
      (fun state => IsKey state.1 key) (fun i => VaultKey c km self i key) hvaults hempty (by
        intro pre i post hsplit state state' hfilled hstep
        obtain ⟨rfl, -⟩ := range_split hsplit
        rw [List.length_append]
        exact addVault_adds hfilled hstep)
  refine ⟨(hvault []).1.mono fun _ _ => trivial, fun key => ?_⟩
  have hwallet := foldlM_adds (fun _ _ => True) (fun set => IsKey set key) (fun i => WalletKey c self i key) hwallets trivial
    fun _ _ _ _ _ _ _ hstep => ⟨trivial, addWallet_adds hstep⟩
  rw [addTxids_adds, (hvault key).2, hwallet.2, AddedKey, or_assoc, or_assoc]
  have hnew : ¬ IsKey dictNew key := isKey_new key
  rw [or_iff_right hnew]
  refine or_congr ⟨?_, ?_⟩ (or_congr_left ⟨?_, ?_⟩)
  · exact fun hkey => hkey.imp fun i hi => hi.2
  · intro hkey
    obtain ⟨i, root, count, j, hroot, hkey⟩ := hkey
    exact ⟨i, List.mem_range.2 (List.getElem?_eq_some_iff.1 hroot).1, root, count, j, hroot, hkey⟩
  · exact fun hkey => hkey.imp fun i hi => hi.2
  · intro hkey
    obtain ⟨i, j, master, members, ⟨hlists, count, hcount, hj⟩, hkey⟩ := hkey
    obtain ⟨stored, hstored, -⟩ := Option.bind_eq_some_iff.1 hcount
    refine ⟨i, List.mem_range.2 ?_, j, master, members, ⟨hlists, count, hcount, hj⟩, hkey⟩
    rw [← hlength]
    exact (List.getElem?_eq_some_iff.1 hstored).1

/-! ## An update -/

variable {transactionTrackerBloomaheadCount : Int32} {updated : BloomTracker}

theorem missingKey_congr {self other : BloomTracker} (hset : other.keysAndKeyHashes = self.keysAndKeyHashes)
    (htracker : other.toTransactionTracker = self.toTransactionTracker) : MissingKey other key ↔ MissingKey self key := by
  unfold MissingKey
  rw [hset, htracker]

theorem singleOutputKey_congr {self other : BloomTracker} (htracker : other.toTransactionTracker = self.toTransactionTracker) :
    SingleOutputKey c other key ↔ SingleOutputKey c self key := by
  unfold SingleOutputKey
  rw [htracker]

/-- What an update leaves of the set, the filter and the cache. -/
theorem updateBloomFilter_adds {rounds : Nat}
    (h : ttUpdateBloomFilter c lib transactionTrackerBloomaheadCount km self rounds = some updated) :
    Filled c km (fun _ => True) updated.scriptAndHashCache ∧
      (∀ key, IsKey updated.keysAndKeyHashes key ↔ AddedKey c km updated self key) ∧
      (∀ key, Watches lib updated key ↔ IsKey updated.keysAndKeyHashes key) ∧
      updated.toTransactionTracker = self.toTransactionTracker := by
  obtain ⟨built, -, vaultCount, vaultCounts, lasts, set, cache, filter, ⟨htracker, hset, hcache, -⟩, -,
    ⟨hvaultCount, hstored, hlasts, hfour⟩, hbuild, hfilter, rfl⟩ := updateBloomFilter_cases h
  have hfits : Fits vaultCounts := by
    intro d hd
    obtain ⟨i, -, hi⟩ := mem_mapM hlasts hd
    rw [hfour i d hi]
    decide
  have hlength : (ttVaultLookAheadCount built).length = vaultCount.toInt.toNat := by
    rw [ttVaultLookAheadCount, hstored, datasDeserialize_serialize hfits, List.length_map, (mapM_eq_some_iff.1 hlasts).length,
      List.length_range]
  obtain ⟨hfilled, hadds⟩ := buildKeysAndKeyHashes_adds hcache ⟨vaultCount, hvaultCount, hlength⟩ hbuild
  refine ⟨hfilled, fun key => ?_, fun key => ⟨fun hkey => hkey.1, fun hkey => ⟨hkey, ?_⟩⟩, htracker⟩
  · refine (hadds key).trans (or_congr Iff.rfl (or_congr Iff.rfl (or_congr ?_ ?_)))
    · exact missingKey_congr hset htracker
    · exact singleOutputKey_congr htracker
  · obtain ⟨bloom, rfl⟩ := bloomFilterArray_some hfilter
    obtain ⟨item, hitem, hkey⟩ := isKey_iff_mem.1 hkey
    refine ⟨bloom, rfl, bloomFilterArray_contains hfilter ?_⟩
    rw [← hkey]
    exact List.mem_map_of_mem hitem

theorem isKey_scriptAndHash {script : Bytes} :
    IsKey (scriptAndHash c script) key ↔ key = script ∨ key = (sha256 c.toCrypto (some script)).toBytes := by
  rw [scriptAndHash, isKey_add, isKey_add, or_iff_left (isKey_new key), or_comm, toBytes_some]

/-- The scripts of the vaults are added. -/
theorem VaultScriptKey.added {before : BloomTracker} (h : VaultScriptKey c km self key) : AddedKey c km self before key := by
  obtain ⟨i, j, master, members, hahead, hmaster, change, script, hscript, hkey⟩ := h
  refine Or.inr (Or.inl ⟨i, j, master, members, hahead, change, scriptAndHash c script, ?_, isKey_scriptAndHash.2 hkey⟩)
  obtain ⟨hlists, -⟩ := hahead
  rw [scriptValue_eq hlists hmaster, hscript]
  rfl

/-- The set and the filter lack nothing exactly if every key of a vault's members, and every
    funding transaction missing for the new keys, is added in one of the ways there are. -/
theorem watch_set_complete_iff (h : Returns (ttUpdateBloomFilter c lib transactionTrackerBloomaheadCount km self) updated) :
    WatchSetComplete c lib km updated ↔
      (∀ key, MemberKey c km updated key → AddedKey c km updated self key) ∧
        ∀ key, MissingKey updated key → AddedKey c km updated self key := by
  obtain ⟨rounds, hrun⟩ := h
  obtain ⟨-, hadds, hwatches, htracker⟩ := updateBloomFilter_adds hrun
  have hall : ∀ key, Watches lib updated key ↔ AddedKey c km updated self key := fun key => (hwatches key).trans (hadds key)
  constructor
  · intro hcomplete
    obtain ⟨-, hmembers, -, hmissing, -⟩ := hcomplete
    exact ⟨fun key hkey => (hall key).1 (hmembers key hkey), fun key hkey => (hall key).1 (hmissing key hkey)⟩
  · intro hcond
    obtain ⟨hmembers, hmissing⟩ := hcond
    refine ⟨fun i key hkey => (hall key).2 (Or.inl ⟨i, hkey⟩), fun key hkey => (hall key).2 (hmembers key hkey),
      fun key hkey => (hall key).2 hkey.added, fun key hkey => (hall key).2 (hmissing key hkey), fun key hkey => ?_⟩
    exact (hall key).2 (Or.inr (Or.inr (Or.inr ((singleOutputKey_congr htracker).1 hkey))))

/-- One wallet and the transaction that pays its first address. -/
theorem watch_set_complete_wallet : ∃ updated, Returns (ttUpdateBloomFilter countCrypto plainBloom 1 countManager
    (storing [payTo countCrypto (countWallet 0)])) updated ∧ WatchSetComplete countCrypto plainBloom countManager updated := by
  have hrun : (ttUpdateBloomFilter countCrypto plainBloom 1 countManager (storing [payTo countCrypto (countWallet 0)]) 11).map
      (fun updated => (ttVaultLookAheadCount updated, updated.allTransactions.flatMap (·.inputs))) = some ([], []) := by
    decide +kernel
  obtain ⟨updated, hupdated, hvalues⟩ := Option.map_eq_some_iff.1 hrun
  obtain ⟨hvaults, hinputs⟩ := Prod.mk.inj hvalues
  refine ⟨updated, ⟨11, hupdated⟩, (watch_set_complete_iff ⟨11, hupdated⟩).2 ⟨fun key hkey => ?_, fun key hkey => ?_⟩⟩
  · obtain ⟨i, j, master, members, ⟨-, count, hcount, -⟩, -⟩ := hkey
    rw [hvaults] at hcount
    cases hcount
  · obtain ⟨txid, htxid, -⟩ := hkey
    obtain ⟨trans, htrans, htxid⟩ := List.mem_flatMap.1 htxid
    obtain ⟨input, hinput, -⟩ := List.mem_map.1 (List.mem_of_mem_filter htxid)
    have hmem : input ∈ updated.allTransactions.flatMap (·.inputs) := List.mem_flatMap.2 ⟨trans, List.mem_of_mem_filter htrans, hinput⟩
    rw [hinputs] at hmem
    cases hmem

/-- An observed vault with one member. -/
def vaultMember : Data := hdWalletPub countCrypto (some (0x02 :: scalarBytes 70)) (some (List.replicate 32 0))

def vaultManager : KeyManager where
  allHdWalletPubRoots := []
  fits := fun _ hd => absurd hd List.not_mem_nil
  vaultObjects := [⟨none, datasSerialize [vaultMember], countRoot⟩]
  ownMaster _ := none

theorem not_watch_set_complete : ∃ updated, Returns (ttUpdateBloomFilter countCrypto plainBloom 1 vaultManager (storing [])) updated ∧
    ¬ WatchSetComplete countCrypto plainBloom vaultManager updated := by
  have hlists : vaultLists vaultManager 0 = some (countRoot, [vaultMember]) := by decide +kernel
  obtain ⟨derived, hderived⟩ : ∃ derived, hdWallet countCrypto vaultMember (vaultPath false 0) = some derived :=
    Option.isSome_iff_exists.1 (by decide +kernel)
  have hrun : (ttUpdateBloomFilter countCrypto plainBloom 1 vaultManager (storing []) 11).map (fun updated =>
      (lookAheadAt (ttVaultLookAheadCount updated) 0, (hdWallet countCrypto vaultMember (vaultPath false 0)).map fun derived =>
        dictHasKey updated.keysAndKeyHashes (some (pubKeyFromHdWallet countCrypto derived).toBytes))) =
      some (some 1, some false) := by decide +kernel
  obtain ⟨updated, hupdated, hvalues⟩ := Option.map_eq_some_iff.1 hrun
  obtain ⟨hcount, hmissing⟩ := Prod.mk.inj hvalues
  refine ⟨updated, ⟨11, hupdated⟩, fun hcomplete => ?_⟩
  obtain ⟨-, hmembers, -, -, -⟩ := hcomplete
  obtain ⟨hkey, -⟩ := hmembers (pubKeyFromHdWallet countCrypto derived).toBytes
    ⟨0, 0, countRoot, [vaultMember], ⟨hlists, 1, hcount, by decide⟩, vaultMember, List.mem_singleton_self _, false, derived, hderived,
      by simp [ttKeysAndKeyHashesForWallet]⟩
  rw [hderived] at hmissing
  have hno : dictHasKey updated.keysAndKeyHashes (some (pubKeyFromHdWallet countCrypto derived).toBytes) = false :=
    Option.some.inj hmissing
  rw [IsKey, hno] at hkey
  cases hkey

end BitcoinSpoon
