/-
  BitcoinSpoon.Tracker.Update — the look-ahead counts, the key set and the Bloom filter
  (`code/TransactionTracker.c`).

  `TTUpdateBloomFilter` stores the wallets, how far to look ahead in each of them, the set
  of keys, hashes, scripts and txids found there, and a filter made of it. What is stored
  is loaded again as it was. `none` is a scan that needs more rounds, or an abort, a crash
  or a read behind a list. The `int`s wrap around.
-/

import BitcoinSpoon.Tracker.Vaults
import BitcoinSpoon.Util.Bloom

namespace BitcoinSpoon

open Wire Loop

/-- The other fields of a tracker, and what it has stored. -/
structure BloomTracker extends TransactionTracker where
  keysAndKeyHashes : Dict
  scriptAndHashCache : ScriptCache
  bloomFilter : Data
  lookAheadCount : Data
  vaultLookAheadCount : Data
  allHdWallets : Data
  vaultCount : Data

def ttAllHdWallets (self : BloomTracker) : Datas := datasDeserialize self.allHdWallets

def ttLookAheadCount (self : BloomTracker) : Datas := datasDeserialize self.lookAheadCount

def ttVaultLookAheadCount (self : BloomTracker) : Datas := datasDeserialize self.vaultLookAheadCount

variable (c : HdCrypto) (lib : BloomLibrary) (transactionTrackerBloomaheadCount : Int32)

/-! ## Look-ahead -/

/-- A scan for the last index that the stored transactions contain. -/
def lastContained (self : TransactionTracker) (view : Nat → Option Dict) (start rounds : Nat) : Option Nat :=
  (gapScan HDWALLET_SCANAHEAD_COUNT view (fun items => ttAnyTransactionContainsOneOf self items) (fun _ _ acc => acc) rounds
    start 0 ()).map Prod.fst

def walletItems (root : Data) (i : Nat) : Option Dict := (scanAt c root i).map Prod.snd

def ttLastUsedAddress (self : BloomTracker) (hdWalletParam : Data) (rounds : Nat) : Option Int32 :=
  match datasMatchingDataIndex (ttAllHdWallets self) hdWalletParam with
  | none => some (-1)
  | some _ => (lastContained self.toTransactionTracker (walletItems c hdWalletParam) 0 rounds).map Int32.ofNat

/-- The hashes of the deposit script and the change script. -/
def vaultItems (km : KeyManager) (vaultIndex i : Nat) : Option Dict :=
  if i < 2 ^ 31 then do
    let depositScript ← kmVaultScriptDerivation c km vaultIndex (vaultPath false i)
    let changeScript ← kmVaultScriptDerivation c km vaultIndex (vaultPath true i)
    some (dictOfKeys [sha256 c.toCrypto (some depositScript), sha256 c.toCrypto (some changeScript)])
  else none

def ttLastUsedVaultAddress (km : KeyManager) (self : BloomTracker) (vaultIndex rounds : Nat) : Option Int32 :=
  (lastContained self.toTransactionTracker (vaultItems c km vaultIndex) 0 rounds).map Int32.ofNat

def ttUnusedAddresses (self : BloomTracker) (hdWalletParam : Data) (rounds : Nat) : Option Int32 :=
  match datasMatchingDataIndex (ttAllHdWallets self) hdWalletParam with
  | none => some (-1)
  | some index =>
    match (ttLookAheadCount self)[index]? with
    | none => some (-1)
    | some stored => do
      let lookAheadCount ← dataGetInt stored
      let start := lookAheadCount - transactionTrackerBloomaheadCount
      -- the loop is entered at a negative index, and aborts
      if start < 0 then none
      else
        let lastUsedAddress ← lastContained self.toTransactionTracker (walletItems c hdWalletParam) start.toInt.toNat rounds
        some (lookAheadCount - Int32.ofNat lastUsedAddress)

/-- The loop over the wallets. -/
def anyUnusedTooFew (self : BloomTracker) (rounds : Nat) : Datas → Option Bool
  | [] => some false
  | hdWalletData :: rest => do
    let unused ← ttUnusedAddresses c transactionTrackerBloomaheadCount self hdWalletData rounds
    if unused < Int32.ofNat HDWALLET_SCANAHEAD_COUNT then some true else anyUnusedTooFew self rounds rest

def datasEqual (datasA datasB : Datas) : Bool := datasA.map Data.toBytes == datasB.map Data.toBytes

def ttBloomFilterNeedsUpdate (km : KeyManager) (self : BloomTracker) (rounds : Nat) : Option Bool := do
  if self.bloomFilter.length = 0 then some true
  else
    let vaultCount ← dataGetInt self.vaultCount
    if Int32.ofNat (kmVaultNames km).length ≠ vaultCount then some true
    else if !datasEqual (ttAllHdWallets self) km.allHdWalletPubRoots then some true
    else anyUnusedTooFew c transactionTrackerBloomaheadCount self rounds (ttAllHdWallets self)

/-! ## The key set -/

/-- `for(int j = 0; j < count; j++)`, over what may fail. -/
def forInt {σ : Type} (count : Int32) (f : Nat → σ → Option σ) (s : σ) : Option σ :=
  (List.range count.toInt.toNat).foldlM (fun s j => f j s) s

/-- The keys of the derivation at a path. -/
def addKeysAt (wallet : Data) (path : Bytes) (set : Dict) : Option Dict := do
  let derived ← hdWallet c wallet path
  some (dictAddDict set (ttKeysAndKeyHashesForWallet c derived))

/-- The derivations of wallet `i` that are looked ahead. -/
def addWallet (self : BloomTracker) (set : Dict) (i : Nat) : Option Dict := do
  let stored ← (ttLookAheadCount self)[i]?
  let count ← dataGetInt stored
  let wallet ← (ttAllHdWallets self)[i]?
  forInt count (fun j set => addKeysAt c wallet (decimal j) set) set

/-- Derivation `j` of vault `i`. The members are the elements of `hdWallets`; what is read
    here as a list of wallets is the element at `i`. The test of this loop reads the list
    anew each time, so it compares pointers into different blocks unless the list is empty. -/
def addVaultDerivation (i : Nat) (masterHdWallet : Data) (hdWallets : Datas) (j : Nat) :
    Dict × ScriptCache → Option (Dict × ScriptCache) := fun (set, cache) => do
  let inner ← datasAt hdWallets i
  if datasDeserialize inner ≠ [] then none
  else
    let (deposit, cache) ← ttScriptAndHashFlexible c cache i j false masterHdWallet hdWallets
    let (change, cache) ← ttScriptAndHashFlexible c cache i j true masterHdWallet hdWallets
    some (dictAddDict (dictAddDict set deposit) change, cache)

def addVault (km : KeyManager) (self : BloomTracker) (state : Dict × ScriptCache) (i : Nat) : Option (Dict × ScriptCache) := do
  let masterHdWallet ← datasAt (kmVaultMasterHdWallets km) i
  let hdWallets ← datasAt (kmVaultHdWallets km) i
  let stored ← (ttVaultLookAheadCount self)[i]?
  let count ← dataGetInt stored
  forInt count (addVaultDerivation c i masterHdWallet (datasDeserialize hdWallets)) state

/-- The missing funding transactions, and the transactions with just one output. -/
def addTxids (self : BloomTracker) (set : Dict) : Dict :=
  let missing := ttMissingFundingTransactions (fun _ => ttInterestingTransaction self.keysAndKeyHashes) self.toTransactionTracker
  let set := missing.foldl (fun set data => dictAdd set data none) set
  self.allTransactions.foldl (fun set trans =>
    if trans.outputs.length = 1 then dictAdd set (transactionTxid c.toCrypto trans) none else set) set

/-- The set, and the cache the scripts were put in. -/
def buildKeysAndKeyHashes (km : KeyManager) (self : BloomTracker) : Option (Dict × ScriptCache) := do
  let set ← (List.range (ttAllHdWallets self).length).foldlM (addWallet c self) dictNew
  let vaultCount ← dataGetInt self.vaultCount
  let (set, cache) ← (List.range vaultCount.toInt.toNat).foldlM (addVault c km self) (set, self.scriptAndHashCache)
  some (addTxids c self set, cache)

def ttUpdateBloomFilter (km : KeyManager) (self : BloomTracker) (rounds : Nat) : Option BloomTracker := do
  let self := { self with
    allHdWallets := datasSerialize km.allHdWalletPubRoots
    vaultCount := dataInt (Int32.ofNat (kmVaultNames km).length)
    scriptAndHashCache := [] }
  let lookAheadArray ← (ttAllHdWallets self).mapM fun hdWalletData => do
    let last ← ttLastUsedAddress c self hdWalletData rounds
    some (dataInt (last + transactionTrackerBloomaheadCount))
  let self := { self with lookAheadCount := datasSerialize lookAheadArray }
  let vaultCount ← dataGetInt self.vaultCount
  let vaultLookAheadArray ← (List.range vaultCount.toInt.toNat).mapM fun i => do
    let last ← ttLastUsedVaultAddress c km self i rounds
    some (dataInt (last + transactionTrackerBloomaheadCount))
  let self := { self with vaultLookAheadCount := datasSerialize vaultLookAheadArray }
  let (set, cache) ← buildKeysAndKeyHashes c km self
  let bloom ← bloomFilterArray lib (set.elements.map fun item => some item.1)
  some { self with keysAndKeyHashes := set, scriptAndHashCache := cache, bloomFilter := bloom }

/-- `TTAddTransaction`: what is interesting is what contains one of the keys. -/
def bloomAddTransaction (self : BloomTracker) (data : Data) : Option BloomTracker :=
  (ttAddTransaction c.toCrypto (fun _ => ttInterestingTransaction self.keysAndKeyHashes) self.toTransactionTracker data).map
    fun next => { self with toTransactionTracker := next.1 }

end BitcoinSpoon
