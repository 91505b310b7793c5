/-
  BitcoinSpoon.Tracker.Vaults — vaults and their scripts (`code/KeyManager.c`,
  `code/TransactionTracker.c`).

  The key manager keeps a row of vault objects. Its list of master wallets is not in that
  order: first come the masters found through the keys of the device, then those that
  observed vaults were given. `TTScriptAndHashFlexible` caches the dictionary of a script
  by the position of the vault. What is cached is memory that no frame tracks; to hand a
  dictionary out twice is to track it (`DataGetDict`), and it is freed with the frame, so
  a cached dictionary is `intact` only until then.
-/

import BitcoinSpoon.Tracker.Scan
import BitcoinSpoon.Util.Serialize

namespace BitcoinSpoon

open Wire Loop

/-- What `DictSerialize` writes for a vault; a vault of the device has no master in it. -/
structure VaultObject where
  name : Data
  hdWallets : Data
  masterHdWallet : Data
  deriving DecidableEq, Repr

structure KeyManager where
  allHdWalletPubRoots : Datas
  fits : Fits allHdWalletPubRoots
  vaultObjects : List VaultObject
  /-- `KMVaultMasterHdWalletAtIndex` at the smallest index of a key of the device that one of
      the members belongs to; NULL if there is none. -/
  ownMaster : Datas → Data

def kmVaultNames (km : KeyManager) : Datas := km.vaultObjects.map (·.name)

def kmVaultMasterHdWallets (km : KeyManager) : Datas :=
  ((km.vaultObjects.map fun info => km.ownMaster (datasDeserialize info.hdWallets)).filter fun data => data.length ≠ 0) ++
    ((km.vaultObjects.map (·.masterHdWallet)).filter fun data => data.length ≠ 0)

def kmVaultHdWallets (km : KeyManager) : Datas :=
  km.vaultObjects.map fun info => datasSerialize (datasDeserialize info.hdWallets)

def kmAddVaultObserver (km : KeyManager) (masterHdWallet : Data) (hdWallets : Datas) (name : Data) : KeyManager :=
  { km with vaultObjects := km.vaultObjects ++ [⟨name, datasSerialize hdWallets, masterHdWallet⟩] }

def kmAddVault (km : KeyManager) (hdWallets : Datas) (name : Data) : KeyManager :=
  { km with vaultObjects := km.vaultObjects ++ [⟨name, datasSerialize hdWallets, none⟩] }

/-- `index` is a `uint32_t`. -/
def kmRemoveVault (km : KeyManager) (index : Nat) : KeyManager :=
  { km with vaultObjects := if index < km.vaultObjects.length then km.vaultObjects.eraseIdx index else km.vaultObjects }

variable (c : HdCrypto)

/-- `StringF("%d/%d", isChange ? 1 : 0, derivation)` -/
def vaultPath (isChange : Bool) (derivation : Nat) : Bytes := (if isChange then [0x31] else [0x30]) ++ 0x2f :: decimal derivation

/-- The script of a master and its members at a path. -/
def vaultScriptAt (masterHdWallet : Data) (hdWallets : Datas) (path : Bytes) : Option Bytes := do
  let masterHdWallet ← hdWallet c masterHdWallet path
  let hdWallets ← hdWallets.mapM fun wallet => hdWallet c wallet path
  some (vaultScript (pubKeyFromHdWallet c masterHdWallet) (hdWallets.map (pubKeyFromHdWallet c)))

def kmVaultScriptDerivation (km : KeyManager) (index : Nat) (path : Bytes) : Option Bytes := do
  let masterHdWallet ← datasAt (kmVaultMasterHdWallets km) index
  let hdWallets ← datasAt (kmVaultHdWallets km) index
  vaultScriptAt c masterHdWallet (datasDeserialize hdWallets) path

/-! ## The cache -/

structure CachedScript where
  dict : Dict
  intact : Bool

/-- By the position of the vault, the derivation and whether it is change: three ints,
    which the source serializes. -/
abbrev ScriptKey := Nat × Nat × Bool

abbrev ScriptCache := List (ScriptKey × CachedScript)

def cacheFind (cache : ScriptCache) (key : ScriptKey) : Option CachedScript :=
  (cache.find? fun entry => entry.1 = key).map Prod.snd

/-- The entry is no longer intact. -/
def cacheSpoil (cache : ScriptCache) (key : ScriptKey) : ScriptCache :=
  cache.map fun entry => if entry.1 = key then (entry.1, { entry.2 with intact := false }) else entry

def dictNull : Dict := dictAdd dictNew none none

def scriptAndHash (script : Bytes) : Dict := dictAdd (dictAdd dictNew (some script) none) (sha256 c.toCrypto (some script)) (some script)

/-- The dictionary and the cache. `none` is also a second look at a cached dictionary, which
    aborts, or reads what has been freed. -/
def ttScriptAndHashFlexible (cache : ScriptCache) (vaultIndex derivation : Nat) (isChange : Bool) (masterHdWallet : Data)
    (hdWallets : Datas) : Option (Dict × ScriptCache) :=
  match cacheFind cache (vaultIndex, derivation, isChange) with
  | some cached =>
    if cached.intact then some (cached.dict, cacheSpoil cache (vaultIndex, derivation, isChange)) else none
  | none =>
    if masterHdWallet.length = 0 then some (dictNull, cache)
    else do
      let script ← vaultScriptAt c masterHdWallet hdWallets (vaultPath isChange derivation)
      let result := scriptAndHash c script
      some (result, ((vaultIndex, derivation, isChange), ⟨result, true⟩) :: cache)

def ttScriptAndHash (km : KeyManager) (cache : ScriptCache) (vaultIndex derivation : Nat) (isChange : Bool) :
    Option (Dict × ScriptCache) := do
  let masterHdWallet ← datasAt (kmVaultMasterHdWallets km) vaultIndex
  let hdWallets ← datasAt (kmVaultHdWallets km) vaultIndex
  ttScriptAndHashFlexible c cache vaultIndex derivation isChange masterHdWallet (datasDeserialize hdWallets)

end BitcoinSpoon
