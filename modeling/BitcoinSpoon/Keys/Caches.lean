/-
  BitcoinSpoon.Keys.Caches — the keys of the device and what is derived from them
  (`code/KeyManager.c`).

  A key is a file of its network; the one at index 0 is the master key. Three things are
  cached. The hashes of the keys are forgotten with every new key and every change of the
  network. The seed of the master key is forgotten with a change of the network, but not when
  another key is made the master. The master wallets of the vaults are kept by the hash of
  their key, for both networks, and never forgotten. So the hashes are always right, and the
  wallets are as long as the master key stays while its seed is cached and no key is used on
  both networks (`caches_follow`).

  `none` is a crash or `abort()`: where there is no key, its hash is read through NULL. No file
  has a negative number. Memory is not modelled: the entries of `vaultMasterHdWalletCache`
  belong to the frame of the caller that made them.
-/

import BitcoinSpoon.Hd.Curve
import BitcoinSpoon.Keys.Settings
import BitcoinSpoon.Loop.Runs

namespace BitcoinSpoon.Keys

open Wire Loop KeysAndValues Storage

/-- The key manager, and the files it reads. -/
structure KeyManager where
  testnet : Bool
  /-- Per network, the key files by index. -/
  files : Bool → List (Option Bytes)
  /-- The basic store, for the names of the keys. -/
  store : File
  mainSeed : Data
  privKeyHashCache : Datas
  vaultMasterHdWalletCache : Elements

variable (c : HdCrypto) (search : BinarySearch)

/-! ## Files -/

/-- The first 32 bytes; NULL if there are fewer. -/
def readKey : Option Bytes → Data
  | none => none
  | some bytes => if bytes.length < 32 then none else some (bytes.take 32)

def kmPrivKeyAtIndex (self : KeyManager) : Int → Data
  | .ofNat index => readKey ((self.files self.testnet)[index]?.getD none)
  | .negSucc _ => none

def setFile (files : List (Option Bytes)) (index : Nat) (bytes : Bytes) : List (Option Bytes) :=
  if index < files.length then files.set index (some bytes)
  else files ++ List.replicate (index - files.length) none ++ [some bytes]

def kmSetPrivKey (self : KeyManager) (data : Data) (index : Nat) : KeyManager :=
  { self with files := Function.update self.files self.testnet (setFile (self.files self.testnet) index data.toBytes) }

/-- The loop of `KMAllPrivKeyHashes`. -/
def hashesFrom : List (Option Bytes) → Datas
  | [] => []
  | file :: files =>
    let data := readKey file
    if data.length = 0 then [] else sha256 c.toCrypto data :: hashesFrom files

def kmAllPrivKeyHashes (self : KeyManager) : Datas × KeyManager :=
  if self.privKeyHashCache.length = 0 then
    let result := hashesFrom c (self.files self.testnet)
    (result, { self with privKeyHashCache := result })
  else (self.privKeyHashCache, self)

def kmSwapPrivKey (self : KeyManager) (indexA indexB : Nat) : Bool × KeyManager :=
  let keyA := kmPrivKeyAtIndex self indexA
  let keyB := kmPrivKeyAtIndex self indexB
  if keyA.length = 0 ∨ keyB.length = 0 then (false, self)
  else if indexA = indexB then (true, self)
  else (true, kmSetPrivKey (kmSetPrivKey self keyA indexB) keyB indexA)

def kmAddPrivKey (self : KeyManager) (privKey : Data) : Nat × KeyManager :=
  let (hashes, self) := kmAllPrivKeyHashes c self
  let index := hashes.length
  (index, kmSetPrivKey { self with privKeyHashCache := [] } privKey index)

def kmImportMasterPrivKey (self : KeyManager) (key : Data) : KeyManager :=
  let (index, self) := kmAddPrivKey c self key
  (kmSwapPrivKey self 0 index).2

/-- With what `getEntropy` and `getUniqueData` return. -/
def kmGenerateMasterPrivKey (self : KeyManager) (entropy uniqueData : Data) : KeyManager :=
  kmImportMasterPrivKey c self (hash256 c.toCrypto (dataAdd entropy uniqueData))

def kmSetTestnet (self : KeyManager) (testnet : Bool) : KeyManager :=
  { self with testnet := testnet, mainSeed := some [], privKeyHashCache := [] }

/-! ## Wallets -/

/-- `PBKDF2(toMnemonic(key).bytes, NULL)` -/
def seedOf (key : Data) : Option Data :=
  match toMnemonic c key with
  | some (some sentence) => some (PBKDF2 c sentence [])
  | _ => none

/-- The root of a network, from a seed. -/
def rootOf (testnet : Bool) (seed : Data) : Data :=
  let hash := hmacSha512 c seedPhrase seed.toBytes
  if testnet then hdWalletPrivTestNet c (some (dataCopyDataPart hash 0 32)) (some (dataCopyDataPart hash 32 32))
  else hdWalletPriv c (some (dataCopyDataPart hash 0 32)) (some (dataCopyDataPart hash 32 32))

/-- An `uint32_t` printed as an `int`. -/
def intString (index : UInt32) : Bytes :=
  if index.toNat < 2 ^ 31 then decimal index.toNat else 0x2d :: decimal (2 ^ 32 - index.toNat)

/-- `StringF("m/44'/%d'", index)` -/
def walletPath (index : UInt32) : Bytes := [0x6d, 0x2f, 0x34, 0x34, 0x27, 0x2f] ++ intString index ++ [0x27]

/-- "m/44'/0'/1'" -/
def vaultMasterPath : Bytes := [0x6d, 0x2f, 0x34, 0x34, 0x27, 0x2f, 0x30, 0x27, 0x2f, 0x31, 0x27]

/-- The seed is made when there is none. -/
def cacheSeed (self : KeyManager) : Option KeyManager :=
  if self.mainSeed.length = 0 then (seedOf c (kmPrivKeyAtIndex self 0)).map fun seed => { self with mainSeed := seed }
  else some self

def kmHdWalletIndex (self : KeyManager) (index : UInt32) : Option (Data × KeyManager) := do
  let name ← kmKeyName search self.store self.testnet index
  if name.length = 0 then some (none, self)
  else
    let self ← cacheSeed c self
    let wallet ← hdWallet c (rootOf c self.testnet self.mainSeed) (walletPath index)
    some (wallet, self)

def kmVaultMasterHdWalletAtIndex (self : KeyManager) (index : Int) : Option (Data × KeyManager) :=
  let cacheKey := sha256 c.toCrypto (kmPrivKeyAtIndex self index)
  let result := dictGet search self.vaultMasterHdWalletCache cacheKey
  if result.length = 0 then do
    let seed ← seedOf c (kmPrivKeyAtIndex self index)
    let result ← hdWallet c (rootOf c self.testnet seed) vaultMasterPath
    some (result, { self with vaultMasterHdWalletCache := dictAdd search self.vaultMasterHdWalletCache cacheKey result })
  else some (result, self)

/-! ## Without caches -/

/-- The hashes of the stored keys. -/
def storedHashes (self : KeyManager) : Datas :=
  (((self.files self.testnet).map readKey).takeWhile fun key => key.length ≠ 0).map (sha256 c.toCrypto)

/-- The wallet of the master key. -/
def masterWallet (self : KeyManager) (index : UInt32) : Option Data := do
  let name ← kmKeyName search self.store self.testnet index
  if name.length = 0 then some none
  else
    let seed ← seedOf c (kmPrivKeyAtIndex self 0)
    hdWallet c (rootOf c self.testnet seed) (walletPath index)

/-- The master wallet of the vaults of a key. -/
def vaultMaster (testnet : Bool) (key : Data) : Option Data := do
  let seed ← seedOf c key
  hdWallet c (rootOf c testnet seed) vaultMasterPath

theorem hashesFrom_eq (files : List (Option Bytes)) :
    hashesFrom c files = ((files.map readKey).takeWhile fun key => key.length ≠ 0).map (sha256 c.toCrypto) := by
  induction files with
  | nil => rfl
  | cons file files ih =>
    rw [hashesFrom, List.map_cons, List.takeWhile_cons]
    split
    · rename_i hzero
      rw [if_neg (by simpa using hzero)]
      rfl
    · rename_i hne
      rw [if_pos (by simpa using hne), List.map_cons, ih]

/-! ## Runs -/

inductive KeyEvent where
  | importMasterPrivKey (key : Data)
  | generateMasterPrivKey (entropy uniqueData : Data)
  | addPrivKey (privKey : Data)
  | setTestnet (testnet : Bool)
  | hdWalletIndex (index : UInt32)
  | allPrivKeyHashes
  | vaultMasterHdWalletAtIndex (index : Int)

/-- The key manager, the master key that the cached seed was made of, and the networks and
    keys that vaults were asked for. -/
structure KeyRun where
  self : KeyManager
  seedKey : Data
  asked : List (Bool × Data)

/-- Nothing is cached yet. -/
def KeyRun.start (testnet : Bool) (files : Bool → List (Option Bytes)) (store : File) : KeyRun :=
  ⟨⟨testnet, files, store, some [], [], []⟩, none, []⟩

def keyStep (s : KeyRun) : KeyEvent → Option KeyRun
  | .importMasterPrivKey key => some { s with self := kmImportMasterPrivKey c s.self key }
  | .generateMasterPrivKey entropy uniqueData => some { s with self := kmGenerateMasterPrivKey c s.self entropy uniqueData }
  | .addPrivKey privKey => some { s with self := (kmAddPrivKey c s.self privKey).2 }
  | .setTestnet testnet => some { s with self := kmSetTestnet s.self testnet }
  | .hdWalletIndex index => (kmHdWalletIndex c search s.self index).map fun result =>
      { s with
        self := result.2
        seedKey := if s.self.mainSeed.length = 0 then kmPrivKeyAtIndex s.self 0 else s.seedKey }
  | .allPrivKeyHashes => some { s with self := (kmAllPrivKeyHashes c s.self).2 }
  | .vaultMasterHdWalletAtIndex index => (kmVaultMasterHdWalletAtIndex c search s.self index).map fun result =>
      { s with self := result.2, asked := s.asked ++ [(s.self.testnet, kmPrivKeyAtIndex s.self index)] }

/-- A call returns what it would without caches. -/
def Uncached (s : KeyRun) : KeyEvent → Prop
  | .hdWalletIndex index => (kmHdWalletIndex c search s.self index).map Prod.fst = masterWallet c search s.self index
  | .allPrivKeyHashes => (kmAllPrivKeyHashes c s.self).1 = storedHashes c s.self
  | .vaultMasterHdWalletAtIndex index => (kmVaultMasterHdWalletAtIndex c search s.self index).map Prod.fst =
      vaultMaster c s.self.testnet (kmPrivKeyAtIndex s.self index)
  | _ => True

/-- A wallet of a named key is asked for while the master key is the one whose seed is
    cached, and a vault's on the network, and for the key, that its hash was asked for before. -/
def Undisturbed (s : KeyRun) : KeyEvent → Prop
  | .hdWalletIndex index => ∀ name, kmKeyName search s.self.store s.self.testnet index = some name → name.length ≠ 0 →
      s.self.mainSeed.length ≠ 0 → kmPrivKeyAtIndex s.self 0 = s.seedKey
  | .vaultMasterHdWalletAtIndex index => ∀ testnet key, (testnet, key) ∈ s.asked →
      (sha256 c.toCrypto key).toBytes = (sha256 c.toCrypto (kmPrivKeyAtIndex s.self index)).toBytes →
      testnet = s.self.testnet ∧ key = kmPrivKeyAtIndex s.self index
  | _ => True

/-- What the caches hold. -/
structure CachesOf (s : KeyRun) : Prop where
  seed : s.self.mainSeed.length ≠ 0 → seedOf c s.seedKey = some s.self.mainSeed
  hashes : s.self.privKeyHashCache = [] ∨ s.self.privKeyHashCache = storedHashes c s.self
  ascending : Ascending defaultOrder s.self.vaultMasterHdWalletCache
  vaults : ∀ key wallet, dictionaryGetValueFlexible search defaultOrder s.self.vaultMasterHdWalletCache key = some wallet →
    wallet.length ≠ 0 → ∃ asked ∈ s.asked, (sha256 c.toCrypto asked.2).toBytes = key ∧ vaultMaster c asked.1 asked.2 = some wallet

variable {c search} {s next : KeyRun}

/-! ## What the caches hold -/

theorem allPrivKeyHashes_eq (h : CachesOf c search s) : (kmAllPrivKeyHashes c s.self).1 = storedHashes c s.self := by
  rw [kmAllPrivKeyHashes]
  split
  · exact hashesFrom_eq c _
  · rename_i hfull
    rcases h.hashes with hempty | hright
    · rw [hempty] at hfull
      exact absurd rfl hfull
    · exact hright

theorem hdWalletIndex_eq (h : CachesOf c search s) {index : UInt32} (hkey : Undisturbed c search s (.hdWalletIndex index)) :
    (kmHdWalletIndex c search s.self index).map Prod.fst = masterWallet c search s.self index := by
  rw [kmHdWalletIndex, masterWallet]
  cases hname : kmKeyName search s.self.store s.self.testnet index with
  | none => rfl
  | some name =>
    simp only [Option.bind_eq_bind, Option.bind_some]
    by_cases hempty : name.length = 0
    · rw [if_pos hempty, if_pos hempty]
      rfl
    rw [if_neg hempty, if_neg hempty, cacheSeed]
    by_cases hseed : s.self.mainSeed.length = 0
    · rw [if_pos hseed]
      cases seedOf c (kmPrivKeyAtIndex s.self 0) with
      | none => rfl
      | some seed =>
        simp only [Option.map_some, Option.bind_some]
        cases hdWallet c (rootOf c s.self.testnet seed) (walletPath index) <;> rfl
    · rw [if_neg hseed, hkey name hname hempty hseed, h.seed hseed]
      simp only [Option.bind_some]
      cases hdWallet c (rootOf c s.self.testnet s.self.mainSeed) (walletPath index) <;> rfl

theorem vaultMaster_eq (h : CachesOf c search s) {index : Int} (hkey : Undisturbed c search s (.vaultMasterHdWalletAtIndex index)) :
    (kmVaultMasterHdWalletAtIndex c search s.self index).map Prod.fst =
      vaultMaster c s.self.testnet (kmPrivKeyAtIndex s.self index) := by
  rw [kmVaultMasterHdWalletAtIndex]
  split
  · rw [vaultMaster]
    cases seedOf c (kmPrivKeyAtIndex s.self index) with
    | none => rfl
    | some seed =>
      simp only [Option.bind_eq_bind, Option.bind_some]
      cases hdWallet c (rootOf c s.self.testnet seed) vaultMasterPath <;> rfl
  · rename_i hfound
    rw [dictGet, KeysAndValues.dictionaryGetValue] at hfound ⊢
    cases hget : dictionaryGetValueFlexible search defaultOrder s.self.vaultMasterHdWalletCache
        (sha256 c.toCrypto (kmPrivKeyAtIndex s.self index)).toBytes with
    | none =>
      rw [hget] at hfound
      exact absurd rfl hfound
    | some wallet =>
      rw [hget] at hfound
      obtain ⟨⟨testnet, key⟩, hasked, hhash, hwallet⟩ := h.vaults _ wallet hget hfound
      obtain ⟨rfl, rfl⟩ := hkey testnet key hasked hhash
      exact hwallet.symm

theorem cachesOf_start (testnet : Bool) (files : Bool → List (Option Bytes)) (store : File) :
    CachesOf c search (KeyRun.start testnet files store) where
  seed h := absurd rfl h
  hashes := Or.inl rfl
  ascending := ascending_nil
  vaults key wallet hget := by
    have hnone : dictionaryGetValueFlexible search defaultOrder [] key = none := rfl
    rw [KeyRun.start, hnone] at hget
    cases hget

/-! ## Steps -/

/-- A new key changes the files and forgets the hashes. -/
theorem addPrivKey_spec (self : KeyManager) (privKey : Data) :
    ∃ files, (kmAddPrivKey c self privKey).2 = { self with files := files, privKeyHashCache := [] } := by
  show ∃ files, kmSetPrivKey { (kmAllPrivKeyHashes c self).2 with privKeyHashCache := [] } privKey _ = _
  rw [kmAllPrivKeyHashes]
  split <;> exact ⟨_, rfl⟩

theorem swapPrivKey_spec (self : KeyManager) (indexA indexB : Nat) :
    ∃ files, (kmSwapPrivKey self indexA indexB).2 = { self with files := files } := by
  rw [kmSwapPrivKey]
  split
  · exact ⟨_, rfl⟩
  · split <;> exact ⟨_, rfl⟩

theorem importMasterPrivKey_spec (self : KeyManager) (key : Data) :
    ∃ files, kmImportMasterPrivKey c self key = { self with files := files, privKeyHashCache := [] } := by
  obtain ⟨added, hadded⟩ := @addPrivKey_spec c self key
  obtain ⟨files, hswapped⟩ := swapPrivKey_spec (kmAddPrivKey c self key).2 0 (kmAddPrivKey c self key).1
  refine ⟨files, hswapped.trans ?_⟩
  rw [hadded]

theorem cachesOf_files (h : CachesOf c search s) (files : Bool → List (Option Bytes)) :
    CachesOf c search { s with self := { s.self with files := files, privKeyHashCache := [] } } where
  seed := h.seed
  hashes := Or.inl rfl
  ascending := h.ascending
  vaults := h.vaults

theorem cachesOf_hdWalletIndex (h : CachesOf c search s) {index : UInt32} {result : Data × KeyManager}
    (hresult : kmHdWalletIndex c search s.self index = some result) :
    CachesOf c search { s with
      self := result.2
      seedKey := if s.self.mainSeed.length = 0 then kmPrivKeyAtIndex s.self 0 else s.seedKey } := by
  obtain ⟨name, -, hresult⟩ := Option.bind_eq_some_iff.1 hresult
  split at hresult
  · cases hresult
    refine ⟨fun hseed => ?_, h.hashes, h.ascending, h.vaults⟩
    rw [if_neg hseed]
    exact h.seed hseed
  · obtain ⟨self, hself, hresult⟩ := Option.bind_eq_some_iff.1 hresult
    obtain ⟨wallet, -, hresult⟩ := Option.bind_eq_some_iff.1 hresult
    cases hresult
    rw [cacheSeed] at hself
    split at hself
    · rename_i hempty
      obtain ⟨seed, hseed, rfl⟩ := Option.map_eq_some_iff.1 hself
      refine ⟨fun _ => ?_, h.hashes, h.ascending, h.vaults⟩
      rw [if_pos hempty]
      exact hseed
    · rename_i hfull
      cases hself
      refine ⟨fun hseed => ?_, h.hashes, h.ascending, h.vaults⟩
      rw [if_neg hfull]
      exact h.seed hseed

theorem cachesOf_vaultMaster (h : CachesOf c search s) {index : Int} {result : Data × KeyManager}
    (hresult : kmVaultMasterHdWalletAtIndex c search s.self index = some result) :
    CachesOf c search { s with
      self := result.2
      asked := s.asked ++ [(s.self.testnet, kmPrivKeyAtIndex s.self index)] } := by
  rw [kmVaultMasterHdWalletAtIndex] at hresult
  split at hresult
  · obtain ⟨seed, hseed, hresult⟩ := Option.bind_eq_some_iff.1 hresult
    obtain ⟨wallet, hwallet, hresult⟩ := Option.bind_eq_some_iff.1 hresult
    cases hresult
    refine ⟨h.seed, h.hashes, ascending_dictAdd h.ascending, fun key found hget hfound => ?_⟩
    rw [dictAdd, getValue_addCopy h.ascending] at hget
    split at hget
    · rename_i hkey
      cases hget
      refine ⟨_, List.mem_append_right _ List.mem_cons_self, hkey.symm, ?_⟩
      rw [vaultMaster, hseed]
      exact hwallet
    · obtain ⟨asked, hasked, hvault⟩ := h.vaults key found hget hfound
      exact ⟨asked, List.mem_append_left _ hasked, hvault⟩
  · cases hresult
    refine ⟨h.seed, h.hashes, h.ascending, fun key found hget hfound => ?_⟩
    obtain ⟨asked, hasked, hvault⟩ := h.vaults key found hget hfound
    exact ⟨asked, List.mem_append_left _ hasked, hvault⟩

/-- The caches hold that much after every call. -/
theorem cachesOf_step {event : KeyEvent} (h : CachesOf c search s) (hnext : keyStep c search s event = some next) :
    CachesOf c search next := by
  cases event with
  | importMasterPrivKey key =>
    cases hnext
    obtain ⟨files, hfiles⟩ := @importMasterPrivKey_spec c s.self key
    rw [hfiles]
    exact cachesOf_files h files
  | generateMasterPrivKey entropy uniqueData =>
    cases hnext
    obtain ⟨files, hfiles⟩ := @importMasterPrivKey_spec c s.self (hash256 c.toCrypto (dataAdd entropy uniqueData))
    rw [kmGenerateMasterPrivKey, hfiles]
    exact cachesOf_files h files
  | addPrivKey privKey =>
    cases hnext
    obtain ⟨files, hfiles⟩ := @addPrivKey_spec c s.self privKey
    rw [hfiles]
    exact cachesOf_files h files
  | setTestnet testnet =>
    cases hnext
    exact ⟨fun hseed => absurd rfl hseed, Or.inl rfl, h.ascending, h.vaults⟩
  | hdWalletIndex index =>
    obtain ⟨result, hresult, rfl⟩ := Option.map_eq_some_iff.1 hnext
    exact cachesOf_hdWalletIndex h hresult
  | allPrivKeyHashes =>
    cases hnext
    have heq := allPrivKeyHashes_eq h
    rw [kmAllPrivKeyHashes] at heq ⊢
    split
    · rename_i hempty
      rw [if_pos hempty] at heq
      exact ⟨h.seed, Or.inr heq, h.ascending, h.vaults⟩
    · exact h
  | vaultMasterHdWalletAtIndex index =>
    obtain ⟨result, hresult, rfl⟩ := Option.map_eq_some_iff.1 hnext
    exact cachesOf_vaultMaster h hresult

/-- In a run that does not disturb the caches every call returns what it would without. -/
theorem caches_follow (c : HdCrypto) (search : BinarySearch) (testnet : Bool) (files : Bool → List (Option Bytes)) (store : File)
    (events : List KeyEvent)
    (h : Along (keyStep c search) (Undisturbed c search) (KeyRun.start testnet files store) events) :
    Along (keyStep c search) (Uncached c search) (KeyRun.start testnet files store) events := by
  refine @along_of_inv _ _ (keyStep c search) (CachesOf c search) (Undisturbed c search) (Uncached c search)
    (fun s event hi hevent => ?_) (fun s event next hi hnext => cachesOf_step hi hnext) _ _ (cachesOf_start testnet files store) h
  cases event with
  | hdWalletIndex index => exact hdWalletIndex_eq hi hevent
  | allPrivKeyHashes => exact allPrivKeyHashes_eq hi
  | vaultMasterHdWalletAtIndex index => exact vaultMaster_eq hi hevent
  | _ => trivial

theorem caches_follow_vault :
    Along (keyStep logCrypto .halving) (Uncached logCrypto .halving) (KeyRun.start false (fun _ => []) none)
      [.importMasterPrivKey (scalarBytes 5), .vaultMasterHdWalletAtIndex 0, .allPrivKeyHashes, .setTestnet true] := by
  refine caches_follow logCrypto .halving false (fun _ => []) none _ ⟨trivial, fun next hnext => ?_⟩
  cases hnext
  refine ⟨fun testnet key hasked => (by cases hasked), fun _ _ => ⟨trivial, fun _ _ => ⟨trivial, fun _ _ => trivial⟩⟩⟩

/-- A store where key 0 has a name. -/
def namedStore : File := (kmSetKeyName .halving none false (some [65]) 0).getD none

/-- A second key is made the master after the seed of the first one was cached. -/
theorem not_caches_follow :
    ¬ Along (keyStep logCrypto .halving) (Uncached logCrypto .halving) (KeyRun.start false (fun _ => []) namedStore)
      [.importMasterPrivKey (scalarBytes 5), .hdWalletIndex 0, .importMasterPrivKey (scalarBytes 6), .hdWalletIndex 0] := by
  intro h
  have hwrong : (after (keyStep logCrypto .halving) (KeyRun.start false (fun _ => []) namedStore)
      [.importMasterPrivKey (scalarBytes 5), .hdWalletIndex 0, .importMasterPrivKey (scalarBytes 6)]).map (fun s =>
        decide ((kmHdWalletIndex logCrypto .halving s.self 0).map Prod.fst = masterWallet logCrypto .halving s.self 0)) =
      some false := by decide +kernel
  obtain ⟨reached, hreached, hfalse⟩ := Option.map_eq_some_iff.1 hwrong
  have hlast := @along_at _ _ (keyStep logCrypto .halving) _ _ reached
    [.importMasterPrivKey (scalarBytes 5), .hdWalletIndex 0, .importMasterPrivKey (scalarBytes 6)] (.hdWalletIndex 0) [] h hreached
  exact of_decide_eq_false hfalse hlast

end BitcoinSpoon.Keys
