/-
  BitcoinSpoon.Tracker.Scripts — what `TTScriptAndHash` answers
  (`code/TransactionTracker.c`).

  Without a cached dictionary it computes the one of the master and the members that the
  key manager lists at the position, and remembers it; without a master there is nothing to
  remember. A cached one it hands out once (`cache_lends`).
-/

import BitcoinSpoon.Loop.Lending
import BitcoinSpoon.Tracker.Vaults

namespace BitcoinSpoon

open Wire Loop

variable (c : HdCrypto)

def dictIsNull (dict : Dict) : Bool := decide (dict.elements = [([], none)])

/-- What the tracker answers, by the key of the cache. -/
def askTracker (km : KeyManager) (cache : ScriptCache) (key : ScriptKey) : Option (Dict × ScriptCache) :=
  ttScriptAndHash c km cache key.1 key.2.1 key.2.2

/-- What `TTScriptAndHash` computes without the cache. -/
def scriptValue (km : KeyManager) (key : ScriptKey) : Option Dict := (askTracker c km [] key).map Prod.fst

/-- The master and the members at a position. -/
def vaultLists (km : KeyManager) (vaultIndex : Nat) : Option (Data × Datas) := do
  let masterHdWallet ← datasAt (kmVaultMasterHdWallets km) vaultIndex
  let hdWallets ← datasAt (kmVaultHdWallets km) vaultIndex
  some (masterHdWallet, datasDeserialize hdWallets)

def Cached (cache : ScriptCache) (key : ScriptKey) : Prop := (cacheFind cache key).isSome

variable {c} {km : KeyManager} {cache next : ScriptCache} {key : ScriptKey} {dict : Dict}

/-! ## One question -/

theorem cacheFind_cons (key : ScriptKey) (cached : CachedScript) (cache : ScriptCache) (k : ScriptKey) :
    cacheFind ((key, cached) :: cache) k = if key = k then some cached else cacheFind cache k := by
  unfold cacheFind
  rw [List.find?_cons]
  by_cases h : key = k
  · rw [if_pos h, decide_eq_true h]
    rfl
  · rw [if_neg h, decide_eq_false h]

theorem cacheFind_spoil (cache : ScriptCache) (key k : ScriptKey) :
    cacheFind (cacheSpoil cache key) k =
      if k = key then (cacheFind cache k).map fun cached => { cached with intact := false } else cacheFind cache k := by
  induction cache with
  | nil =>
    split
    · rfl
    · rfl
  | cons entry cache ih =>
    obtain ⟨first, cached⟩ := entry
    have hcons : cacheSpoil ((first, cached) :: cache) key =
        (first, if first = key then { cached with intact := false } else cached) :: cacheSpoil cache key := by
      rw [cacheSpoil, List.map_cons]
      by_cases h : first = key
      · rw [if_pos h, if_pos h]
        rfl
      · rw [if_neg h, if_neg h]
        rfl
    rw [hcons, cacheFind_cons, cacheFind_cons, ih]
    by_cases hfirst : first = k
    · subst hfirst
      by_cases hkey : first = key
      · simp [hkey]
      · simp [hkey]
    · simp [hfirst]

theorem askTracker_eq (km : KeyManager) (cache : ScriptCache) (key : ScriptKey) :
    askTracker c km cache key = (vaultLists km key.1).bind fun lists =>
      ttScriptAndHashFlexible c cache key.1 key.2.1 key.2.2 lists.1 lists.2 := by
  unfold askTracker ttScriptAndHash vaultLists
  cases datasAt (kmVaultMasterHdWallets km) key.1 with
  | none => rfl
  | some master =>
    cases datasAt (kmVaultHdWallets km) key.1 with
    | none => rfl
    | some wallets => rfl

/-- What the tracker does without an entry: it computes and remembers, unless there is no
    master. -/
theorem flexible_miss {vaultIndex derivation : Nat} {isChange : Bool} {master : Data} {wallets : Datas}
    (h : cacheFind cache (vaultIndex, derivation, isChange) = none) :
    ttScriptAndHashFlexible c cache vaultIndex derivation isChange master wallets =
      ((ttScriptAndHashFlexible c [] vaultIndex derivation isChange master wallets).map Prod.fst).map fun dict =>
        (dict, if master.length = 0 then cache else ((vaultIndex, derivation, isChange), ⟨dict, true⟩) :: cache) := by
  unfold ttScriptAndHashFlexible
  rw [h]
  show _ = Option.map _ (Option.map Prod.fst (if master.length = 0 then some (dictNull, []) else _))
  by_cases hmaster : master.length = 0
  · simp [hmaster]
  · simp only [hmaster, if_false]
    cases vaultScriptAt c master wallets (vaultPath isChange derivation) with
    | none => rfl
    | some script => rfl

theorem flexible_hit {vaultIndex derivation : Nat} {isChange : Bool} {master : Data} {wallets : Datas} {cached : CachedScript}
    (h : cacheFind cache (vaultIndex, derivation, isChange) = some cached) :
    ttScriptAndHashFlexible c cache vaultIndex derivation isChange master wallets =
      if cached.intact then some (cached.dict, cacheSpoil cache (vaultIndex, derivation, isChange)) else none := by
  unfold ttScriptAndHashFlexible
  rw [h]

/-- With no master there is no script. -/
theorem flexible_no_master {vaultIndex derivation : Nat} {isChange : Bool} {master : Data} {wallets : Datas}
    (h : master.length = 0) : ttScriptAndHashFlexible c [] vaultIndex derivation isChange master wallets = some (dictNull, []) := by
  unfold ttScriptAndHashFlexible
  show (if master.length = 0 then some (dictNull, []) else _) = _
  rw [if_pos h]

/-- An answer is an intact entry, which it spoils, or it is computed and remembered. -/
theorem askTracker_cases (h : askTracker c km cache key = some (dict, next)) :
    (∃ cached, cacheFind cache key = some cached ∧ cached.intact = true ∧ dict = cached.dict ∧ next = cacheSpoil cache key ∧
        (vaultLists km key.1).isSome) ∨
      (cacheFind cache key = none ∧ scriptValue c km key = some dict ∧
        (next = cache ∧ dict = dictNull ∨ next = (key, ⟨dict, true⟩) :: cache)) := by
  rw [askTracker_eq] at h
  obtain ⟨⟨master, wallets⟩, hlists, h⟩ := Option.bind_eq_some_iff.1 h
  cases hfind : cacheFind cache key with
  | some cached =>
    left
    rw [flexible_hit hfind] at h
    split at h
    · rename_i hintact
      cases h
      exact ⟨cached, rfl, hintact, rfl, rfl, by rw [hlists]; rfl⟩
    · cases h
  | none =>
    right
    rw [flexible_miss hfind] at h
    obtain ⟨dict', hdict, heq⟩ := Option.map_eq_some_iff.1 h
    obtain ⟨rfl, rfl⟩ := Prod.mk.inj heq
    refine ⟨rfl, ?_, ?_⟩
    · rw [scriptValue, askTracker_eq, hlists]
      exact hdict
    · by_cases hmaster : master.length = 0
      · rw [if_pos hmaster]
        rw [flexible_no_master hmaster] at hdict
        exact Or.inl ⟨rfl, (Option.some.inj hdict).symm⟩
      · rw [if_neg hmaster]
        exact Or.inr rfl

/-- What is cached for the key is intact, and it is the script. -/
def SoundAt (c : HdCrypto) (km : KeyManager) (cache : ScriptCache) (key : ScriptKey) : Prop :=
  ∀ cached, cacheFind cache key = some cached →
    cached.intact = true ∧ ((vaultLists km key.1).isSome → scriptValue c km key = some cached.dict)

/-- A script has been lent twice, or changed. -/
def Broken (c : HdCrypto) (km : KeyManager) (cache : ScriptCache) : Prop :=
  ∃ key cached, cacheFind cache key = some cached ∧ cached.intact = false ∧ ∃ dict, scriptValue c km key = some dict

theorem scriptValue_lists (h : scriptValue c km key = some dict) : (vaultLists km key.1).isSome := by
  rw [scriptValue, askTracker_eq] at h
  obtain ⟨_, hask, -⟩ := Option.map_eq_some_iff.1 h
  obtain ⟨lists, hlists, -⟩ := Option.bind_eq_some_iff.1 hask
  rw [hlists]
  rfl

/-- A sound entry answers as if it were not there. -/
theorem SoundAt.answers (h : SoundAt c km cache key) : (askTracker c km cache key).map Prod.fst = scriptValue c km key := by
  rw [scriptValue, askTracker_eq, askTracker_eq]
  cases hlists : vaultLists km key.1 with
  | none => rfl
  | some lists =>
    rw [Option.bind_some, Option.bind_some]
    cases hfind : cacheFind cache key with
    | none =>
      rw [flexible_miss hfind, Option.map_map]
      exact Option.map_id'
    | some cached =>
      obtain ⟨hintact, hdict⟩ := h cached hfind
      have hvalue := hdict (by rw [hlists]; rfl)
      rw [scriptValue, askTracker_eq, hlists, Option.bind_some] at hvalue
      rw [flexible_hit hfind, if_pos hintact, hvalue]
      rfl

/-- The cache lends each script once. -/
theorem cache_lends (km : KeyManager) :
    Lending (askTracker c km) cacheSpoil (scriptValue c km) (fun dict => !dictIsNull dict) Cached (SoundAt c km) (Broken c km) where
  answers h := h.answers
  fresh := by
    intro cache key dict next _ hmiss hanswer
    rcases askTracker_cases hanswer with ⟨cached, hfind, -⟩ | ⟨hfind, hvalue, hnext⟩
    · exact absurd (by rw [Cached, hfind]; rfl) hmiss
    · intro cached hcached
      rcases hnext with ⟨rfl, -⟩ | rfl
      · rw [hfind] at hcached
        cases hcached
      · rw [cacheFind_cons, if_pos rfl] at hcached
        cases hcached
        exact ⟨rfl, fun _ => hvalue⟩
  again := by
    intro cache key dict next hsound hhas hanswer
    rcases askTracker_cases hanswer with ⟨cached, hfind, -, rfl, rfl, hlists⟩ | ⟨hfind, -⟩
    · refine ⟨key, { cached with intact := false }, ?_, rfl, cached.dict, (hsound cached hfind).2 hlists⟩
      rw [cacheFind_spoil, if_pos rfl, hfind]
      rfl
    · rw [Cached, hfind] at hhas
      cases hhas
  keeps := by
    intro cache key dict next _ hanswer hkept
    rcases askTracker_cases hanswer with ⟨cached, hfind, -, -, rfl, -⟩ | ⟨hfind, -, hnext⟩
    · rw [Cached, cacheFind_spoil, if_pos rfl, hfind]
      rfl
    · rcases hnext with ⟨-, rfl⟩ | rfl
      · exact absurd hkept (by decide)
      · rw [Cached, cacheFind_cons, if_pos rfl]
        rfl
  others := by
    intro cache key dict next hanswer k hk
    have hsame : cacheFind next k = cacheFind cache k := by
      rcases askTracker_cases hanswer with ⟨cached, -, -, -, rfl, -⟩ | ⟨-, -, ⟨rfl, -⟩ | rfl⟩
      · rw [cacheFind_spoil, if_neg hk]
      · rfl
      · rw [cacheFind_cons, if_neg (Ne.symm hk)]
    rw [SoundAt, SoundAt, Cached, Cached, hsame]
    exact ⟨fun h => h, Iff.rfl⟩
  changes := by
    intro cache key dict hhas hvalue
    obtain ⟨cached, hfind⟩ := Option.isSome_iff_exists.1 hhas
    refine ⟨key, { cached with intact := false }, ?_, rfl, dict, hvalue⟩
    rw [cacheFind_spoil, if_pos rfl, hfind]
    rfl
  changesOthers := by
    intro cache key k hk hsound
    rw [SoundAt, cacheFind_spoil, if_neg hk]
    exact hsound
  changesHas := by
    intro cache key k
    rw [Cached, Cached, cacheFind_spoil]
    split
    · rw [Option.isSome_map]
    · exact Iff.rfl
  answerBroken := by
    rintro cache key dict next ⟨k, cached, hfind, hspoilt, hvalue⟩ hanswer
    rcases askTracker_cases hanswer with ⟨cached', hfind', hintact, -, rfl, -⟩ | ⟨hnone, -, hnext⟩
    · refine ⟨k, cached, ?_, hspoilt, hvalue⟩
      rw [cacheFind_spoil, if_neg, hfind]
      rintro rfl
      rw [hfind] at hfind'
      cases hfind'
      rw [hspoilt] at hintact
      cases hintact
    · refine ⟨k, cached, ?_, hspoilt, hvalue⟩
      rcases hnext with ⟨rfl, -⟩ | rfl
      · exact hfind
      · rw [cacheFind_cons, if_neg, hfind]
        rintro rfl
        rw [hfind] at hnone
        cases hnone
  changeBroken := by
    rintro cache key ⟨k, cached, hfind, hspoilt, hvalue⟩
    refine ⟨k, { cached with intact := false }, ?_, rfl, hvalue⟩
    rw [cacheFind_spoil, hfind]
    split
    · rfl
    · rw [← hspoilt]

/-! ## The script of the vault -/

theorem vaultScriptDerivation_eq (km : KeyManager) (vaultIndex : Nat) (path : Bytes) :
    kmVaultScriptDerivation c km vaultIndex path =
      (vaultLists km vaultIndex).bind fun lists => vaultScriptAt c lists.1 lists.2 path := by
  unfold kmVaultScriptDerivation vaultLists
  cases datasAt (kmVaultMasterHdWallets km) vaultIndex with
  | none => rfl
  | some master =>
    cases datasAt (kmVaultHdWallets km) vaultIndex with
    | none => rfl
    | some wallets => rfl

/-- With a master it is the script that the key manager derives, and its hash. -/
theorem scriptValue_eq {vaultIndex derivation : Nat} {isChange : Bool} {master : Data} {members : Datas}
    (hlists : vaultLists km vaultIndex = some (master, members)) (hmaster : master.length ≠ 0) :
    scriptValue c km (vaultIndex, derivation, isChange) =
      (kmVaultScriptDerivation c km vaultIndex (vaultPath isChange derivation)).map (scriptAndHash c) := by
  rw [scriptValue, askTracker_eq, vaultScriptDerivation_eq, hlists, Option.bind_some, Option.bind_some]
  unfold ttScriptAndHashFlexible
  show Option.map _ (if master.length = 0 then some (dictNull, []) else _) = _
  rw [if_neg hmaster]
  cases vaultScriptAt c master members (vaultPath isChange derivation) with
  | none => rfl
  | some script => rfl

/-- Its own master, found through the keys of the device, or else the one it was given. -/
def vaultMaster (km : KeyManager) (info : VaultObject) : Data :=
  let data := km.ownMaster (datasDeserialize info.hdWallets)
  if data.length ≠ 0 then data else info.masterHdWallet

theorem map_filled_datasDeserialize (data : Data) : (datasDeserialize data).map filled = datasDeserialize data := by
  conv_rhs => rw [← List.map_id (datasDeserialize data)]
  refine List.map_congr_left fun w hw => ?_
  obtain ⟨bytes, rfl, -⟩ := mem_datasDeserialize hw
  rfl

/-- Where the list of masters has the master of the vault in its place, the script is made of
    the vault's own master and members. -/
theorem scriptValue_vault {vaultIndex derivation : Nat} {isChange : Bool} {info : VaultObject}
    (hinfo : km.vaultObjects[vaultIndex]? = some info)
    (hplace : datasAt (kmVaultMasterHdWallets km) vaultIndex = some (vaultMaster km info)) (hmaster : (vaultMaster km info).length ≠ 0) :
    scriptValue c km (vaultIndex, derivation, isChange) =
      (vaultScriptAt c (vaultMaster km info) (datasDeserialize info.hdWallets) (vaultPath isChange derivation)).map (scriptAndHash c) := by
  have hlength : (kmVaultHdWallets km).length ≠ 0 := by
    rw [kmVaultHdWallets, List.length_map]
    exact Nat.ne_of_gt (Nat.lt_of_le_of_lt (Nat.zero_le _) (List.getElem?_eq_some_iff.1 hinfo).1)
  have hwallets : datasAt (kmVaultHdWallets km) vaultIndex = some (datasSerialize (datasDeserialize info.hdWallets)) := by
    rw [datasAt, if_neg hlength, kmVaultHdWallets, List.getElem?_map, hinfo]
    rfl
  have hlists : vaultLists km vaultIndex = some (vaultMaster km info, datasDeserialize info.hdWallets) := by
    rw [vaultLists, hplace, hwallets]
    show some (_, _) = _
    rw [datasDeserialize_serialize (fits_datasDeserialize _), map_filled_datasDeserialize]
  rw [scriptValue_eq hlists hmaster, vaultScriptDerivation_eq, hlists, Option.bind_some]

/-! ## Asking for each script once -/

/-- What is cached is intact, is the script, and comes before. -/
def Filled (c : HdCrypto) (km : KeyManager) (before : ScriptKey → Prop) (cache : ScriptCache) : Prop :=
  ∀ key cached, cacheFind cache key = some cached → before key ∧ cached.intact = true ∧ scriptValue c km key = some cached.dict

variable {before after : ScriptKey → Prop}

theorem Filled.mono (h : Filled c km before cache) (hafter : ∀ k, before k → after k) : Filled c km after cache :=
  fun k cached hfind => ⟨hafter k (h k cached hfind).1, (h k cached hfind).2⟩

theorem Filled.soundAt (h : Filled c km before cache) (key : ScriptKey) : SoundAt c km cache key :=
  fun cached hfind => ⟨(h key cached hfind).2.1, fun _ => (h key cached hfind).2.2⟩

theorem Filled.ask (h : Filled c km before cache) (hnew : ¬ before key) (hafter : ∀ k, before k ∨ k = key → after k)
    (hask : askTracker c km cache key = some (dict, next)) : scriptValue c km key = some dict ∧ Filled c km after next := by
  rcases askTracker_cases hask with ⟨cached, hfind, -⟩ | ⟨-, hvalue, hnext⟩
  · exact absurd (h key cached hfind).1 hnew
  · refine ⟨hvalue, fun k cached hfind => ?_⟩
    have hold : cacheFind cache k = some cached → after k ∧ cached.intact = true ∧ scriptValue c km k = some cached.dict :=
      fun hfind => ⟨hafter k (Or.inl (h k cached hfind).1), (h k cached hfind).2⟩
    rcases hnext with ⟨rfl, -⟩ | rfl
    · exact hold hfind
    · rw [cacheFind_cons] at hfind
      split at hfind
      · rename_i hkey
        cases hfind
        exact ⟨hafter k (Or.inr hkey.symm), rfl, by rw [← hkey]; exact hvalue⟩
      · exact hold hfind

end BitcoinSpoon
