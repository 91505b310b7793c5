/-
  BitcoinSpoon.Analyzer.Masks — the events `TAEvents` returns
  (`code/TransactionAnalyzer.c`).

  `allEvents` keeps a list of groups: an element is a `Datas`, a pointer to the events of
  one transaction and their count. `TAEvents` reads each element as a `TAEvent`: its type is
  what the address of the group has in its low 32 bits, and what is copied is no event. So
  no event is ever returned, from the cache or not (`taEvents_right_iff`).
-/

import BitcoinSpoon.Analyzer.Unspent
import BitcoinSpoon.Loop.Runs

namespace BitcoinSpoon

open Wire Loop

/-- What a `Data` in a list of the analyzer holds. -/
inductive Record where
  | event (event : TAEvent)
  | datas (events : List TAEvent)
  deriving DecidableEq

/-- The elements of the cache. -/
def records (groups : List (List TAEvent)) : List Record := groups.map Record.datas

/-- `event->type`. `address` is where the memory of the group lies; an empty one has none. -/
def typeOf (address : Nat) : Record → Nat
  | .event event => event.type
  | .datas [] => 0
  | .datas (_ :: _) => address % 2 ^ 32

variable (c : Crypto)

/-- The group at position `i` has its memory at `address i`. -/
def taEvents (address : Nat → Nat) (self : TransactionAnalyzer) (typeMask : Nat) :
    Option (List Record × TransactionAnalyzer) := do
  let (groups, self) ← allEvents c self
  let events := (records groups).zipIdx
  some ((events.filter fun (record, i) => typeOf (address i) record &&& typeMask ≠ 0).map Prod.fst, self)

/-- The events produced for the listed transactions, in order, whose type has a bit in the
    mask. -/
def eventsWith (groups : List (List TAEvent)) (typeMask : Nat) : List Record :=
  (groups.flatten.filter fun event => event.type &&& typeMask ≠ 0).map Record.event

/-- `TAEvents` returns these events, and once more when it is called again. -/
def ReturnsEvents (address : Nat → Nat) (self : TransactionAnalyzer) (typeMask : Nat) : Prop :=
  ∃ groups next again, eventsFrom c self 0 self.transactions = some groups ∧
    taEvents c address self typeMask = some (eventsWith groups typeMask, next) ∧
    taEvents c address next typeMask = some (eventsWith groups typeMask, again)

/-- No event has a bit in the mask, and no group lies at an address that has one. -/
def NothingWith (address : Nat → Nat) (self : TransactionAnalyzer) (typeMask : Nat) : Prop :=
  ∀ groups, eventsFrom c self 0 self.transactions = some groups →
    (∀ newEvents ∈ groups, ∀ event ∈ newEvents, event.type &&& typeMask = 0) ∧
      ∀ i newEvents, groups[i]? = some newEvents → newEvents ≠ [] → address i % 2 ^ 32 &&& typeMask = 0

/-! ## The cache -/

/-- The cache is empty or what the listed transactions give. -/
def CacheOk (self : TransactionAnalyzer) : Prop :=
  self.eventsCache = [] ∨ eventsFrom c self 0 self.transactions = some self.eventsCache

variable {c} {address : Nat → Nat} {self : TransactionAnalyzer} {typeMask : Nat}

/-- The events depend on the transactions and the keys only. -/
theorem eventsFrom_cache (self : TransactionAnalyzer) (cache : List (List TAEvent)) (position : Nat)
    (transactions : List Transaction) :
    eventsFrom c { self with eventsCache := cache } position transactions = eventsFrom c self position transactions := by
  have hcount : ∀ inputs, countSelfFunded c { self with eventsCache := cache } inputs = countSelfFunded c self inputs := by
    intro inputs
    induction inputs with
    | nil => rfl
    | cons input inputs ih =>
      rw [countSelfFunded, countSelfFunded, ih]
      rfl
  induction transactions generalizing position with
  | nil => rfl
  | cons transaction rest ih =>
    rw [eventsFrom, eventsFrom, ih, transactionEvents, transactionEvents, hcount]
    rfl

theorem allEvents_cacheOk (h : CacheOk c self) :
    allEvents c self = (eventsFrom c self 0 self.transactions).map fun groups =>
      (groups, { self with eventsCache := groups }) := by
  rw [allEvents]
  rcases h with h | h
  · rw [h]
    rfl
  · split
    · rw [h]
      rfl
    · rfl

/-- The elements that are picked. -/
def picked (address : Nat → Nat) (groups : List (List TAEvent)) (typeMask : Nat) : List Record :=
  ((records groups).zipIdx.filter fun (record, i) => typeOf (address i) record &&& typeMask ≠ 0).map Prod.fst

/-- The first call fills the cache with what every later one reads. -/
theorem taEvents_cacheOk (h : CacheOk c self) :
    taEvents c address self typeMask = (eventsFrom c self 0 self.transactions).map fun groups =>
      (picked address groups typeMask, { self with eventsCache := groups }) := by
  rw [taEvents, allEvents_cacheOk h]
  cases eventsFrom c self 0 self.transactions <;> rfl

theorem cacheOk_fill {groups : List (List TAEvent)} (h : eventsFrom c self 0 self.transactions = some groups) :
    CacheOk c { self with eventsCache := groups } := by
  right
  rw [eventsFrom_cache]
  exact h

theorem taEvents_keeps {next : TransactionAnalyzer} {result : List Record} (hcache : CacheOk c self)
    (h : taEvents c address self typeMask = some (result, next)) : CacheOk c next := by
  rw [taEvents_cacheOk hcache] at h
  obtain ⟨groups, hgroups, h⟩ := Option.map_eq_some_iff.1 h
  cases h
  exact cacheOk_fill hgroups

/-! ## What is picked -/

theorem eventsWith_eq_nil {groups : List (List TAEvent)} :
    eventsWith groups typeMask = [] ↔ ∀ newEvents ∈ groups, ∀ event ∈ newEvents, event.type &&& typeMask = 0 := by
  simp [eventsWith, List.filter_eq_nil_iff]

theorem picked_eq_nil {groups : List (List TAEvent)} :
    picked address groups typeMask = [] ↔
      ∀ i newEvents, groups[i]? = some newEvents → newEvents ≠ [] → address i % 2 ^ 32 &&& typeMask = 0 := by
  have htype : ∀ i newEvents, typeOf (address i) (.datas newEvents) &&& typeMask = 0 ↔
      (newEvents ≠ [] → address i % 2 ^ 32 &&& typeMask = 0) := by
    intro i newEvents
    cases newEvents <;> simp [typeOf]
  rw [picked, List.map_eq_nil_iff, List.filter_eq_nil_iff]
  constructor
  · intro h i newEvents hget
    have hmem : (Record.datas newEvents, i) ∈ (records groups).zipIdx := by
      rw [List.mk_mem_zipIdx_iff_getElem?, records, List.getElem?_map, hget, Option.map_some]
    exact (htype i newEvents).1 (by simpa using h _ hmem)
  · rintro h ⟨record, i⟩ hmem
    rw [List.mk_mem_zipIdx_iff_getElem?, records, List.getElem?_map] at hmem
    obtain ⟨newEvents, hget, rfl⟩ := Option.map_eq_some_iff.1 hmem
    simpa using (htype i newEvents).2 (h i newEvents hget)

/-- A group is no event. -/
theorem picked_eq_eventsWith {groups : List (List TAEvent)} :
    picked address groups typeMask = eventsWith groups typeMask ↔
      picked address groups typeMask = [] ∧ eventsWith groups typeMask = [] := by
  constructor
  · intro h
    have hnone : ∀ record ∈ eventsWith groups typeMask, False := by
      intro record hevent
      have hdatas := hevent
      rw [← h, picked] at hdatas
      obtain ⟨⟨record, i⟩, hmem, rfl⟩ := List.mem_map.1 hdatas
      obtain ⟨newEvents, -, hrecord⟩ := List.mem_map.1 (List.fst_mem_of_mem_zipIdx (List.mem_filter.1 hmem).1)
      obtain ⟨event, -, hevent⟩ := List.mem_map.1 hevent
      cases hevent.trans hrecord.symm
    have hnil := List.eq_nil_iff_forall_not_mem.2 hnone
    exact ⟨h.trans hnil, hnil⟩
  · rintro ⟨hpicked, hevents⟩
    rw [hpicked, hevents]

theorem returnsEvents_iff (hcache : CacheOk c self) :
    ReturnsEvents c address self typeMask ↔ Analyzable c self ∧ NothingWith c address self typeMask := by
  have hfinish : (∃ groups, eventsFrom c self 0 self.transactions = some groups) ↔ Analyzable c self := eventsFrom_isSome
  rw [ReturnsEvents, taEvents_cacheOk hcache, ← hfinish]
  constructor
  · rintro ⟨groups, next, again, hgroups, hfirst, -⟩
    rw [hgroups, Option.map_some, Option.some.injEq, Prod.mk.injEq] at hfirst
    obtain ⟨hpicked, hevents⟩ := picked_eq_eventsWith.1 hfirst.1
    refine ⟨⟨groups, hgroups⟩, fun other hother => ?_⟩
    obtain rfl := Option.some.inj (hgroups.symm.trans hother)
    exact ⟨eventsWith_eq_nil.1 hevents, picked_eq_nil.1 hpicked⟩
  · rintro ⟨⟨groups, hgroups⟩, hnothing⟩
    obtain ⟨hevents, haddress⟩ := hnothing groups hgroups
    have hsame := picked_eq_eventsWith.2 ⟨picked_eq_nil.2 haddress, eventsWith_eq_nil.2 hevents⟩
    refine ⟨groups, { self with eventsCache := groups }, { self with eventsCache := groups }, hgroups, ?_, ?_⟩
    · rw [hgroups, Option.map_some, hsame]
    · have hagain : eventsFrom c { self with eventsCache := groups } 0 self.transactions = some groups := by
        rw [eventsFrom_cache, hgroups]
      rw [taEvents_cacheOk (cacheOk_fill hgroups)]
      show (eventsFrom c { self with eventsCache := groups } 0 self.transactions).map _ = _
      rw [hagain, Option.map_some, hsame]

/-! ## Every state of an analyzer -/

/-- In every state a new analyzer comes to, `TAEvents` returns the events of the mask, and
    returns them again, exactly when there is none of them and no address looks like one. -/
theorem taEvents_right_iff {transactions : List Transaction} {keysAndHashes : Dict} {masks : List Nat}
    (hrun : after (fun self typeMask => (taEvents c address self typeMask).map Prod.snd) (newAnalyzer transactions keysAndHashes)
      masks = some self) :
    ReturnsEvents c address self typeMask ↔ Analyzable c self ∧ NothingWith c address self typeMask := by
  apply returnsEvents_iff
  have hnew : CacheOk c (newAnalyzer transactions keysAndHashes) := Or.inl rfl
  refine after_inv (fun s mask next hcache h => ?_) hnew hrun
  obtain ⟨⟨result, next⟩, htaEvents, rfl⟩ := Option.map_eq_some_iff.1 h
  exact taEvents_keeps hcache htaEvents

/-- The groups of a coin: one deposit that is unspent. -/
theorem eventsFrom_coin :
    eventsFrom plainCrypto (newAnalyzer [coinTransaction] walletKeys) 0 [coinTransaction] = some [[⟨9, 5, 0, 0⟩]] := by
  decide +kernel

/-- There is no fee to return. -/
theorem taEvents_right_fee :
    ReturnsEvents plainCrypto (fun _ => 4096) (newAnalyzer [coinTransaction] walletKeys) TAEventTypeFee := by
  have hrun : after (fun self typeMask => (taEvents plainCrypto (fun _ => 4096) self typeMask).map Prod.snd)
      (newAnalyzer [coinTransaction] walletKeys) [] = some (newAnalyzer [coinTransaction] walletKeys) := rfl
  refine (taEvents_right_iff hrun).2 ⟨eventsFrom_isSome.1 ⟨_, eventsFrom_coin⟩, fun groups hgroups => ?_⟩
  obtain rfl := Option.some.inj (eventsFrom_coin.symm.trans hgroups)
  have haddress : 4096 % 2 ^ 32 &&& TAEventTypeFee = 0 := by decide
  exact ⟨by decide, fun _ _ _ _ => haddress⟩

/-- The deposit is not returned. -/
theorem not_taEvents_right :
    ¬ ∀ (c : Crypto) (address : Nat → Nat) (transactions : List Transaction) (keysAndHashes : Dict) (typeMask : Nat)
      (self : TransactionAnalyzer), taNew transactions keysAndHashes = some self → ReturnsEvents c address self typeMask := by
  intro h
  have hnew : taNew [coinOrigin] walletKeys = some (newAnalyzer [coinTransaction] walletKeys) := by rfl
  obtain ⟨groups, next, again, hgroups, hfirst, -⟩ := h plainCrypto (fun _ => 4096) _ walletKeys TAEventTypeDeposit _ hnew
  obtain rfl := Option.some.inj (eventsFrom_coin.symm.trans hgroups)
  have hreturned : (taEvents plainCrypto (fun _ => 4096) (newAnalyzer [coinTransaction] walletKeys) TAEventTypeDeposit).map Prod.fst =
      some [] := by
    decide +kernel
  rw [hfirst] at hreturned
  cases hreturned

end BitcoinSpoon
