/-
  BitcoinSpoon.Analyzer.Payment — choosing coins that pay an amount
  (`code/TransactionAnalyzer.c`).

  The search looks for one event that is enough and does not leave dust, then for one that
  is enough, then takes one at random and pays the rest from the others. The loop that
  looks is written `for(int j = events.count = 1; …)`: it looks at the events 1 and 0 only,
  whether they are there or not, and the list has one event from then on. `none` is an
  event that is not there or a NULL candidate read through.

  So a payment is found exactly when one of the first two events is enough, and the search
  gives an answer at all only then or for an empty list (`payment_found_iff`).
-/

import BitcoinSpoon.Analyzer.Balance
import BitcoinSpoon.Loop.GapScan
import Mathlib.Algebra.Order.BigOperators.Group.List
import Mathlib.Algebra.Order.Ring.Nat
import Mathlib.Data.List.Perm.Subperm

namespace BitcoinSpoon

open Wire Loop

def DUST_LIMIT : UInt64 := 10000

structure TAPaymentCandidate where
  valid : Bool
  events : List TAEvent
  amount : UInt64
  deriving DecidableEq, Repr

def taPaymentCandidateRemainder (self : TAPaymentCandidate) : UInt64 :=
  if self.events.length = 0 then 0 else taTotalAmount self.events - self.amount

/-- The position of the candidate, or NULL, and `extra`. -/
abbrev Choice := Option Nat × UInt64

/-- One round of the inner loop, `i` of the outer one. -/
def considerEvent (amount : UInt64) (events : List TAEvent) (i : Nat) (choice : Choice) (j : Nat) : Option Choice := do
  let event ← events[j]?
  some (if amount ≤ event.amount ∧ event.amount - amount < choice.2 ∧
      (i ≠ 0 ∨ DUST_LIMIT < event.amount - amount ∨ event.amount - amount = 0)
    then (some j, event.amount - amount) else choice)

/-- `for(int j = events.count = 1; j >= 0; j--)` -/
def considerEvents (amount : UInt64) (events : List TAEvent) (i : Nat) (choice : Choice) : Option Choice :=
  [1, 0].foldlM (considerEvent amount events i) choice

/-- `for(int i = 0; i < 2 && !candidate; i++)` -/
def chooseEvent (amount : UInt64) (events : List TAEvent) : Option Choice :=
  [0, 1].foldlM (fun choice i => if choice.1.isSome then some choice else considerEvents amount events i choice)
    (none, 0xffffffffffffffff)

/-- `random n` is `arc4random_uniform(n)`. -/
def taPaymentCandidateSearch (random : Nat → Nat) : Nat → UInt64 → List TAEvent → Option TAPaymentCandidate
  | 0, _, _ => none
  | rounds + 1, amount, events => do
    if amount = 0 ∨ events.length = 0 then some ⟨false, [], 0⟩
    else
      let (candidate, _) ← chooseEvent amount events
      let event ← candidate.bind (events[·]?)
      if amount ≤ event.amount then some ⟨true, [event], amount⟩
      else
        -- `events.count` is 1; the test for NULL comes after the candidate was read
        let left := events.take 1
        let position := candidate.getD (random left.length)
        let event ← events[position]?
        let result ← taPaymentCandidateSearch random rounds (amount - event.amount) (left.eraseIdx position)
        some { result with events := result.events ++ [event], amount := amount }

/-- What a caller expects of the result. -/
structure Pays (amount : UInt64) (events : List TAEvent) (result : TAPaymentCandidate) : Prop where
  enough : amount.toNat ≤ worth events → result.valid = true ∧ result.events.Subperm events ∧
    amount.toNat ≤ worth result.events ∧ result.amount = amount ∧
    (taPaymentCandidateRemainder result).toNat = worth result.events - amount.toNat
  short : worth events < amount.toNat → result.valid = false

/-- The search returns, having read only what is there, and the result pays. -/
def PaymentFound (random : Nat → Nat) (amount : UInt64) (events : List TAEvent) : Prop :=
  ∃ result, Returns (fun rounds => taPaymentCandidateSearch random rounds amount events) result ∧ Pays amount events result

variable {random : Nat → Nat} {amount : UInt64} {events : List TAEvent}

/-! ## The loops -/

/-- A candidate is one of the first two events and enough. -/
def Sound (amount : UInt64) (events : List TAEvent) (choice : Choice) : Prop :=
  ∀ j, choice.1 = some j → j ≤ 1 ∧ ∃ event, events[j]? = some event ∧ amount ≤ event.amount

theorem considerEvent_sound {i j : Nat} {choice next : Choice} (hj : j ≤ 1) (hs : Sound amount events choice)
    (h : considerEvent amount events i choice j = some next) : Sound amount events next := by
  obtain ⟨event, hevent, h⟩ := Option.bind_eq_some_iff.1 h
  rw [← Option.some.inj h]
  split
  · rename_i hall
    intro k hk
    cases hk
    exact ⟨hj, event, hevent, hall.1⟩
  · exact hs

theorem considerEvents_sound {i : Nat} {choice next : Choice} (hs : Sound amount events choice)
    (h : considerEvents amount events i choice = some next) : Sound amount events next := by
  refine foldlM_rule (fun _ choice => Sound amount events choice) h hs ?_
  intro pre j post hl t next ht hnext
  have hmem : j ∈ [1, 0] := by rw [hl]; simp
  exact considerEvent_sound (by simp at hmem; omega) ht hnext

theorem chooseEvent_sound {choice : Choice} (h : chooseEvent amount events = some choice) : Sound amount events choice := by
  refine foldlM_rule (fun _ choice => Sound amount events choice) h (fun j hj => by cases hj) ?_
  intro _ i _ _ t next ht hnext
  split at hnext
  · cases hnext
    exact ht
  · exact considerEvents_sound ht hnext

/-- Two events are looked at, so there have to be two. -/
theorem considerEvents_some {i : Nat} {choice : Choice} {first second : TAEvent} {rest : List TAEvent}
    (hevents : events = first :: second :: rest) : ∃ next, considerEvents amount events i choice = some next := by
  subst hevents
  exact ⟨_, rfl⟩

theorem considerEvents_short {i : Nat} {choice : Choice} (h : events.length < 2) :
    considerEvents amount events i choice = none := by
  have hnone : events[1]? = none := List.getElem?_eq_none (by omega)
  rw [considerEvents, List.foldlM_cons, considerEvent, hnone]
  rfl

/-- Nothing leaves more than nothing was chosen. -/
theorem extra_lt {event : TAEvent} (hamount : amount ≠ 0) (h : amount ≤ event.amount) :
    event.amount - amount < 0xffffffffffffffff := by
  have hpos : amount.toNat ≠ 0 := fun hzero => hamount (UInt64.toNat_inj.1 hzero)
  have hlt := event.amount.toNat_lt
  rw [UInt64.lt_iff_toNat_lt, UInt64.toNat_sub_of_le _ _ h]
  show event.amount.toNat - amount.toNat < 2 ^ 64 - 1
  omega

/-- The second time any of the two that is enough will do. -/
theorem considerEvents_again {first second : TAEvent} {rest : List TAEvent} {next : Choice} (hamount : amount ≠ 0)
    (h : considerEvents amount (first :: second :: rest) 1 (none, 0xffffffffffffffff) = some next)
    (henough : amount ≤ first.amount ∨ amount ≤ second.amount) : next.1.isSome = true := by
  simp only [considerEvents, List.foldlM_cons, List.foldlM_nil, considerEvent, List.getElem?_cons_succ,
    List.getElem?_cons_zero, Option.bind_eq_bind, Option.bind_some, Option.pure_def, Option.some.injEq] at h
  subst h
  by_cases hsecond : amount ≤ second.amount
  · have hlt := extra_lt hamount hsecond
    simp only [hsecond, hlt, ne_eq, one_ne_zero, not_false_eq_true, true_or, and_self, if_true]
    split <;> rfl
  · have hfirst := henough.resolve_right hsecond
    have hlt := extra_lt hamount hfirst
    simp [hsecond, hfirst, hlt]

theorem chooseEvent_short (h : events.length < 2) : chooseEvent amount events = none := by
  rw [chooseEvent, List.foldlM_cons]
  show (considerEvents amount events 0 _).bind _ = none
  rw [considerEvents_short h]
  rfl

/-- Nothing is chosen the first time: `extra` is what it was. -/
theorem considerEvents_none {i : Nat} {choice next : Choice} (h : considerEvents amount events i choice = some next)
    (hnone : next.1 = none) : next = choice := by
  have hkeep : ∀ {c d : Choice} {j : Nat}, considerEvent amount events i c j = some d → d.1 = none → d = c := by
    intro c d j hd hdn
    obtain ⟨event, -, hd⟩ := Option.bind_eq_some_iff.1 hd
    rw [← Option.some.inj hd] at hdn ⊢
    split at hdn
    · cases hdn
    · rw [if_neg ‹_›]
  rw [considerEvents, List.foldlM_cons] at h
  obtain ⟨mid, hmid, h⟩ := Option.bind_eq_some_iff.1 h
  rw [List.foldlM_cons] at h
  obtain ⟨last, hlast, h⟩ := Option.bind_eq_some_iff.1 h
  obtain rfl : last = next := Option.some.inj h
  have hmid' := hkeep hlast hnone
  subst hmid'
  exact hkeep hmid hnone

/-- Where there are two events, one is chosen exactly if one is enough. -/
theorem chooseEvent_two {first second : TAEvent} {rest : List TAEvent} (hamount : amount ≠ 0)
    (hevents : events = first :: second :: rest) : ∃ choice, chooseEvent amount events = some choice ∧
      (amount ≤ first.amount ∨ amount ≤ second.amount → choice.1.isSome = true) := by
  obtain ⟨once, honce⟩ := @considerEvents_some amount events 0 (none, 0xffffffffffffffff) first second rest hevents
  cases hsome : once.1 with
  | some j =>
    refine ⟨once, ?_, fun _ => by rw [hsome]; rfl⟩
    simp [chooseEvent, honce, hsome]
  | none =>
    obtain rfl := considerEvents_none honce hsome
    obtain ⟨twice, htwice⟩ := @considerEvents_some amount events 1 (none, 0xffffffffffffffff) first second rest hevents
    refine ⟨twice, ?_, fun henough => ?_⟩
    · simp [chooseEvent, honce, htwice]
    · rw [hevents] at htwice
      exact considerEvents_again hamount htwice henough

/-! ## The search -/

theorem worth_le_of_mem {event : TAEvent} (h : event ∈ events) : event.amount.toNat ≤ worth events := by
  rw [worth]
  exact List.single_le_sum (fun _ _ => Nat.zero_le _) _ (List.mem_map_of_mem h)

/-- One event that is enough pays. -/
theorem pays_one {event : TAEvent} (hmem : event ∈ events) (h : amount ≤ event.amount) :
    Pays amount events ⟨true, [event], amount⟩ where
  enough _ := by
    have hworth : worth [event] = event.amount.toNat := by simp [worth]
    have hle := UInt64.le_iff_toNat_le.1 h
    refine ⟨rfl, List.singleton_subperm_iff.2 hmem, by rw [hworth]; exact hle, rfl, ?_⟩
    rw [hworth]
    show (0 + event.amount - amount).toNat = _
    rw [UInt64.zero_add, UInt64.toNat_sub_of_le _ _ h]
  short hshort := by
    have hle := worth_le_of_mem hmem
    have hle' := UInt64.le_iff_toNat_le.1 h
    omega

/-- What the search does with a list that is not empty: it takes the candidate, if there is
    one, and it has none to read otherwise. -/
theorem search_eq (rounds : Nat) (hamount : amount ≠ 0) (hne : events ≠ []) :
    taPaymentCandidateSearch random (rounds + 1) amount events =
      ((chooseEvent amount events).bind fun choice => choice.1.bind (events[·]?)).map fun event => ⟨true, [event], amount⟩ := by
  have hlength : events.length ≠ 0 := fun h => hne (List.eq_nil_of_length_eq_zero h)
  rw [taPaymentCandidateSearch, if_neg (by simp [hamount, hlength])]
  cases hchoice : chooseEvent amount events with
  | none => rfl
  | some choice =>
    have hsound := chooseEvent_sound hchoice
    obtain ⟨candidate, extra⟩ := choice
    cases candidate with
    | none => rfl
    | some j =>
      obtain ⟨-, event, hevent, henough⟩ := hsound j rfl
      simp [hevent, henough]

/-- For an amount that is not 0, the search finds a payment exactly when there is no event at
    all, or there are two and one of the first two is enough. -/
theorem payment_found_iff (random : Nat → Nat) {amount : UInt64} (events : List TAEvent) (hamount : amount ≠ 0) :
    PaymentFound random amount events ↔
      events = [] ∨ ∃ first second rest, events = first :: second :: rest ∧ (amount ≤ first.amount ∨ amount ≤ second.amount) := by
  by_cases hne : events = []
  · refine iff_of_true ⟨⟨false, [], 0⟩, ⟨1, by simp [taPaymentCandidateSearch, hne]⟩, ?_, fun _ => rfl⟩ (Or.inl hne)
    intro hle
    have hpos : amount.toNat ≠ 0 := fun hzero => hamount (UInt64.toNat_inj.1 hzero)
    rw [hne] at hle
    simp [worth] at hle
    omega
  constructor
  · rintro ⟨result, ⟨rounds, hresult⟩, -⟩
    right
    cases rounds with
    | zero => cases hresult
    | succ rounds =>
      dsimp only at hresult
      rw [search_eq rounds hamount hne] at hresult
      obtain ⟨event, hevent, -⟩ := Option.map_eq_some_iff.1 hresult
      obtain ⟨choice, hchoice, hevent⟩ := Option.bind_eq_some_iff.1 hevent
      obtain ⟨j, hj, -⟩ := Option.bind_eq_some_iff.1 hevent
      obtain ⟨hle, event, hget, henough⟩ := chooseEvent_sound hchoice j hj
      have htwo : ¬ events.length < 2 := by
        intro hlt
        rw [chooseEvent_short hlt] at hchoice
        cases hchoice
      obtain ⟨first, second, rest, rfl⟩ : ∃ first second rest, events = first :: second :: rest := by
        obtain _ | ⟨first, _ | ⟨second, rest⟩⟩ := events
        · exact (hne rfl).elim
        · exact absurd (by simp) htwo
        · exact ⟨first, second, rest, rfl⟩
      refine ⟨first, second, rest, rfl, ?_⟩
      rcases Nat.le_one_iff_eq_zero_or_eq_one.1 hle with rfl | rfl
      · cases hget
        exact Or.inl henough
      · cases hget
        exact Or.inr henough
  · rintro (hnil | ⟨first, second, rest, hevents, henough⟩)
    · exact absurd hnil hne
    obtain ⟨choice, hchoice, hsome⟩ := chooseEvent_two hamount hevents
    obtain ⟨j, hj⟩ := Option.isSome_iff_exists.1 (hsome henough)
    obtain ⟨-, event, hget, hle⟩ := chooseEvent_sound hchoice j hj
    refine ⟨⟨true, [event], amount⟩, ⟨1, ?_⟩, pays_one (List.mem_of_getElem? hget) hle⟩
    show taPaymentCandidateSearch random (0 + 1) amount events = _
    rw [search_eq 0 hamount hne, hchoice, Option.bind_some, hj, Option.bind_some, hget]
    rfl

/-- An event of this amount. -/
def eventOf (amount : UInt64) : TAEvent := ⟨TAEventTypeDeposit ||| TAEventTypeUnspent, amount, 0, 0⟩

theorem payment_found_second : PaymentFound (fun _ => 0) 5 [eventOf 3, eventOf 7] :=
  (payment_found_iff (fun _ => 0) [eventOf 3, eventOf 7] (by decide)).2
    (Or.inr ⟨eventOf 3, eventOf 7, [], rfl, Or.inr (by decide)⟩)

/-- Two coins that are enough together, and neither alone. -/
theorem not_payment_found :
    ¬ ∀ (random : Nat → Nat) (amount : UInt64) (events : List TAEvent), amount ≠ 0 → worth events < 2 ^ 64 →
      PaymentFound random amount events := by
  intro h
  obtain ⟨result, ⟨rounds, hresult⟩, -⟩ := h (fun _ => 0) 5 [eventOf 3, eventOf 3] (by decide) (by decide)
  cases rounds with
  | zero => cases hresult
  | succ rounds =>
    dsimp only at hresult
    rw [search_eq rounds (by decide) (List.cons_ne_nil _ _)] at hresult
    have hnone : chooseEvent 5 [eventOf 3, eventOf 3] = some (none, 0xffffffffffffffff) := by decide +kernel
    rw [hnone] at hresult
    cases hresult

end BitcoinSpoon
