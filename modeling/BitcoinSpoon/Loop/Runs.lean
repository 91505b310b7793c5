/-
  BitcoinSpoon.Loop.Runs — what holds at every moment of a run.

  A run is a row of events over a step function that may stop. `Along` asks a condition of
  every event at the state it meets. If one step keeps a property exactly when its event
  meets the condition, then a run keeps it at every moment exactly when all of its events
  do (`reached_iff_along`). Nothing here names a program.
-/

import Mathlib.Data.List.Basic

namespace BitcoinSpoon.Loop

variable {σ α : Type} (step : σ → α → Option σ)

/-- The state after the events, unless one of them stops the run. -/
def after (s : σ) (events : List α) : Option σ := events.foldlM step s

/-- Every event meets the condition where it is taken. -/
def Along (condition : σ → α → Prop) : σ → List α → Prop
  | _, [] => True
  | s, event :: events => condition s event ∧ ∀ next, step s event = some next → Along condition next events

/-- At every moment of the run. -/
def Throughout (good : σ → Prop) (s : σ) (events : List α) : Prop :=
  ∀ before, before <+: events → ∀ reached, after step s before = some reached → good reached

variable {step} {good inv : σ → Prop} {condition : σ → α → Prop}

theorem after_cons {s next : σ} {event : α} (h : step s event = some next) (events : List α) :
    after step s (event :: events) = after step next events := by
  rw [after, List.foldlM_cons, h]
  rfl

theorem after_append (s : σ) (before later : List α) :
    after step s (before ++ later) = (after step s before).bind fun reached => after step reached later :=
  List.foldlM_append

/-- An invariant of every step holds after the run. -/
theorem after_inv (hstep : ∀ s event next, inv s → step s event = some next → inv next) {s reached : σ} {events : List α}
    (hi : inv s) (h : after step s events = some reached) : inv reached := by
  induction events generalizing s with
  | nil =>
    cases h
    exact hi
  | cons event events ih =>
    obtain ⟨next, hnext, h⟩ := Option.bind_eq_some_iff.1 h
    exact ih (hstep s event next hi hnext) h

/-- A run that nothing stops. -/
theorem after_some (f : σ → α → σ) (s : σ) (events : List α) :
    after (fun s event => some (f s event)) s events = some (events.foldl f s) := by
  induction events generalizing s with
  | nil => rfl
  | cons event events ih => rw [after_cons rfl, ih, List.foldl_cons]

/-- The condition holds of an event where it is taken. -/
theorem along_at {s reached : σ} {before : List α} {event : α} {events : List α}
    (h : Along step condition s (before ++ event :: events)) (hreached : after step s before = some reached) :
    condition reached event := by
  induction before generalizing s with
  | nil =>
    cases hreached
    exact h.1
  | cons first before ih =>
    obtain ⟨next, hnext, hrest⟩ := Option.bind_eq_some_iff.1 hreached
    exact ih (h.2 next hnext) hrest

theorem along_cons {s next : σ} {event : α} {events : List α} (hevent : condition s event) (h : step s event = some next)
    (hrest : Along step condition next events) : Along step condition s (event :: events) := by
  refine ⟨hevent, fun other hother => ?_⟩
  cases h.symm.trans hother
  exact hrest

/-- What an invariant and a condition say of every event of a run. -/
theorem along_of_inv {meets : σ → α → Prop} (hmeets : ∀ s event, inv s → condition s event → meets s event)
    (hstep : ∀ s event next, inv s → step s event = some next → inv next) {s : σ} {events : List α} (hi : inv s)
    (h : Along step condition s events) : Along step meets s events := by
  induction events generalizing s with
  | nil => trivial
  | cons event events ih =>
    obtain ⟨hevent, hrest⟩ := h
    exact ⟨hmeets s event hi hevent, fun next hnext => ih (hstep s event next hi hnext) (hrest next hnext)⟩

/-- What an invariant says of every event. -/
theorem along_of_always (hmeets : ∀ s event, inv s → condition s event)
    (hstep : ∀ s event next, inv s → step s event = some next → inv next) {s : σ} (hi : inv s) (events : List α) :
    Along step condition s events := by
  induction events generalizing s with
  | nil => trivial
  | cons event events ih => exact ⟨hmeets s event hi, fun next hnext => ih (hstep s event next hi hnext)⟩

theorem throughout_cons {s : σ} {event : α} {events : List α} :
    Throughout step good s (event :: events) ↔
      good s ∧ ∀ next, step s event = some next → Throughout step good next events := by
  constructor
  · intro h
    refine ⟨h [] List.nil_prefix s rfl, fun next hnext before hb reached hreached => ?_⟩
    exact h (event :: before) ((List.prefix_cons_inj event).2 hb) reached (by rw [after_cons hnext, hreached])
  · rintro ⟨hs, h⟩ before hb reached hreached
    cases before with
    | nil =>
      cases hreached
      exact hs
    | cons first before =>
      obtain ⟨rfl, hrest⟩ := List.cons_prefix_cons.1 hb
      cases hnext : step s first with
      | none =>
        rw [after, List.foldlM_cons, hnext] at hreached
        cases hreached
      | some next =>
        rw [after_cons hnext] at hreached
        exact h next hnext before hrest reached hreached

theorem throughout_nil {s : σ} (h : good s) : Throughout step good s [] := by
  intro before hb reached hreached
  rw [List.prefix_nil.1 hb] at hreached
  cases hreached
  exact h

/-- An invariant that every step keeps whose event meets the condition. -/
theorem throughout_of_along (hgood : ∀ s, inv s → good s)
    (hstep : ∀ s event next, inv s → condition s event → step s event = some next → inv next) {s : σ} {events : List α} (hi : inv s)
    (h : Along step condition s events) : Throughout step good s events := by
  induction events generalizing s with
  | nil => exact throughout_nil (hgood s hi)
  | cons event events ih =>
    obtain ⟨hevent, hrest⟩ := h
    exact throughout_cons.2 ⟨hgood s hi, fun next hnext => ih (hstep s event next hi hevent hnext) (hrest next hnext)⟩

/-- From one step to a run: `good` states that are reached from `good` states have `inv`, and
    an event that stops the run meets the condition exactly if it may (`returns`). -/
theorem throughout_returns_iff_along {returns : σ → α → Prop}
    (hstep : ∀ s event next, inv s → good s → step s event = some next →
      returns s event ∧ (good next → inv next) ∧ (good next ↔ condition s event))
    (hstop : ∀ s event, inv s → good s → step s event = none → (returns s event ↔ condition s event)) {s : σ}
    {events : List α} (hi : inv s) (hg : good s) :
    Throughout step good s events ∧ Along step returns s events ↔ Along step condition s events := by
  induction events generalizing s with
  | nil => exact iff_of_true ⟨throughout_nil hg, trivial⟩ trivial
  | cons event events ih =>
    rw [throughout_cons, Along, Along]
    constructor
    · intro h
      obtain ⟨⟨-, h⟩, hreturns, hrest⟩ := h
      have hnow : ∀ next, step s event = some next → good next := fun next hnext =>
        h next hnext [] List.nil_prefix next rfl
      refine ⟨?_, fun next hnext => ?_⟩
      · cases hnext : step s event with
        | none => exact (hstop s event hi hg hnext).1 hreturns
        | some next => exact (hstep s event next hi hg hnext).2.2.1 (hnow next hnext)
      · have hgood := hnow next hnext
        exact (ih ((hstep s event next hi hg hnext).2.1 hgood) hgood).1 ⟨h next hnext, hrest next hnext⟩
    · intro h
      obtain ⟨hevent, h⟩ := h
      have hnow : ∀ next, step s event = some next → Throughout step good next events ∧ Along step returns next events := by
        intro next hnext
        obtain ⟨-, hinv, hiff⟩ := hstep s event next hi hg hnext
        have hgood := hiff.2 hevent
        exact (ih (hinv hgood) hgood).2 (h next hnext)
      refine ⟨⟨hg, fun next hnext => (hnow next hnext).1⟩, ?_, fun next hnext => (hnow next hnext).2⟩
      cases hnext : step s event with
      | none => exact (hstop s event hi hg hnext).2 hevent
      | some next => exact (hstep s event next hi hg hnext).1

/-- The same where every event may stop the run. -/
theorem throughout_iff_along
    (hstep : ∀ s event next, inv s → good s → step s event = some next →
      (good next → inv next) ∧ (good next ↔ condition s event))
    (hstop : ∀ s event, inv s → good s → step s event = none → condition s event) {s : σ} {events : List α} (hi : inv s)
    (hg : good s) : Throughout step good s events ↔ Along step condition s events := by
  have hreturns : Along step (fun _ _ => True) s events :=
    along_of_always (fun _ _ (_ : True) => trivial) (fun _ _ _ _ _ => trivial) trivial events
  rw [← throughout_returns_iff_along (fun s event next hi hg h => ⟨trivial, hstep s event next hi hg h⟩)
    (fun s event hi hg h => iff_of_true trivial (hstop s event hi hg h)) hi hg]
  exact ⟨fun h => ⟨h, hreturns⟩, And.left⟩

/-- The same where every step keeps `inv`. -/
theorem reached_iff_along
    (hstep : ∀ s event next, inv s → good s → step s event = some next → inv next ∧ (good next ↔ condition s event))
    (hstop : ∀ s event, step s event = none → condition s event) {s : σ} {events : List α} (hi : inv s) (hg : good s) :
    Throughout step good s events ↔ Along step condition s events := by
  refine throughout_iff_along (fun s event next hi hg hnext => ?_) (fun s event _ _ => hstop s event) hi hg
  obtain ⟨hinv, hiff⟩ := hstep s event next hi hg hnext
  exact ⟨fun _ => hinv, hiff⟩

end BitcoinSpoon.Loop
