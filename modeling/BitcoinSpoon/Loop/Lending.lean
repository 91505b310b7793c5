/-
  BitcoinSpoon.Loop.Lending — computations that ask a table for values.

  An `Asking` asks for values by their keys and goes on with what it is told; it may also
  change a value it was given, which is the table's own memory. `trace` answers it from a
  function, `run` from a table that remembers. A table that lends each of its values only
  once (`Lending`) answers an orderly computation as the function does, and is left broken
  exactly when it had a value that was asked for or when one was changed (`run_trace`).
  Nothing here names a program.
-/

namespace BitcoinSpoon.Loop

inductive Asking (κ δ ρ : Type) where
  | result (r : ρ)
  | ask (key : κ) (next : δ → Asking κ δ ρ)
  /-- Changes the value it was given for the key. -/
  | change (key : κ) (next : Asking κ δ ρ)
  | stuck

structure Trace (κ ρ : Type) where
  result : ρ
  asked : List κ
  changed : List κ

variable {κ δ ρ τ : Type}

/-- Answered by a table. -/
def Asking.run (answer : τ → κ → Option (δ × τ)) (change : τ → κ → τ) : Asking κ δ ρ → τ → Option (ρ × τ)
  | .result r, table => some (r, table)
  | .ask key next, table => (answer table key).bind fun (value, table) => (next value).run answer change table
  | .change key next, table => next.run answer change (change table key)
  | .stuck, _ => none

/-- Answered by a function. -/
def Asking.trace (value : κ → Option δ) : Asking κ δ ρ → Option (Trace κ ρ)
  | .result r => some ⟨r, [], []⟩
  | .ask key next => (value key).bind fun v => ((next v).trace value).map fun t => { t with asked := key :: t.asked }
  | .change key next => (next.trace value).map fun t => { t with changed := key :: t.changed }
  | .stuck => none

/-- Asks for nothing twice, and changes only what it was given to keep. -/
def Asking.Orderly (kept : δ → Bool) : List κ → List κ → Asking κ δ ρ → Prop
  | _, _, .result _ => True
  | seen, held, .ask key next =>
    key ∉ seen ∧ ∀ value, (next value).Orderly kept (key :: seen) (if kept value then key :: held else held)
  | seen, held, .change key next => key ∈ held ∧ next.Orderly kept seen held
  | _, _, .stuck => True

/-- A table for `value` that can lend what it has once. -/
structure Lending (answer : τ → κ → Option (δ × τ)) (change : τ → κ → τ) (value : κ → Option δ) (kept : δ → Bool)
    (has sound : τ → κ → Prop) (broken : τ → Prop) : Prop where
  answers : ∀ {table key}, sound table key → (answer table key).map Prod.fst = value key
  fresh : ∀ {table key v next}, sound table key → ¬ has table key → answer table key = some (v, next) → sound next key
  again : ∀ {table key v next}, sound table key → has table key → answer table key = some (v, next) → broken next
  keeps : ∀ {table key v next}, sound table key → answer table key = some (v, next) → kept v = true → has next key
  others : ∀ {table key v next}, answer table key = some (v, next) → ∀ k, k ≠ key →
    (sound table k → sound next k) ∧ (has next k ↔ has table k)
  changes : ∀ {table key v}, has table key → value key = some v → broken (change table key)
  changesOthers : ∀ {table key} k, k ≠ key → sound table k → sound (change table key) k
  changesHas : ∀ {table key} k, has (change table key) k ↔ has table k
  answerBroken : ∀ {table key v next}, broken table → answer table key = some (v, next) → broken next
  changeBroken : ∀ {table key}, broken table → broken (change table key)

/-- The table has nothing it is asked for, and nothing is changed. -/
def Quiet (has : τ → κ → Prop) (table : τ) (trace : Trace κ ρ) : Prop :=
  trace.changed = [] ∧ ∀ key ∈ trace.asked, ¬ has table key

variable {answer : τ → κ → Option (δ × τ)} {change : τ → κ → τ} {value : κ → Option δ} {kept : δ → Bool}
  {has sound : τ → κ → Prop} {broken : τ → Prop}

/-- What is asked for has not been asked for before. -/
theorem Asking.Orderly.asked {a : Asking κ δ ρ} {seen held : List κ} {t : Trace κ ρ} (h : a.Orderly kept seen held)
    (ht : a.trace value = some t) : ∀ key ∈ t.asked, key ∉ seen := by
  induction a generalizing seen held t with
  | result r =>
    cases ht
    exact fun key hkey => absurd hkey List.not_mem_nil
  | ask key next ih =>
    obtain ⟨v, -, ht⟩ := Option.bind_eq_some_iff.1 ht
    obtain ⟨t', ht', rfl⟩ := Option.map_eq_some_iff.1 ht
    intro k hk
    rcases List.mem_cons.1 hk with rfl | hk
    · exact h.1
    · exact fun hseen => ih v (h.2 v) ht' k hk (List.mem_cons_of_mem _ hseen)
  | change key next ih =>
    obtain ⟨t', ht', rfl⟩ := Option.map_eq_some_iff.1 ht
    exact fun k hk => ih h.2 ht' k hk
  | stuck => cases ht

variable (L : Lending answer change value kept has sound broken)
include L

theorem Lending.run_broken {a : Asking κ δ ρ} {table next : τ} {r : ρ} (hb : broken table)
    (h : a.run answer change table = some (r, next)) : broken next := by
  induction a generalizing table with
  | result r =>
    cases h
    exact hb
  | ask key rest ih =>
    obtain ⟨⟨v, table'⟩, hanswer, h⟩ := Option.bind_eq_some_iff.1 h
    exact ih v (L.answerBroken hb hanswer) h
  | change key rest ih => exact ih (L.changeBroken hb) h
  | stuck => cases h

/-- The table answers as the function does; it stays sound if it was not asked for what it
    has, and else it is broken. -/
theorem Lending.run_trace {a : Asking κ δ ρ} {table : τ} {seen held : List κ} (horderly : a.Orderly kept seen held)
    (hheld : ∀ k ∈ held, k ∈ seen ∧ has table k ∧ ∃ v, value k = some v) (hsound : ∀ k, k ∉ seen → sound table k) :
    (a.trace value = none → a.run answer change table = none) ∧
      ∀ t, a.trace value = some t → ∃ next, a.run answer change table = some (t.result, next) ∧
        (Quiet has table t → (∀ k, sound table k) → ∀ k, sound next k) ∧ (¬ Quiet has table t → broken next) := by
  induction a generalizing table seen held with
  | result r =>
    refine ⟨fun h => (by cases h), fun t ht => ?_⟩
    cases ht
    exact ⟨table, rfl, fun _ h => h, fun h => absurd ⟨rfl, fun k hk => absurd hk List.not_mem_nil⟩ h⟩
  | stuck => exact ⟨fun _ => rfl, fun t ht => (by cases ht)⟩
  | change key rest ih =>
    obtain ⟨hkey, horderly⟩ := horderly
    obtain ⟨hseen, hhas, v, hvalue⟩ := hheld key hkey
    obtain ⟨hnone, hsome⟩ := @ih (change table key) seen held horderly
      (fun k hk => ⟨(hheld k hk).1, (L.changesHas k).2 (hheld k hk).2.1, (hheld k hk).2.2⟩)
      (fun k hk => L.changesOthers k (fun he => hk (he ▸ hseen)) (hsound k hk))
    refine ⟨fun h => hnone (Option.map_eq_none_iff.1 h), fun t ht => ?_⟩
    obtain ⟨t', ht', rfl⟩ := Option.map_eq_some_iff.1 ht
    obtain ⟨next, hrun, -, -⟩ := hsome t' ht'
    exact ⟨next, hrun, fun hquiet => absurd hquiet.1 (List.cons_ne_nil _ _),
      fun _ => L.run_broken (L.changes hhas hvalue) hrun⟩
  | ask key rest ih =>
    obtain ⟨hkey, horderly⟩ := horderly
    have hanswers := L.answers (hsound key hkey)
    cases hanswer : answer table key with
    | none =>
      rw [hanswer, Option.map_none] at hanswers
      refine ⟨fun _ => by rw [Asking.run, hanswer, Option.bind_none], fun t ht => ?_⟩
      rw [Asking.trace, ← hanswers, Option.bind_none] at ht
      cases ht
    | some answered =>
      obtain ⟨v, table'⟩ := answered
      rw [hanswer, Option.map_some] at hanswers
      have hothers := L.others hanswer
      obtain ⟨hnone, hsome⟩ := @ih v table' (key :: seen) (if kept v then key :: held else held) (horderly v)
        (by
          intro k hk
          have hold : ∀ k ∈ held, k ∈ key :: seen ∧ has table' k ∧ ∃ v, value k = some v := fun k hk => by
            obtain ⟨hs, hh, hv⟩ := hheld k hk
            exact ⟨List.mem_cons_of_mem _ hs, (hothers k fun he => hkey (he ▸ hs)).2.2 hh, hv⟩
          by_cases hkept : kept v = true
          · rw [if_pos hkept] at hk
            rcases List.mem_cons.1 hk with rfl | hk
            · exact ⟨List.mem_cons_self, L.keeps (hsound k hkey) hanswer hkept, v, hanswers.symm⟩
            · exact hold k hk
          · rw [if_neg hkept] at hk
            exact hold k hk)
        (fun k hk => (hothers k fun he => hk (he ▸ List.mem_cons_self)).1
          (hsound k fun hseen => hk (List.mem_cons_of_mem _ hseen)))
      refine ⟨fun h => ?_, fun t ht => ?_⟩
      · rw [Asking.trace, ← hanswers, Option.bind_some] at h
        rw [Asking.run, hanswer, Option.bind_some]
        exact hnone (Option.map_eq_none_iff.1 h)
      · rw [Asking.trace, ← hanswers, Option.bind_some] at ht
        obtain ⟨t', ht', rfl⟩ := Option.map_eq_some_iff.1 ht
        obtain ⟨next, hrun, hfine, hbroken⟩ := hsome t' ht'
        -- the other keys it asks for are in the table as they were
        have hlater : ∀ k ∈ t'.asked, (has table' k ↔ has table k) := fun k hk =>
          (hothers k fun he => (horderly v).asked ht' k hk (he ▸ List.mem_cons_self)).2
        refine ⟨next, by rw [Asking.run, hanswer, Option.bind_some]; exact hrun, ?_, ?_⟩
        · rintro ⟨hchanged, hasked⟩ hall
          refine hfine ⟨hchanged, fun k hk => ?_⟩ fun k => ?_
          · rw [hlater k hk]
            exact hasked k (List.mem_cons_of_mem _ hk)
          · by_cases he : k = key
            · rw [he]
              exact L.fresh (hsound key hkey) (hasked key List.mem_cons_self) hanswer
            · exact (hothers k he).1 (hall k)
        · intro hloud
          by_cases hhas : has table key
          · exact L.run_broken (L.again (hsound key hkey) hhas hanswer) hrun
          · refine hbroken fun hquiet => hloud ⟨hquiet.1, fun k hk => ?_⟩
            rcases List.mem_cons.1 hk with rfl | hk
            · exact hhas
            · rw [← hlater k hk]
              exact hquiet.2 k hk

end BitcoinSpoon.Loop
