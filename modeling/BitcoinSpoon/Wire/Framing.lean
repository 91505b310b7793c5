/-
  BitcoinSpoon.Wire.Framing — cutting a stream into frames while it arrives.

  A `Framer` takes one step on a buffer: it drops something from the front and may hand
  out a frame, or it waits. What it does on a buffer it does on every longer one, so the
  steps do not depend on how the stream was cut: `Steps` is deterministic, and two
  readers that have both come to wait have handed out the same frames
  (`Steps.eq_of_waits`). `taken` is a reader that stops after a number of steps. `Whole` is
  a row of frames with nothing cut off: as no frame begins another, what follows a row in a
  row is a row again (`Whole.cancel`). Nothing here names a program.
-/

import Mathlib.Data.List.Basic

namespace BitcoinSpoon.Wire

variable {β φ : Type}

structure Framer (β φ : Type) where
  /-- What is handed out, and what is left. -/
  step : List β → Option (Option φ × List β)
  step_append : ∀ {buffer more rest frame}, step buffer = some (frame, rest) →
    step (buffer ++ more) = some (frame, rest ++ more)
  step_shorter : ∀ {buffer rest frame}, step buffer = some (frame, rest) → rest.length < buffer.length
  step_suffix : ∀ {buffer rest frame}, step buffer = some (frame, rest) → rest <:+ buffer

namespace Framer

variable (F : Framer β φ)

/-- There is no step to take. -/
def Waits (buffer : List β) : Prop := F.step buffer = none

/-- The frames handed out on the way from one buffer to another. -/
inductive Steps : List β → List φ → List β → Prop
  | refl (buffer : List β) : Steps buffer [] buffer
  | step {buffer rest last : List β} {frame : Option φ} {frames : List φ} :
      F.step buffer = some (frame, rest) → Steps rest frames last → Steps buffer (frame.toList ++ frames) last

variable {F}

theorem Steps.trans {a b d : List β} {fs gs : List φ} (h : F.Steps a fs b) (h' : F.Steps b gs d) :
    F.Steps a (fs ++ gs) d := by
  induction h with
  | refl => exact h'
  | step hs _ ih =>
    rw [List.append_assoc]
    exact Steps.step hs (ih h')

/-- What arrives later does not disturb the steps taken. -/
theorem Steps.append {a b : List β} {fs : List φ} (h : F.Steps a fs b) (more : List β) :
    F.Steps (a ++ more) fs (b ++ more) := by
  induction h with
  | refl => exact Steps.refl _
  | step hs _ ih => exact Steps.step (F.step_append hs) ih

/-- Two readings of one stream that both wait have handed out the same. -/
theorem Steps.eq_of_waits {a b b' : List β} {fs fs' : List φ} (h : F.Steps a fs b) (h' : F.Steps a fs' b')
    (hb : F.Waits b) (hb' : F.Waits b') : fs = fs' ∧ b = b' := by
  induction h generalizing fs' with
  | refl a =>
    cases h' with
    | refl => exact ⟨rfl, rfl⟩
    | step hs _ =>
      rw [Waits, hs] at hb
      cases hb
  | step hs _ ih =>
    cases h' with
    | refl =>
      rw [Waits, hs] at hb'
      cases hb'
    | step hs' hsteps =>
      rw [hs] at hs'
      obtain ⟨rfl, rfl⟩ := Prod.mk.inj (Option.some.inj hs')
      obtain ⟨rfl, rfl⟩ := ih hsteps hb
      exact ⟨rfl, rfl⟩

variable (F)

/-- At most `limit` steps. -/
def taken : Nat → List β → List φ × List β
  | 0, buffer => ([], buffer)
  | limit + 1, buffer =>
    match F.step buffer with
    | none => ([], buffer)
    | some (frame, rest) => (frame.toList ++ (taken limit rest).1, (taken limit rest).2)

theorem taken_steps (limit : Nat) (buffer : List β) :
    F.Steps buffer (F.taken limit buffer).1 (F.taken limit buffer).2 := by
  induction limit generalizing buffer with
  | zero => exact Steps.refl _
  | succ limit ih =>
    unfold taken
    cases h : F.step buffer with
    | none => exact Steps.refl _
    | some r => exact Steps.step h (ih r.2)

theorem taken_suffix (limit : Nat) (buffer : List β) : (F.taken limit buffer).2 <:+ buffer := by
  induction limit generalizing buffer with
  | zero => exact List.suffix_refl _
  | succ limit ih =>
    unfold taken
    cases hs : F.step buffer with
    | none => exact List.suffix_refl _
    | some r => exact (ih r.2).trans (F.step_suffix hs)

/-- A reader that may take a step and leaves the buffer as it was has none to take. -/
theorem waits_of_taken {limit : Nat} {buffer : List β} (h0 : 0 < limit) (h : (F.taken limit buffer).2 = buffer) :
    F.Waits buffer := by
  obtain ⟨limit, rfl⟩ : ∃ k, limit = k + 1 := ⟨limit - 1, by omega⟩
  unfold taken at h
  cases hs : F.step buffer with
  | none => exact hs
  | some r =>
    rw [hs] at h
    have hlt := F.step_shorter hs
    have := (F.taken_suffix limit r.2).length_le
    rw [h] at this
    omega

theorem taken_of_waits {buffer : List β} (h : F.Waits buffer) (limit : Nat) : F.taken limit buffer = ([], buffer) := by
  cases limit with
  | zero => rfl
  | succ limit =>
    unfold taken
    rw [h]

/-- A frame at the front: one step hands it out. -/
theorem taken_cons {limit : Nat} {buffer rest : List β} {frame : φ} (h : F.step buffer = some (some frame, rest)) :
    F.taken (limit + 1) buffer = (frame :: (F.taken limit rest).1, (F.taken limit rest).2) := by
  simp only [taken, h, Option.toList_some, List.singleton_append]

/-- A buffer that is one frame and nothing else. -/
def IsFrame (p : List β) : Prop := ∃ frame, F.step p = some (some frame, [])

variable {F}

theorem IsFrame.ne_nil {p : List β} (h : F.IsFrame p) : p ≠ [] := by
  rintro rfl
  obtain ⟨frame, h⟩ := h
  exact absurd (F.step_shorter h) (Nat.lt_irrefl _)

/-- No frame begins another. -/
theorem IsFrame.rest_eq {p q x y : List β} (hp : F.IsFrame p) (hq : F.IsFrame q) (h : p ++ x = q ++ y) : x = y := by
  obtain ⟨f, hf⟩ := hp
  obtain ⟨g, hg⟩ := hq
  have hx : F.step (p ++ x) = some (some f, [] ++ x) := F.step_append hf
  have hy : F.step (q ++ y) = some (some g, [] ++ y) := F.step_append hg
  rw [h, hy] at hx
  simpa using (congrArg Prod.snd (Option.some.inj hx)).symm

end Framer

/-! ## Whole frames -/

/-- Some of `frames`, one behind the other. -/
def Whole (frames : List (List β)) (b : List β) : Prop := ∃ ps : List (List β), (∀ p ∈ ps, p ∈ frames) ∧ b = ps.flatten

variable {frames more : List (List β)} {u v p : List β}

theorem whole_nil : Whole frames ([] : List β) := ⟨[], by simp, rfl⟩

theorem whole_frame (h : p ∈ frames) : Whole frames p := ⟨[p], by simpa using h, by simp⟩

theorem Whole.append (hu : Whole frames u) (hv : Whole frames v) : Whole frames (u ++ v) := by
  obtain ⟨ps, hps, rfl⟩ := hu
  obtain ⟨qs, hqs, rfl⟩ := hv
  refine ⟨ps ++ qs, fun p hp => ?_, by simp⟩
  rcases List.mem_append.1 hp with hp | hp
  · exact hps p hp
  · exact hqs p hp

theorem Whole.mono (h : Whole frames u) (hsub : frames ⊆ more) : Whole more u := by
  obtain ⟨ps, hps, rfl⟩ := h
  exact ⟨ps, fun p hp => hsub (hps p hp), rfl⟩

theorem Whole.cancel {F : Framer β φ} (hframes : ∀ p ∈ frames, F.IsFrame p) (hu : Whole frames u)
    (h : Whole frames (u ++ v)) : Whole frames v := by
  obtain ⟨ps, hps, rfl⟩ := hu
  induction ps with
  | nil => exact h
  | cons p ps ih =>
    have hp := hframes p (hps p (by simp))
    refine ih (fun q hq => hps q (List.mem_cons_of_mem _ hq)) ?_
    obtain ⟨qs, hqs, he⟩ := h
    rw [List.flatten_cons, List.append_assoc] at he
    cases qs with
    | nil => exact absurd (List.append_eq_nil_iff.1 he).1 hp.ne_nil
    | cons q qs =>
      have := hp.rest_eq (hframes q (hqs q (by simp))) he
      exact ⟨qs, fun r hr => hqs r (List.mem_cons_of_mem _ hr), this⟩

end BitcoinSpoon.Wire
