/-
  BitcoinSpoon.Wire.Queues — a stream of frames out of two queues.

  Frames wait in two queues; the first is passed before the second, and a frame is passed
  in parts. The stream is whole frames and a part of the one under way (`Outgoing`). A
  frame may go to the front, of either queue, while no frame of the second is under way
  (`queueFront`, `queueFirst`). Nothing here names a program.
-/

import BitcoinSpoon.Wire.Framing

namespace BitcoinSpoon.Wire

variable {β φ : Type}

/-- What has been passed (`passed`, and `passedLast` of it from the second queue), what is
    queued first and what is queued last, all of packets from `packets`. -/
inductive Outgoing (packets : List (List β)) (passed passedLast first last : List β) (lost : Prop) : Prop
  /-- No packet of the second queue is under way. -/
  | between : Whole packets last → Whole packets passedLast → Whole packets (passed ++ first) →
      Outgoing packets passed passedLast first last lost
  /-- `part` of a packet of the second queue has been passed. -/
  | within {whole wholeLast part : List β} : first = [] → Whole packets whole → Whole packets wholeLast →
      passed = whole ++ part → passedLast = wholeLast ++ part → Whole packets (part ++ last) →
      Outgoing packets passed passedLast first last lost
  /-- Nothing will be passed any more. -/
  | stopped {rest : List β} : lost → Whole packets (passed ++ rest) → Outgoing packets passed passedLast first last lost

namespace Outgoing

variable {packets more : List (List β)} {passed passedLast first last p b : List β} {lost lost' : Prop}

theorem mono (h : Outgoing packets passed passedLast first last lost) (hsub : packets ⊆ more) :
    Outgoing more passed passedLast first last lost := by
  cases h with
  | between hl hp hw => exact .between (hl.mono hsub) (hp.mono hsub) (hw.mono hsub)
  | within hf h1 h2 hp hpl hw => exact .within hf (h1.mono hsub) (h2.mono hsub) hp hpl (hw.mono hsub)
  | stopped hlost hw => exact .stopped hlost (hw.mono hsub)

theorem imp (h : Outgoing packets passed passedLast first last lost) (hlost : lost → lost') :
    Outgoing packets passed passedLast first last lost' := by
  cases h with
  | between hl hp hw => exact .between hl hp hw
  | within hf h1 h2 hp hpl hw => exact .within hf h1 h2 hp hpl hw
  | stopped hl hw => exact .stopped (hlost hl) hw

/-- When what the second queue has passed is whole, nothing of it is under way. -/
theorem between_of_whole {F : Framer β φ} (hframes : ∀ p ∈ packets, F.IsFrame p)
    (h : Outgoing packets passed passedLast first last lost) (hwhole : Whole packets passedLast) :
    (Whole packets last ∧ Whole packets (passed ++ first)) ∨ (lost ∧ ∃ rest, Whole packets (passed ++ rest)) := by
  cases h with
  | between hl hp hw => exact .inl ⟨hl, hw⟩
  | within hf h1 h2 hp hpl hw =>
    rw [hpl] at hwhole
    have hpart := h2.cancel hframes hwhole
    refine .inl ⟨hpart.cancel hframes hw, ?_⟩
    rw [hf, hp, List.append_nil]
    exact h1.append hpart
  | stopped hlost hw => exact .inr ⟨hlost, _, hw⟩

theorem queueFront {F : Framer β φ} (hframes : ∀ p ∈ packets, F.IsFrame p)
    (h : Outgoing packets passed passedLast first last lost) (hwhole : Whole packets passedLast) (hp : p ∈ packets) :
    Outgoing packets passed passedLast first (p ++ last) lost := by
  rcases h.between_of_whole hframes hwhole with ⟨hl, hw⟩ | ⟨hlost, rest, hw⟩
  · exact .between ((whole_frame hp).append hl) hwhole hw
  · exact .stopped hlost hw

theorem queueFirst {F : Framer β φ} (hframes : ∀ p ∈ packets, F.IsFrame p)
    (h : Outgoing packets passed passedLast first last lost) (hwhole : Whole packets passedLast) (hp : p ∈ packets) :
    Outgoing packets passed passedLast (first ++ p) last lost := by
  rcases h.between_of_whole hframes hwhole with ⟨hl, hw⟩ | ⟨hlost, rest, hw⟩
  · refine .between hl hwhole ?_
    rw [← List.append_assoc]
    exact hw.append (whole_frame hp)
  · exact .stopped hlost hw

theorem queueLast (h : Outgoing packets passed passedLast first last lost) (hp : p ∈ packets) :
    Outgoing packets passed passedLast first (last ++ p) lost := by
  cases h with
  | between hl hpl hw => exact .between (hl.append (whole_frame hp)) hpl hw
  | within hf h1 h2 hpa hpl hw =>
    refine .within hf h1 h2 hpa hpl ?_
    rw [← List.append_assoc]
    exact hw.append (whole_frame hp)
  | stopped hlost hw => exact .stopped hlost hw

theorem passFirst (h : Outgoing packets passed passedLast (b ++ first) last lost) (hlost : ¬lost) :
    Outgoing packets (passed ++ b) passedLast first last lost := by
  cases h with
  | between hl hp hw =>
    rw [← List.append_assoc] at hw
    exact .between hl hp hw
  | within hf h1 h2 hp hpl hw =>
    obtain ⟨rfl, rfl⟩ := List.append_eq_nil_iff.1 hf
    rw [List.append_nil]
    exact .within rfl h1 h2 hp hpl hw
  | stopped hl hw => exact absurd hl hlost

theorem passLast (h : Outgoing packets passed passedLast [] (b ++ last) lost) (hlost : ¬lost) :
    Outgoing packets (passed ++ b) (passedLast ++ b) [] last lost := by
  cases h with
  | between hl hp hw =>
    rw [List.append_nil] at hw
    exact .within rfl hw hp rfl rfl hl
  | within hf h1 h2 hp hpl hw =>
    rw [← List.append_assoc] at hw
    exact .within rfl h1 h2 (by rw [hp, List.append_assoc]) (by rw [hpl, List.append_assoc]) hw
  | stopped hl hw => exact absurd hl hlost

/-- What has been passed is the front of whole packets. -/
theorem passed_front (h : Outgoing packets passed passedLast first last lost) : ∃ rest, Whole packets (passed ++ rest) := by
  cases h with
  | between hl hp hw => exact ⟨first, hw⟩
  | @within whole _ part hf h1 h2 hp hpl hw =>
    refine ⟨last, ?_⟩
    rw [hp, List.append_assoc]
    exact h1.append hw
  | stopped hlost hw => exact ⟨_, hw⟩

end Outgoing

end BitcoinSpoon.Wire
