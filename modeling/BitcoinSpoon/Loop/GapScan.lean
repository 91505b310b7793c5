/-
  BitcoinSpoon.Loop.GapScan — scans that stop after a gap.

  A gap scan looks at one index after another as long as the index is less than `gap` above
  the last hit; `view` is what it finds at an index, or nothing where it cannot go on. After
  `t` rounds it stands at `start + t` with the last hit before it (`lastHit`) and what it has
  gathered (`gathered`), if it has come that far (`Passes`). So its result is the state at
  the first index that is `gap` above the last hit (`returns_gapScan`), more hits take it at
  least as far (`passes_mono`), and `gap` indices in a row without a hit end it
  (`gapScan_returns`). Nothing here names a program.
-/

import Mathlib.Data.Option.Basic

namespace BitcoinSpoon.Loop

variable {α β : Type}

/-- Some number of rounds is enough for the result. -/
def Returns (f : Nat → Option α) (x : α) : Prop := ∃ rounds, f rounds = some x

/-- Where more rounds change nothing there is one result. -/
theorem Returns.unique {f : Nat → Option α} (hmono : ∀ n m x, n ≤ m → f n = some x → f m = some x) {x y : α} (hx : Returns f x)
    (hy : Returns f y) : x = y := by
  obtain ⟨n, hn⟩ := hx
  obtain ⟨m, hm⟩ := hy
  have hx := hmono n (max n m) x (Nat.le_max_left n m) hn
  rw [hmono m (max n m) y (Nat.le_max_right n m) hm] at hx
  exact (Option.some.inj hx).symm

theorem returns_map {γ : Type} {f : Nat → Option α} {g : α → γ} {y : γ} :
    Returns (fun rounds => (f rounds).map g) y ↔ ∃ x, Returns f x ∧ g x = y := by
  constructor
  · rintro ⟨rounds, h⟩
    obtain ⟨x, hx, rfl⟩ := Option.map_eq_some_iff.1 h
    exact ⟨x, ⟨rounds, hx⟩, rfl⟩
  · rintro ⟨x, ⟨rounds, hx⟩, rfl⟩
    exact ⟨rounds, Option.map_eq_some_iff.2 ⟨x, hx, rfl⟩⟩

variable (gap : Nat) (view : Nat → Option β) (hit : β → Bool) (step : Nat → β → α → α)

/-- The last hit and what has been gathered; `none` if the rounds do not suffice. -/
def gapScan : Nat → Nat → Nat → α → Option (Nat × α)
  | 0, _, _, _ => none
  | rounds + 1, i, last, acc =>
    if i < last + gap then
      match view i with
      | none => none
      | some b => gapScan rounds (i + 1) (if hit b then i else last) (step i b acc)
    else some (last, acc)

def hitAt (i : Nat) : Bool := (view i).any hit

/-- The last hit of the first `t` indices from `start` on. -/
def lastHit (start last : Nat) : Nat → Nat
  | 0 => last
  | t + 1 => if hitAt view hit (start + t) then start + t else lastHit start last t

/-- What the first `t` indices from `start` on contribute. -/
def gathered (start : Nat) (acc : α) : Nat → α
  | 0 => acc
  | t + 1 =>
    match view (start + t) with
    | none => gathered start acc t
    | some b => step (start + t) b (gathered start acc t)

/-- The scan goes past the first `t` indices from `start` on. -/
def Passes (start last t : Nat) : Prop :=
  ∀ j, j < t → start + j < lastHit view hit start last j + gap ∧ (view (start + j)).isSome

/-- The scan ends after `t` indices. -/
def EndsAt (start last t : Nat) : Prop :=
  Passes gap view hit start last t ∧ lastHit view hit start last t + gap ≤ start + t

variable {gap view hit step} {start last t : Nat} {acc : α}

theorem passes_zero : Passes gap view hit start last 0 := fun j hj => absurd hj (Nat.not_lt_zero j)

theorem passes_succ :
    Passes gap view hit start last (t + 1) ↔
      Passes gap view hit start last t ∧ start + t < lastHit view hit start last t + gap ∧ (view (start + t)).isSome := by
  constructor
  · intro h
    exact ⟨fun j hj => h j (Nat.lt_succ_of_lt hj), h t (Nat.lt_succ_self t)⟩
  · rintro ⟨h, ht⟩ j hj
    rcases Nat.lt_succ_iff_lt_or_eq.1 hj with hlt | rfl
    · exact h j hlt
    · exact ht

theorem Passes.le {s : Nat} (h : Passes gap view hit start last t) (hle : s ≤ t) : Passes gap view hit start last s :=
  fun j hj => h j (Nat.lt_of_lt_of_le hj hle)

theorem lastHit_le (hle : last ≤ start) : lastHit view hit start last t ≤ start + t := by
  induction t with
  | zero => exact hle
  | succ t ih =>
    unfold lastHit
    split
    · omega
    · omega

/-- A hit is below the index the scan has come to. -/
theorem lastHit_zero_or_hit : lastHit view hit 0 0 t = 0 ∨ (lastHit view hit 0 0 t < t ∧ hitAt view hit (lastHit view hit 0 0 t) = true) := by
  induction t with
  | zero => exact Or.inl rfl
  | succ t ih =>
    rw [lastHit, Nat.zero_add]
    split
    · rename_i hhit
      exact Or.inr ⟨Nat.lt_succ_self t, hhit⟩
    · rcases ih with hzero | ⟨hlt, hhit⟩
      · exact Or.inl hzero
      · exact Or.inr ⟨Nat.lt_succ_of_lt hlt, hhit⟩

theorem lastHit_le_later (s : Nat) : lastHit view hit 0 0 t ≤ lastHit view hit 0 0 (t + s) := by
  induction s with
  | zero => exact Nat.le_refl _
  | succ s ih =>
    have hle : lastHit view hit 0 0 t ≤ 0 + t := lastHit_le (Nat.le_refl 0)
    rw [← Nat.add_assoc, lastHit]
    split
    · omega
    · exact ih

/-- Hits at the same indices, as far as the scan has come. -/
theorem lastHit_congr {γ : Type} {view' : Nat → Option γ} {hit' : γ → Bool}
    (h : ∀ j, j < t → hitAt view hit (start + j) = hitAt view' hit' (start + j)) :
    lastHit view hit start last t = lastHit view' hit' start last t := by
  induction t with
  | zero => rfl
  | succ t ih => rw [lastHit, lastHit, h t (Nat.lt_succ_self t), ih fun j hj => h j (Nat.lt_succ_of_lt hj)]

theorem lastHit_mono {γ : Type} {view' : Nat → Option γ} {hit' : γ → Bool}
    (h : ∀ j, j < t → hitAt view hit (start + j) = true → hitAt view' hit' (start + j) = true) (hle : last ≤ start) :
    lastHit view hit start last t ≤ lastHit view' hit' start last t := by
  induction t with
  | zero => exact Nat.le_refl _
  | succ t ih =>
    have hbefore := ih fun j hj => h j (Nat.lt_succ_of_lt hj)
    have hat := h t (Nat.lt_succ_self t)
    have hbound : lastHit view hit start last t ≤ start + t := lastHit_le hle
    unfold lastHit
    split
    · rename_i hyes
      exact Nat.le_of_eq (if_pos (hat hyes)).symm
    · split
      · exact hbound
      · exact hbefore

/-- No hit in the last `s` indices. -/
theorem lastHit_of_quiet {s : Nat} (h : ∀ j, t ≤ j → j < t + s → hitAt view hit (start + j) = false) :
    lastHit view hit start last (t + s) = lastHit view hit start last t := by
  induction s with
  | zero => rfl
  | succ s ih =>
    have hat := h (t + s) (by omega) (by omega)
    rw [← Nat.add_assoc, lastHit, hat, if_neg Bool.false_ne_true]
    exact ih fun j hj hlt => h j hj (by omega)

/-- More hits take the scan at least as far. -/
theorem passes_mono {γ : Type} {view' : Nat → Option γ} {hit' : γ → Bool} (h : Passes gap view hit start last t)
    (hview : ∀ j, j < t → (view (start + j)).isSome → (view' (start + j)).isSome)
    (hhit : ∀ j, j < t → hitAt view hit (start + j) = true → hitAt view' hit' (start + j) = true) (hle : last ≤ start) :
    Passes gap view' hit' start last t := by
  intro j hj
  obtain ⟨hopen, hsome⟩ := h j hj
  have hlast := @lastHit_mono _ view hit start last j _ view' hit' (fun k hk => hhit k (by omega)) hle
  exact ⟨by omega, hview j hj hsome⟩

/-! ## Rounds -/

theorem gapScan_passes (h : Passes gap view hit start last t) (rounds : Nat) :
    gapScan gap view hit step (rounds + t) start last acc =
      gapScan gap view hit step rounds (start + t) (lastHit view hit start last t) (gathered view step start acc t) := by
  induction t generalizing rounds with
  | zero => rfl
  | succ t ih =>
    obtain ⟨hbefore, hopen, hsome⟩ := passes_succ.1 h
    obtain ⟨b, hb⟩ := Option.isSome_iff_exists.1 hsome
    have hrounds : rounds + (t + 1) = rounds + 1 + t := by omega
    rw [hrounds, ih hbefore (rounds + 1), gapScan, if_pos hopen, hb, lastHit, hitAt, gathered, hb]
    rfl

theorem gapScan_ends (h : EndsAt gap view hit start last t) (rounds : Nat) :
    gapScan gap view hit step (rounds + 1 + t) start last acc =
      some (lastHit view hit start last t, gathered view step start acc t) := by
  rw [gapScan_passes h.1, gapScan, if_neg (Nat.not_lt.2 h.2)]

/-- A scan goes on, or ends, or finds nothing where it has to look. -/
theorem passes_or_stops (rounds : Nat) :
    Passes gap view hit start last rounds ∨
      ∃ t, t < rounds ∧ Passes gap view hit start last t ∧
        (lastHit view hit start last t + gap ≤ start + t ∨ view (start + t) = none) := by
  induction rounds with
  | zero => exact Or.inl passes_zero
  | succ rounds ih =>
    rcases ih with hpass | ⟨t, ht, hstops⟩
    · by_cases hopen : start + rounds < lastHit view hit start last rounds + gap
      · cases hview : view (start + rounds) with
        | none => exact Or.inr ⟨rounds, Nat.lt_succ_self _, hpass, Or.inr hview⟩
        | some b => exact Or.inl (passes_succ.2 ⟨hpass, hopen, by simp [hview]⟩)
      · exact Or.inr ⟨rounds, Nat.lt_succ_self _, hpass, Or.inl (Nat.not_lt.1 hopen)⟩
    · exact Or.inr ⟨t, Nat.lt_succ_of_lt ht, hstops⟩

theorem gapScan_some {rounds : Nat} {result : Nat × α} (h : gapScan gap view hit step rounds start last acc = some result) :
    ∃ t, EndsAt gap view hit start last t ∧
      result = (lastHit view hit start last t, gathered view step start acc t) := by
  rcases @passes_or_stops _ gap view hit start last rounds with hpass | ⟨t, ht, hpass, hstop⟩
  · have hall := @gapScan_passes _ _ gap view hit step start last rounds acc hpass 0
    rw [Nat.zero_add, h] at hall
    cases hall
  · obtain ⟨more, rfl⟩ := Nat.exists_eq_add_of_lt ht
    rw [Nat.add_assoc t more 1, Nat.add_comm t] at h
    by_cases hends : lastHit view hit start last t + gap ≤ start + t
    · rw [gapScan_ends ⟨hpass, hends⟩] at h
      exact ⟨t, ⟨hpass, hends⟩, (Option.some.inj h).symm⟩
    · have hview : view (start + t) = none := hstop.resolve_left hends
      rw [gapScan_passes hpass, gapScan, if_pos (Nat.not_le.1 hends), hview] at h
      cases h

/-- The result is the state where the scan ends. -/
theorem returns_gapScan {result : Nat × α} :
    Returns (fun rounds => gapScan gap view hit step rounds start last acc) result ↔
      ∃ t, EndsAt gap view hit start last t ∧
        result = (lastHit view hit start last t, gathered view step start acc t) := by
  constructor
  · rintro ⟨rounds, h⟩
    exact gapScan_some h
  · rintro ⟨t, hends, rfl⟩
    exact ⟨0 + 1 + t, gapScan_ends hends 0⟩

/-- A scan has come at most as far as it ends. -/
theorem Passes.le_of_ends {s : Nat} (h : Passes gap view hit start last s) (hends : EndsAt gap view hit start last t) : s ≤ t := by
  by_contra hlt
  have hopen := (h t (Nat.lt_of_not_le hlt)).1
  have hend := hends.2
  omega

theorem EndsAt.eq {s : Nat} (hs : EndsAt gap view hit start last s) (ht : EndsAt gap view hit start last t) : s = t :=
  Nat.le_antisymm (hs.1.le_of_ends ht) (ht.1.le_of_ends hs)

/-- `gap` indices in a row without a hit end a scan, wherever it starts. -/
theorem gapScan_returns_from {e : Nat} (hview : ∀ j, j < e + gap → (view j).isSome)
    (hquiet : ∀ j, e ≤ j → j < e + gap → hitAt view hit j = false) (start : Nat) :
    ∃ t, t ≤ e + gap - start ∧ EndsAt gap view hit start 0 t := by
  rcases @passes_or_stops _ gap view hit start 0 (e + gap - start) with hpass | ⟨t, ht, hpass, hstop⟩
  · refine ⟨e + gap - start, Nat.le_refl _, hpass, ?_⟩
    by_cases hfar : e + gap ≤ start
    · have hzero : e + gap - start = 0 := Nat.sub_eq_zero_of_le hfar
      rw [hzero, lastHit]
      omega
    have hlast : lastHit view hit start 0 (e - start + (e + gap - start - (e - start))) = lastHit view hit start 0 (e - start) :=
      lastHit_of_quiet fun j hj hlt => hquiet _ (by omega) (by omega)
    rw [Nat.add_sub_cancel' (by omega)] at hlast
    have hle : lastHit view hit start 0 (e - start) ≤ e := by
      by_cases hbefore : start ≤ e
      · have hbound : lastHit view hit start 0 (e - start) ≤ start + (e - start) := lastHit_le (Nat.zero_le _)
        omega
      · rw [Nat.sub_eq_zero_of_le (Nat.le_of_not_le hbefore)]
        exact Nat.zero_le e
    omega
  · refine ⟨t, Nat.le_of_lt ht, hpass, hstop.resolve_right fun hnone => ?_⟩
    have hsome := hview (start + t) (by omega)
    rw [hnone] at hsome
    cases hsome

theorem gapScan_returns {e : Nat} (hview : ∀ j, j < e + gap → (view j).isSome)
    (hquiet : ∀ j, e ≤ j → j < e + gap → hitAt view hit j = false) : ∃ t, t ≤ e + gap ∧ EndsAt gap view hit 0 0 t :=
  gapScan_returns_from hview hquiet 0

/-! ## What is gathered -/

theorem gathered_inv (P : α → Prop) (h0 : P acc) (hstep : ∀ i b acc, P acc → P (step i b acc)) :
    P (gathered view step start acc t) := by
  induction t with
  | zero => exact h0
  | succ t ih =>
    unfold gathered
    split
    · exact ih
    · exact hstep _ _ _ ih

/-- Where every index adds to what is there, everything gathered comes from one of them. -/
theorem gathered_iff (P : α → Prop) (Q : Nat → β → Prop) (hstep : ∀ i b acc, P (step i b acc) ↔ P acc ∨ Q i b) :
    P (gathered view step start acc t) ↔ P acc ∨ ∃ j, j < t ∧ ∃ b, view (start + j) = some b ∧ Q (start + j) b := by
  induction t with
  | zero => simp [gathered]
  | succ t ih =>
    have hsplit : (∃ j, j < t + 1 ∧ ∃ b, view (start + j) = some b ∧ Q (start + j) b) ↔
        (∃ j, j < t ∧ ∃ b, view (start + j) = some b ∧ Q (start + j) b) ∨
          ∃ b, view (start + t) = some b ∧ Q (start + t) b := by
      constructor
      · rintro ⟨j, hj, h⟩
        rcases Nat.lt_succ_iff_lt_or_eq.1 hj with hlt | rfl
        · exact Or.inl ⟨j, hlt, h⟩
        · exact Or.inr h
      · rintro (⟨j, hj, h⟩ | h)
        · exact ⟨j, Nat.lt_succ_of_lt hj, h⟩
        · exact ⟨t, Nat.lt_succ_self t, h⟩
    rw [hsplit]
    cases hview : view (start + t) with
    | none =>
      have hsame : gathered view step start acc (t + 1) = gathered view step start acc t := by rw [gathered, hview]
      rw [hsame, ih]
      simp
    | some b =>
      have hone : gathered view step start acc (t + 1) = step (start + t) b (gathered view step start acc t) := by
        rw [gathered, hview]
      rw [hone, hstep, ih, or_assoc]
      simp

/-! ## A scan that starts in the middle -/

theorem gapScan_succ {rounds i : Nat} {result : Nat × α} (h : gapScan gap view hit step rounds i last acc = some result) :
    gapScan gap view hit step (rounds + 1) i last acc = some result := by
  induction rounds generalizing i last acc with
  | zero => cases h
  | succ rounds ih =>
    unfold gapScan at h ⊢
    split at h
    · rename_i hopen
      rw [if_pos hopen]
      cases hview : view i with
      | none =>
        rw [hview] at h
        cases h
      | some b =>
        rw [hview] at h
        exact ih h
    · rename_i hclosed
      rw [if_neg hclosed]
      exact h

theorem gapScan_le {rounds rounds' i : Nat} {result : Nat × α} (hle : rounds ≤ rounds')
    (h : gapScan gap view hit step rounds i last acc = some result) : gapScan gap view hit step rounds' i last acc = some result := by
  obtain ⟨more, rfl⟩ := Nat.exists_eq_add_of_le hle
  induction more with
  | zero => exact h
  | succ more ih => exact gapScan_succ (ih (Nat.le_add_right _ _))

theorem returns_more (more : Nat) {result : Nat × α} :
    Returns (fun rounds => gapScan gap view hit step (rounds + more) start last acc) result ↔
      Returns (fun rounds => gapScan gap view hit step rounds start last acc) result := by
  constructor
  · rintro ⟨rounds, h⟩
    exact ⟨rounds + more, h⟩
  · rintro ⟨rounds, h⟩
    exact ⟨rounds, gapScan_le (Nat.le_add_right _ _) h⟩

/-- A scan that starts at a hit the whole scan comes past, and that looks at this hit at all,
    goes on like the whole scan. -/
theorem returns_rejoin {s : Nat} {result : Nat × α} (hpass : Passes gap view hit 0 0 (s + 1))
    (hhit : s = 0 ∨ hitAt view hit s = true) (hgap : s < gap) (hstep : step = fun _ _ acc => acc) :
    Returns (fun rounds => gapScan gap view hit step rounds s 0 acc) result ↔
      Returns (fun rounds => gapScan gap view hit step rounds 0 0 acc) result := by
  subst hstep
  have hlast : lastHit view hit 0 0 (s + 1) = s := by
    rw [lastHit, Nat.zero_add]
    rcases hhit with rfl | hhit
    · exact ite_self 0
    · exact if_pos hhit
  have hkeep : ∀ t, gathered view (fun _ _ acc => acc) 0 acc t = acc := by
    intro t
    induction t with
    | zero => rfl
    | succ t ih =>
      unfold gathered
      split
      · exact ih
      · exact ih
  have hsome : (view s).isSome := by
    rw [← Nat.zero_add s]
    exact (hpass s (Nat.lt_succ_self s)).2
  obtain ⟨b, hb⟩ := Option.isSome_iff_exists.1 hsome
  have hone : (if hit b then s else 0) = s := by
    rcases hhit with rfl | hhit
    · exact ite_self 0
    · rw [hitAt, hb] at hhit
      exact if_pos hhit
  rw [← returns_more 1, ← @returns_more _ _ gap view hit _ 0 0 acc (s + 1)]
  apply exists_congr
  intro rounds
  show gapScan gap view hit _ (rounds + 1) s 0 acc = some result ↔ gapScan gap view hit _ (rounds + (s + 1)) 0 0 acc = some result
  rw [gapScan_passes hpass, hlast, hkeep, Nat.zero_add, gapScan, if_pos (by omega), hb]
  show gapScan gap view hit _ rounds (s + 1) (if hit b then s else 0) acc = some result ↔ _
  rw [hone]

end BitcoinSpoon.Loop
