/-
  BitcoinSpoon.Loop.Rules — rules for counting loops and loops over lists.

  A counting loop runs `f 0`, `f 1`, …, `f (n - 1)` on a state. `forRange_rule` is the
  invariant rule indexed by the counter, `foldl_rule` the one indexed by the elements
  already visited. `Acts` is for a state that is an array of views: a step that changes
  view `i` only, and changes it as `f` does. Loops of such steps are read view by view
  (`Acts.forRange`, `Acts.foldl`). `EachBy` relates a list to what is left of it when every
  element has been replaced by a function that may fail. Nothing here names a program.
-/

import Mathlib.Data.List.Induction

namespace BitcoinSpoon.Loop

variable {σ α β γ V : Type}

/-- `for (int i = 0; i < n; i++) s = f i s`. -/
def forRange (n : Nat) (f : Nat → σ → σ) (s : σ) : σ := (List.range n).foldl (fun s i => f i s) s

theorem forRange_succ (n : Nat) (f : Nat → σ → σ) (s : σ) : forRange (n + 1) f s = f n (forRange n f s) := by
  rw [forRange, List.range_succ, List.foldl_append]
  rfl

/-- `P i` holds before step `i`. -/
theorem forRange_rule (P : Nat → σ → Prop) {n : Nat} {f : Nat → σ → σ} {s : σ} (h0 : P 0 s)
    (hstep : ∀ i < n, ∀ t, P i t → P (i + 1) (f i t)) : P n (forRange n f s) := by
  induction n with
  | zero => exact h0
  | succ n ih =>
    rw [forRange_succ]
    exact hstep n (Nat.lt_succ_self n) _ (ih fun i hi => hstep i (Nat.lt_succ_of_lt hi))

/-- `P pre` holds when the elements `pre` have been visited. -/
theorem foldl_rule (P : List α → σ → Prop) {l : List α} {f : σ → α → σ} {s : σ} (h0 : P [] s)
    (hstep : ∀ pre x post, l = pre ++ x :: post → ∀ t, P pre t → P (pre ++ [x]) (f t x)) : P l (l.foldl f s) := by
  induction l using List.reverseRecOn with
  | nil => exact h0
  | append_singleton l a ih =>
    rw [List.foldl_append]
    apply hstep l a [] rfl
    apply ih
    intro pre x post hl
    apply hstep pre x (post ++ [a])
    rw [hl, List.append_assoc, List.cons_append]

/-- The same for steps that may fail. -/
theorem foldlM_rule (P : List α → σ → Prop) {l : List α} {f : σ → α → Option σ} {s last : σ} (h : l.foldlM f s = some last)
    (h0 : P [] s) (hstep : ∀ pre x post, l = pre ++ x :: post → ∀ t next, P pre t → f t x = some next → P (pre ++ [x]) next) :
    P l last := by
  induction l using List.reverseRecOn generalizing last with
  | nil =>
    cases h
    exact h0
  | append_singleton l a ih =>
    rw [List.foldlM_append] at h
    obtain ⟨t, ht, h⟩ := Option.bind_eq_some_iff.1 h
    rw [List.foldlM_cons] at h
    obtain ⟨next, hnext, h⟩ := Option.bind_eq_some_iff.1 h
    cases h
    refine hstep l a [] rfl t _ (ih ht fun pre x post hl => ?_) hnext
    apply hstep pre x (post ++ [a])
    rw [hl, List.append_assoc, List.cons_append]

/-- A step reaches `P` or leaves it, and `inv` says what of the elements visited so far. -/
theorem foldlM_adds (inv : List α → σ → Prop) (P : σ → Prop) (adds : α → Prop) {l : List α} {f : σ → α → Option σ} {s last : σ}
    (h : l.foldlM f s = some last) (h0 : inv [] s)
    (hstep : ∀ pre x post, l = pre ++ x :: post → ∀ t next, inv pre t → f t x = some next →
      inv (pre ++ [x]) next ∧ (P next ↔ P t ∨ adds x)) :
    inv l last ∧ (P last ↔ P s ∨ ∃ x ∈ l, adds x) := by
  refine foldlM_rule (fun pre t => inv pre t ∧ (P t ↔ P s ∨ ∃ x ∈ pre, adds x)) h ⟨h0, by simp⟩ ?_
  intro pre x post hl t next ht hnext
  obtain ⟨hinv, hP⟩ := hstep pre x post hl t next ht.1 hnext
  refine ⟨hinv, ?_⟩
  rw [hP, ht.2, or_assoc]
  simp only [List.mem_append, List.mem_singleton, or_and_right, exists_or, exists_eq_left]

/-- In `0, 1, …, n - 1` as many elements come before one as it says. -/
theorem range_split {n x : Nat} {pre post : List Nat} (h : List.range n = pre ++ x :: post) : x = pre.length ∧ x < n := by
  have hget := congrArg (fun l => l[pre.length]?) h
  have hlength := congrArg List.length h
  rw [List.length_range, List.length_append, List.length_cons] at hlength
  have hlt : pre.length < n := by omega
  rw [List.getElem?_range hlt, List.getElem?_append_right (Nat.le_refl _), Nat.sub_self, List.getElem?_cons_zero] at hget
  exact ⟨(Option.some.inj hget).symm, by rw [← Option.some.inj hget]; exact hlt⟩

/-- An invariant of every step. -/
theorem foldl_inv (P : σ → Prop) {l : List α} {f : σ → α → σ} {s : σ} (h0 : P s)
    (hstep : ∀ x ∈ l, ∀ t, P t → P (f t x)) : P (l.foldl f s) :=
  foldl_rule (fun _ => P) h0 fun _ x _ hl t => hstep x (by rw [hl]; simp) t

/-- Elements that change nothing can be left out. -/
theorem foldl_relevant {l : List α} {f : σ → α → σ} {p : α → Bool} (h : ∀ s, ∀ x ∈ l, p x = false → f s x = s) (s : σ) :
    l.foldl f s = (l.filter p).foldl f s := by
  induction l generalizing s with
  | nil => rfl
  | cons x l ih =>
    have hl := ih fun s y hy => h s y (List.mem_cons_of_mem _ hy)
    cases hx : p x with
    | true => rw [List.filter_cons_of_pos hx, List.foldl_cons, List.foldl_cons, hl]
    | false => rw [List.filter_cons_of_neg (by simp [hx]), List.foldl_cons, h s x List.mem_cons_self hx, hl]

/-- Where a relevant element overwrites what came before, the last one decides. -/
theorem foldl_last (view : σ → V) {l : List α} {f : σ → α → σ} {p : α → Bool} {g : α → V}
    (hp : ∀ s x, p x = true → view (f s x) = g x) (hn : ∀ s x, p x = false → view (f s x) = view s) (s : σ) :
    view (l.foldl f s) = ((l.filter p).getLast?.map g).getD (view s) := by
  induction l using List.reverseRecOn with
  | nil => rfl
  | append_singleton l x ih =>
    rw [List.foldl_append, List.filter_append, List.foldl_cons, List.foldl_nil]
    cases hx : p x with
    | true => rw [hp _ x hx, List.filter_cons_of_pos hx, List.filter_nil, List.getLast?_append]; rfl
    | false => rw [hn _ x hx, ih, List.filter_cons_of_neg (by simp [hx]), List.filter_nil, List.append_nil]

/-- A step reaches `P` on a hit and else leaves it and what is a hit as they were. -/
theorem foldl_hit (P : σ → Prop) (hit : σ → α → Prop) {f : σ → α → σ} (hhit : ∀ s x, hit s x → P (f s x))
    (hmiss : ∀ s x, ¬ hit s x → (P (f s x) ↔ P s) ∧ ∀ y, hit (f s x) y ↔ hit s y)
    (l : List α) (s : σ) : P (l.foldl f s) ↔ P s ∨ ∃ x ∈ l, hit s x := by
  induction l generalizing s with
  | nil => simp
  | cons x l ih =>
    rw [List.foldl_cons, ih]
    by_cases hx : hit s x
    · have hP := hhit s x hx
      simp [hP, hx]
    · obtain ⟨hP, hsame⟩ := hmiss s x hx
      simp only [hP, hsame, List.mem_cons, exists_eq_or_imp, hx, false_or]

/-! ## Steps that act on one view -/

/-- From states with `Inv`, `step` keeps `Inv`, changes view `i` as `f` does and leaves the
    others. -/
structure Acts (Inv : σ → Prop) (view : σ → Nat → V) (i : Nat) (step : σ → σ) (f : V → V) : Prop where
  inv : ∀ {s}, Inv s → Inv (step s)
  here : ∀ {s}, Inv s → view (step s) i = f (view s i)
  there : ∀ {s}, Inv s → ∀ {j}, j ≠ i → view (step s) j = view s j

variable {Inv : σ → Prop} {view : σ → Nat → V}

theorem Acts.id (i : Nat) : Acts Inv view i (fun s => s) (fun v => v) := ⟨fun h => h, fun _ => rfl, fun _ _ _ => rfl⟩

theorem Acts.comp {i : Nat} {step step' : σ → σ} {f g : V → V} (h : Acts Inv view i step f)
    (h' : Acts Inv view i step' g) : Acts Inv view i (fun s => step' (step s)) (fun v => g (f v)) where
  inv hs := h'.inv (h.inv hs)
  here hs := by rw [h'.here (h.inv hs), h.here hs]
  there hs _ hj := by rw [h'.there (h.inv hs) hj, h.there hs hj]

/-- Many steps on one view. -/
theorem Acts.foldl {i : Nat} {step : σ → α → σ} {f : V → α → V} {l : List α}
    (h : ∀ x ∈ l, Acts Inv view i (fun s => step s x) (fun v => f v x)) :
    Acts Inv view i (fun s => l.foldl step s) (fun v => l.foldl f v) := by
  induction l with
  | nil => exact Acts.id i
  | cons x l ih =>
    exact (h x List.mem_cons_self).comp (ih fun y hy => h y (List.mem_cons_of_mem _ hy))

/-- One step on every view. -/
theorem Acts.forRange {n : Nat} {step : Nat → σ → σ} {f : Nat → V → V}
    (h : ∀ i < n, Acts Inv view i (step i) (f i)) {s : σ} (hs : Inv s) :
    Inv (forRange n step s) ∧ ∀ j, view (forRange n step s) j = if j < n then f j (view s j) else view s j := by
  induction n with
  | zero => exact ⟨hs, fun j => rfl⟩
  | succ n ih =>
    obtain ⟨hinv, hview⟩ := ih fun i hi => h i (Nat.lt_succ_of_lt hi)
    have hn := h n (Nat.lt_succ_self n)
    rw [forRange_succ]
    refine ⟨hn.inv hinv, fun j => ?_⟩
    by_cases hj : j = n
    · subst hj
      rw [hn.here hinv, hview, if_neg (Nat.lt_irrefl j), if_pos (Nat.lt_succ_self j)]
    · rw [hn.there hinv hj, hview]
      by_cases hlt : j < n
      · rw [if_pos hlt, if_pos (by omega)]
      · rw [if_neg hlt, if_neg (by omega)]

/-- For every element one step on every view: each view sees all elements in order. -/
theorem Acts.foldl_forRange {n : Nat} {step : α → Nat → σ → σ} {f : α → Nat → V → V} {l : List α}
    (h : ∀ x ∈ l, ∀ i < n, Acts Inv view i (step x i) (f x i)) {s : σ} (hs : Inv s) :
    Inv (l.foldl (fun s x => Loop.forRange n (step x) s) s) ∧
      ∀ j, view (l.foldl (fun s x => Loop.forRange n (step x) s) s) j =
        if j < n then l.foldl (fun v x => f x j v) (view s j) else view s j := by
  induction l generalizing s with
  | nil => exact ⟨hs, fun j => by simp⟩
  | cons x l ih =>
    obtain ⟨hinv, hview⟩ := Acts.forRange (h x List.mem_cons_self) hs
    obtain ⟨hinv', hview'⟩ := ih (fun y hy => h y (List.mem_cons_of_mem _ hy)) hinv
    refine ⟨hinv', fun j => ?_⟩
    rw [List.foldl_cons, hview', hview]
    by_cases hj : j < n <;> simp [hj]

/-! ## Replacing every element -/

/-- `ys` is `xs` with element `k` replaced by what `f k` makes of it; `f` fails on none. -/
def EachBy (f : Nat → α → Option β) (xs : List α) (ys : List β) : Prop :=
  ∀ k : Nat, xs[k]?.map (f k) = ys[k]?.map some

variable {f g : Nat → α → Option β} {xs : List α} {ys : List β}

theorem EachBy.get (h : EachBy f xs ys) {k : Nat} {x : α} (hx : xs[k]? = some x) :
    ∃ y, ys[k]? = some y ∧ f k x = some y := by
  have hk := h k
  rw [hx, Option.map_some] at hk
  cases hy : ys[k]? with
  | none => rw [hy] at hk; cases hk
  | some y =>
    rw [hy, Option.map_some] at hk
    exact ⟨y, rfl, Option.some.inj hk⟩

theorem EachBy.get_none (h : EachBy f xs ys) {k : Nat} (hx : xs[k]? = none) : ys[k]? = none := by
  have hk := h k
  rw [hx, Option.map_none] at hk
  exact Option.map_eq_none_iff.mp hk.symm

theorem EachBy.length (h : EachBy f xs ys) : ys.length = xs.length := by
  apply Nat.le_antisymm
  · exact List.getElem?_eq_none_iff.mp (h.get_none (List.getElem?_eq_none (Nat.le_refl _)))
  · by_contra hlt
    obtain ⟨y, hy, -⟩ := h.get (List.getElem?_eq_getElem (Nat.lt_of_not_le hlt))
    have := (List.getElem?_eq_some_iff.mp hy).1
    omega

theorem EachBy.unique {zs : List β} (h : EachBy f xs ys) (h' : EachBy f xs zs) : ys = zs := by
  apply List.ext_getElem?
  intro k
  have hk := (h k).symm.trans (h' k)
  cases hy : ys[k]? <;> cases hz : zs[k]? <;> simp_all

theorem eachBy_congr (h : ∀ k x, xs[k]? = some x → f k x = g k x) : EachBy f xs ys ↔ EachBy g xs ys := by
  have hmap : ∀ k : Nat, xs[k]?.map (f k) = xs[k]?.map (g k) := by
    intro k
    cases hx : xs[k]? with
    | none => rfl
    | some x => exact congrArg some (h k x hx)
  unfold EachBy
  simp only [hmap]

/-- A function that does not fail. -/
theorem eachBy_some {f : Nat → α → β} : EachBy (fun k x => some (f k x)) xs ys ↔ ys = xs.mapIdx f := by
  have hself : EachBy (fun k x => some (f k x)) xs (xs.mapIdx f) := by
    intro k
    rw [List.getElem?_mapIdx, Option.map_map]
    rfl
  constructor
  · intro h
    exact h.unique hself
  · intro h
    rw [h]
    exact hself

/-- Some list is the result exactly when no element fails. -/
theorem eachBy_exists : (∃ ys, EachBy f xs ys) ↔ ∀ k x, xs[k]? = some x → (f k x).isSome := by
  constructor
  · intro ⟨ys, h⟩ k x hx
    obtain ⟨y, -, hy⟩ := h.get hx
    rw [hy]
    rfl
  · intro h
    induction xs generalizing f with
    | nil => exact ⟨[], fun _ => rfl⟩
    | cons x xs ih =>
      obtain ⟨y, hy⟩ := Option.isSome_iff_exists.mp (h 0 x rfl)
      obtain ⟨ys, hys⟩ := ih fun k x' hx' => h (k + 1) x' hx'
      refine ⟨y :: ys, fun k => ?_⟩
      cases k with
      | zero => exact congrArg some hy
      | succ k => exact hys k

/-- A list that is its own result. -/
theorem eachBy_self_iff {f : Nat → α → Option α} : EachBy f xs xs ↔ ∀ k x, xs[k]? = some x → f k x = some x := by
  constructor
  · intro h k x hx
    obtain ⟨y, hy, hxy⟩ := h.get hx
    rw [hxy, ← hy, hx]
  · intro h k
    cases hx : xs[k]? with
    | none => rfl
    | some x => exact congrArg some (h k x hx)

/-- Two replacements one after the other. -/
theorem eachBy_bind {g : Nat → β → Option γ} {zs : List γ} :
    EachBy (fun k x => (f k x).bind (g k)) xs zs ↔ ∃ ys, EachBy f xs ys ∧ EachBy g ys zs := by
  constructor
  · intro h
    induction xs generalizing f g zs with
    | nil =>
      obtain rfl := List.eq_nil_of_length_eq_zero h.length
      exact ⟨[], fun _ => rfl, fun _ => rfl⟩
    | cons x xs ih =>
      obtain ⟨z, hz, hx⟩ := h.get List.getElem?_cons_zero
      obtain ⟨y, hy, hyz⟩ := Option.bind_eq_some_iff.mp hx
      cases zs with
      | nil => cases hz
      | cons z' zs =>
        obtain rfl : z' = z := Option.some.inj hz
        have hrest : EachBy (fun k x => (f (k + 1) x).bind (g (k + 1))) xs zs := fun k => h (k + 1)
        obtain ⟨ys, hf, hg⟩ := ih hrest
        refine ⟨y :: ys, fun k => ?_, fun k => ?_⟩
        · cases k with
          | zero => exact congrArg some hy
          | succ k => exact hf k
        · cases k with
          | zero => exact congrArg some hyz
          | succ k => exact hg k
  · intro ⟨ys, hf, hg⟩ k
    cases hx : xs[k]? with
    | none => rw [hg.get_none (hf.get_none hx)]; rfl
    | some x =>
      obtain ⟨y, hy, hfy⟩ := hf.get hx
      obtain ⟨z, hz, hgz⟩ := hg.get hy
      rw [hz, Option.map_some, Option.map_some]
      dsimp only
      rw [hfy, Option.bind_some, hgz]

theorem mapM_eq_some_iff {f : α → Option β} : xs.mapM f = some ys ↔ EachBy (fun _ => f) xs ys := by
  induction xs generalizing ys with
  | nil =>
    rw [List.mapM_nil]
    constructor
    · intro h
      obtain rfl := Option.some.inj h
      exact fun _ => rfl
    · intro h
      rw [List.eq_nil_of_length_eq_zero h.length]
      rfl
  | cons x xs ih =>
    rw [List.mapM_cons]
    constructor
    · intro h
      obtain ⟨y, hy, h⟩ := Option.bind_eq_some_iff.mp h
      obtain ⟨ys', hys, h⟩ := Option.bind_eq_some_iff.mp h
      obtain rfl := Option.some.inj h
      intro k
      cases k with
      | zero => exact congrArg some hy
      | succ k => exact ih.mp hys k
    · intro h
      obtain ⟨y, hy, hx⟩ := h.get List.getElem?_cons_zero
      cases ys with
      | nil => cases hy
      | cons y' ys =>
        obtain rfl : y' = y := Option.some.inj hy
        have hrest : xs.mapM f = some ys := ih.mpr fun k => h (k + 1)
        rw [hx, hrest]
        rfl

theorem mem_mapM {f : α → Option β} (h : xs.mapM f = some ys) {y : β} (hy : y ∈ ys) : ∃ x ∈ xs, f x = some y := by
  have heach := mapM_eq_some_iff.1 h
  obtain ⟨k, hk⟩ := List.getElem?_of_mem hy
  cases hx : xs[k]? with
  | none =>
    rw [heach.get_none hx] at hk
    cases hk
  | some x =>
    obtain ⟨y', hy', hfx⟩ := heach.get hx
    rw [hk] at hy'
    cases hy'
    exact ⟨x, List.mem_of_getElem? hx, hfx⟩

theorem mapM_of_forall {f : α → Option β} {g : α → β} (h : ∀ x ∈ xs, f x = some (g x)) : xs.mapM f = some (xs.map g) := by
  induction xs with
  | nil => rfl
  | cons x xs ih =>
    rw [List.mapM_cons, h x List.mem_cons_self, ih fun y hy => h y (List.mem_cons_of_mem x hy)]
    rfl

/-- A function that fails on no element. -/
theorem mapM_some {f : α → Option β} (h : xs.mapM f = some ys) (fallback : β) :
    ys = (xs.map fun x => (f x).getD fallback) ∧ ∀ x ∈ xs, f x = some ((f x).getD fallback) := by
  have heach := mapM_eq_some_iff.1 h
  have hall : ∀ x ∈ xs, f x = some ((f x).getD fallback) := by
    intro x hx
    obtain ⟨k, hk⟩ := List.getElem?_of_mem hx
    obtain ⟨y, -, hy⟩ := heach.get hk
    rw [hy]
    rfl
  refine ⟨heach.unique fun k => ?_, hall⟩
  rw [List.getElem?_map, Option.map_map]
  cases hk : xs[k]? with
  | none => rfl
  | some x => exact congrArg some (hall x (List.mem_of_getElem? hk))

end BitcoinSpoon.Loop
