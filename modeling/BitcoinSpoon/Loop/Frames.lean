/-
  BitcoinSpoon.Loop.Frames — blocks that are freed with the scope that tracks them.

  A scope that ends frees every block it tracks. What the innermost scope tracks already is
  not tracked once more, and what is freed is not freed again. So the open scopes can end
  exactly if no block is tracked twice and none that is tracked is freed (`close_iff`), and
  what is left then are the blocks that were live before (`close_live`). Nothing here names
  a program.
-/

import Mathlib.Data.List.Nodup
import Mathlib.Data.List.Perm.Lattice

namespace BitcoinSpoon.Loop

/-- The innermost scope is the first. -/
structure Frames (β : Type) where
  freed : List β
  scopes : List (List β)
  deriving DecidableEq, Repr

namespace Frames

variable {β : Type}

def push (f : Frames β) : Frames β := { f with scopes := [] :: f.scopes }

/-- No block is tracked twice, and none that is tracked is freed. -/
structure Sound (f : Frames β) : Prop where
  once : f.scopes.flatten.Nodup
  held : ∀ block ∈ f.scopes.flatten, block ∉ f.freed

/-- Neither tracked nor freed. -/
def Live (f : Frames β) (block : β) : Prop := block ∉ f.scopes.flatten ∧ block ∉ f.freed

theorem sound_push {f : Frames β} : f.push.Sound ↔ f.Sound := ⟨fun h => ⟨h.once, h.held⟩, fun h => ⟨h.once, h.held⟩⟩

theorem live_pop {freed scope : List β} {outer : List (List β)} {block : β} :
    Live ⟨scope.reverse ++ freed, outer⟩ block ↔ Live ⟨freed, scope :: outer⟩ block := by
  simp only [Live, List.flatten_cons, List.mem_append, List.mem_reverse, not_or]
  tauto

variable [DecidableEq β]

/-- A block is put into a list once. -/
def put (blocks : List β) (block : β) : Option (List β) := if block ∈ blocks then none else some (block :: blocks)

/-- Without a scope nothing is tracked. -/
def track (f : Frames β) (block : β) : Option (Frames β) :=
  match f.scopes with
  | [] => some f
  | scope :: outer => (put scope block).map fun scope => { f with scopes := scope :: outer }

def untrack (f : Frames β) (block : β) : Frames β :=
  match f.scopes with
  | [] => f
  | scope :: outer => { f with scopes := scope.erase block :: outer }

def free (f : Frames β) (block : β) : Option (Frames β) := (put f.freed block).map fun freed => { f with freed := freed }

/-- The innermost scope ends. -/
def pop (f : Frames β) : Option (Frames β) :=
  match f.scopes with
  | [] => none
  | scope :: outer => scope.foldlM free { f with scopes := outer }

/-- All of them end. -/
def close (f : Frames β) : Option (Frames β) := f.scopes.foldlM (fun f _ => f.pop) f

variable {f g : Frames β} {blocks scope freed : List β} {outer : List (List β)} {block : β}

/-- What is put in is new, and each once. -/
theorem put_all_iff {held all : List β} :
    blocks.foldlM put held = some all ↔ (blocks.Nodup ∧ ∀ b ∈ blocks, b ∉ held) ∧ all = blocks.reverse ++ held := by
  induction blocks generalizing held with
  | nil => simp [Option.pure_def, eq_comm]
  | cons block blocks ih =>
    rw [List.foldlM_cons, put]
    by_cases hheld : block ∈ held
    · rw [if_pos hheld]
      refine iff_of_false (fun h => (by cases h)) fun h => ?_
      exact h.1.2 block List.mem_cons_self hheld
    · rw [if_neg hheld, Option.bind_eq_bind, Option.bind_some, ih, List.nodup_cons, List.forall_mem_cons,
        List.reverse_cons, List.append_assoc, List.singleton_append]
      refine and_congr_left fun _ => ⟨?_, ?_⟩
      · intro h
        obtain ⟨hnodup, hrest⟩ := h
        exact ⟨⟨fun hmem => hrest block hmem List.mem_cons_self, hnodup⟩, hheld,
          fun b hb hmem => hrest b hb (List.mem_cons_of_mem _ hmem)⟩
      · intro h
        obtain ⟨⟨hblock, hnodup⟩, -, hrest⟩ := h
        refine ⟨hnodup, fun b hb hmem => ?_⟩
        rcases List.mem_cons.1 hmem with rfl | hmem
        · exact hblock hb
        · exact hrest b hb hmem

/-- A list inside a record is filled as the list is. -/
theorem put_all_within {op : Frames β → β → Option (Frames β)} {within : List β → Frames β}
    (hop : ∀ held block, op (within held) block = (put held block).map within) (blocks held : List β) :
    blocks.foldlM op (within held) = (blocks.foldlM put held).map within := by
  induction blocks generalizing held with
  | nil => rfl
  | cons block blocks ih =>
    rw [List.foldlM_cons, List.foldlM_cons, hop]
    cases put held block with
    | none => rfl
    | some held => exact ih held

/-! ## Ending scopes -/

theorem free_all_iff :
    blocks.foldlM free ⟨freed, outer⟩ = some g ↔
      (blocks.Nodup ∧ ∀ b ∈ blocks, b ∉ freed) ∧ g = ⟨blocks.reverse ++ freed, outer⟩ := by
  rw [put_all_within (fun held block => rfl : ∀ held block, free ⟨held, outer⟩ block = _) blocks freed,
    Option.map_eq_some_iff]
  constructor
  · intro h
    obtain ⟨all, hall, rfl⟩ := h
    obtain ⟨hnew, rfl⟩ := put_all_iff.1 hall
    exact ⟨hnew, rfl⟩
  · intro h
    obtain ⟨hnew, rfl⟩ := h
    exact ⟨_, put_all_iff.2 ⟨hnew, rfl⟩, rfl⟩

/-- The scopes end as one that tracks what they track. -/
theorem close_eq (freed : List β) (scopes : List (List β)) : close ⟨freed, scopes⟩ = scopes.flatten.foldlM free ⟨freed, []⟩ := by
  unfold close
  dsimp only
  induction scopes generalizing freed with
  | nil => rfl
  | cons scope outer ih =>
    rw [List.foldlM_cons, List.flatten_cons, List.foldlM_append]
    show (scope.foldlM free ⟨freed, outer⟩).bind _ = (scope.foldlM free ⟨freed, []⟩).bind _
    rw [put_all_within (fun held block => rfl : ∀ held block, free ⟨held, outer⟩ block = _) scope freed,
      put_all_within (fun held block => rfl : ∀ held block, free ⟨held, []⟩ block = _) scope freed]
    cases scope.foldlM put freed with
    | none => rfl
    | some freed => exact ih freed

theorem close_iff : f.close = some g ↔ f.Sound ∧ g = ⟨f.scopes.flatten.reverse ++ f.freed, []⟩ := by
  rw [close_eq f.freed f.scopes, free_all_iff]
  exact and_congr_left fun _ => ⟨fun h => ⟨h.1, h.2⟩, fun h => ⟨h.once, h.held⟩⟩

/-- The scopes can end, and the blocks are there afterwards. -/
theorem close_live : (∃ g, f.close = some g ∧ ∀ b ∈ blocks, b ∉ g.freed) ↔ f.Sound ∧ ∀ b ∈ blocks, f.Live b := by
  have hmem : ∀ b, b ∉ f.scopes.flatten.reverse ++ f.freed ↔ f.Live b := by
    intro b
    rw [List.mem_append, List.mem_reverse, not_or]
    rfl
  constructor
  · intro h
    obtain ⟨g, hclose, hblocks⟩ := h
    obtain ⟨hsound, rfl⟩ := close_iff.1 hclose
    exact ⟨hsound, fun b hb => (hmem b).1 (hblocks b hb)⟩
  · intro h
    exact ⟨_, close_iff.2 ⟨h.1, rfl⟩, fun b hb => (hmem b).2 (h.2 b hb)⟩

theorem Sound.pop (h : Sound ⟨freed, scope :: outer⟩) :
    Frames.pop ⟨freed, scope :: outer⟩ = some ⟨scope.reverse ++ freed, outer⟩ ∧ Sound ⟨scope.reverse ++ freed, outer⟩ := by
  obtain ⟨honce, hheld⟩ := h
  rw [List.flatten_cons] at honce hheld
  obtain ⟨hscope, houter, hdisjoint⟩ := List.nodup_append'.1 honce
  refine ⟨free_all_iff.2 ⟨⟨hscope, fun b hb => hheld b (List.mem_append_left _ hb)⟩, rfl⟩, houter, ?_⟩
  intro b hb hfreed
  rcases List.mem_append.1 hfreed with hfreed | hfreed
  · exact hdisjoint (List.mem_reverse.1 hfreed) hb
  · exact hheld b (List.mem_append_right _ hb) hfreed

theorem Sound.live_pop (h : f.Sound) (hpop : f.pop = some g) : g.Live block ↔ f.Live block := by
  obtain ⟨freed, scopes⟩ := f
  cases scopes with
  | nil => cases hpop
  | cons scope outer =>
    cases hpop.symm.trans h.pop.1
    exact Frames.live_pop

/-! ## Tracking -/

theorem untrack_live (h : f.Live block) : f.untrack block = f := by
  obtain ⟨freed, scopes⟩ := f
  cases scopes with
  | nil => rfl
  | cons scope outer =>
    have hmem : block ∉ scope := fun hmem => h.1 (List.mem_flatten.2 ⟨scope, List.mem_cons_self, hmem⟩)
    show (⟨freed, scope.erase block :: outer⟩ : Frames β) = _
    rw [List.erase_of_not_mem hmem]

theorem untrack_all_live (h : ∀ b ∈ blocks, f.Live b) : blocks.foldl untrack f = f := by
  induction blocks with
  | nil => rfl
  | cons block blocks ih =>
    rw [List.foldl_cons, untrack_live (h block List.mem_cons_self)]
    exact ih fun b hb => h b (List.mem_cons_of_mem _ hb)

theorem track_all_iff :
    blocks.foldlM track ⟨freed, scope :: outer⟩ = some g ↔
      (blocks.Nodup ∧ ∀ b ∈ blocks, b ∉ scope) ∧ g = ⟨freed, (blocks.reverse ++ scope) :: outer⟩ := by
  rw [put_all_within (fun held block => rfl : ∀ held block, track ⟨freed, held :: outer⟩ block = _) blocks scope,
    Option.map_eq_some_iff]
  constructor
  · intro h
    obtain ⟨all, hall, rfl⟩ := h
    obtain ⟨hnew, rfl⟩ := put_all_iff.1 hall
    exact ⟨hnew, rfl⟩
  · intro h
    obtain ⟨hnew, rfl⟩ := h
    exact ⟨_, put_all_iff.2 ⟨hnew, rfl⟩, rfl⟩

/-- In an open scope live blocks can be tracked, each once; what else is tracked spoils what
    the scopes hold. -/
theorem track_all_sound (hsound : f.Sound) (hscopes : f.scopes ≠ []) :
    (∃ g, blocks.foldlM track f = some g ∧ g.Sound) ↔ blocks.Nodup ∧ ∀ b ∈ blocks, f.Live b := by
  obtain ⟨freed, scopes⟩ := f
  cases scopes with
  | nil => exact absurd rfl hscopes
  | cons scope outer =>
    constructor
    · intro h
      obtain ⟨g, htrack, honce, hheld⟩ := h
      obtain ⟨⟨hnodup, -⟩, rfl⟩ := track_all_iff.1 htrack
      rw [List.flatten_cons, List.append_assoc] at honce hheld
      obtain ⟨-, -, hdisjoint⟩ := List.nodup_append'.1 honce
      refine ⟨hnodup, fun b hb => ⟨fun hmem => hdisjoint (List.mem_reverse.2 hb) hmem, ?_⟩⟩
      exact hheld b (List.mem_append_left _ (List.mem_reverse.2 hb))
    · intro h
      obtain ⟨hnodup, hlive⟩ := h
      refine ⟨_, track_all_iff.2 ⟨⟨hnodup, fun b hb hmem => ?_⟩, rfl⟩, ?_, ?_⟩
      · exact (hlive b hb).1 (List.mem_flatten.2 ⟨scope, List.mem_cons_self, hmem⟩)
      · rw [List.flatten_cons, List.append_assoc]
        refine List.nodup_append'.2 ⟨List.nodup_reverse.2 hnodup, hsound.once, fun b hb hmem => ?_⟩
        exact (hlive b (List.mem_reverse.1 hb)).1 hmem
      · intro b hb hfreed
        rw [List.flatten_cons, List.append_assoc] at hb
        rcases List.mem_append.1 hb with hb | hb
        · exact (hlive b (List.mem_reverse.1 hb)).2 hfreed
        · exact hsound.held b hb hfreed

/-- What stays live where blocks are tracked are the others. -/
theorem live_track_all (hscopes : f.scopes ≠ []) (h : blocks.foldlM track f = some g) :
    g.Live block ↔ f.Live block ∧ block ∉ blocks := by
  obtain ⟨freed, scopes⟩ := f
  cases scopes with
  | nil => exact absurd rfl hscopes
  | cons scope outer =>
    obtain ⟨-, rfl⟩ := track_all_iff.1 h
    simp only [Live, List.flatten_cons, List.mem_append, List.mem_reverse]
    tauto

theorem held_track_all (hscopes : f.scopes ≠ []) (h : blocks.foldlM track f = some g) :
    g.scopes ≠ [] ∧
      ∀ b, b ∈ g.scopes.flatten ∨ b ∈ g.freed ↔ b ∈ blocks ∨ b ∈ f.scopes.flatten ∨ b ∈ f.freed := by
  obtain ⟨freed, scopes⟩ := f
  cases scopes with
  | nil => exact absurd rfl hscopes
  | cons scope outer =>
    obtain ⟨-, rfl⟩ := track_all_iff.1 h
    refine ⟨List.cons_ne_nil _ _, fun b => ?_⟩
    simp only [List.flatten_cons, List.mem_append, List.mem_reverse]
    tauto

end Frames

end BitcoinSpoon.Loop
