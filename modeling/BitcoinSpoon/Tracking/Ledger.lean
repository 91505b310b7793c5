/-
  BitcoinSpoon.Tracking.Ledger — every operation keeps the ledger (`code/Data.c`).

  One lemma an operation: of a caller that keeps to what it owns it is not stopped, and the
  memory is afterwards as the ledger's own step says. `Owned.request` has them together.
-/

import BitcoinSpoon.Tracking.Ownership

namespace BitcoinSpoon.Allocations

open Loop

variable (alloc : Allocator) {m next : Memory} {l : Ledger} {bytes old length : Nat} {data block : Block} {datas : TrackStack}
  {levels : List TrackStack} {gone come : List Nat}

/-! ## The operations keep the ledger -/

/-- A step that moves a block of the callers. -/
theorem Owned.moves_loose (h : Owned m l) (hmoves : Moves m next gone come) {loose : List Nat} (hnull : 0 ∉ loose)
    (hcounts : ∀ b, b ≠ 0 → loose.count b + gone.count b = l.loose.count b + come.count b) :
    Owned next ⟨l.scopes, loose⟩ where
  apart := hmoves.apart
  scopes := by rw [Memory.scopes, hmoves.levels]; exact h.scopes
  blocks b hb := by
    have hblocks := h.blocks b hb
    have hmoved := hmoves.counts b hb
    have hloose := hcounts b hb
    rw [Memory.arrays, hmoves.trackStacks, hmoves.levels]
    rw [Memory.arrays] at hblocks
    dsimp only
    omega
  trackedNotNull := h.trackedNotNull
  looseNotNull := hnull
  top := by rw [hmoves.trackStacks, hmoves.levels]; exact h.top
  bare := by rw [hmoves.levels]; exact h.bare

/-- A step that moves a block and changes the current scope. -/
theorem Owned.moves_current (h : Owned m l) (hmoves : Moves m next gone come) (hlevels : m.levels = datas :: levels)
    {ptr : Nat} {tracked loose : List Nat} (htracked : 0 ∉ tracked) (hloose : 0 ∉ loose) (hbare : ptr = 0 → tracked = [])
    (hcounts : ∀ b, b ≠ 0 → [ptr].count b + tracked.count b + loose.count b + gone.count b =
      [datas.ptr].count b + datas.datas.count b + l.loose.count b + come.count b) :
    Owned { next with levels := ⟨ptr, tracked⟩ :: levels } ⟨tracked :: levels.map TrackStack.datas, loose⟩ := by
  have hscopes : l.scopes = datas.datas :: levels.map TrackStack.datas := by
    rw [← h.scopes, Memory.scopes, hlevels, List.map_cons]
  have hnull := h.trackedNotNull
  rw [hscopes, List.flatten_cons, List.mem_append, not_or] at hnull
  refine ⟨⟨hmoves.apart.once, hmoves.apart.notNull⟩, rfl, fun b hb => ?_, ?_, hloose, ?_, ?_⟩
  · have hblocks := h.blocks b hb
    have hmoved := hmoves.counts b hb
    have hchange := hcounts b hb
    simp only [Memory.arrays, hlevels, hscopes, List.map_cons, List.flatten_cons, List.count_append, List.count_cons,
      List.count_nil] at hblocks hmoved hchange ⊢
    rw [hmoves.trackStacks]
    omega
  · rw [List.flatten_cons, List.mem_append, not_or]
    exact ⟨htracked, hnull.2⟩
  · have htop := h.top
    rw [hlevels] at htop
    simpa [hmoves.trackStacks] using htop
  · intro outer hmem hptr
    rcases List.mem_cons.1 hmem with rfl | hmem
    · exact hbare hptr
    · exact h.bare outer (hlevels ▸ List.mem_cons_of_mem _ hmem) hptr

theorem Owned.dataUntrackAny (h : Owned m l) (bytes : Nat) :
    ∃ next, Allocations.dataUntrackAny bytes m = some next ∧ Owned next (l.untrack bytes) := by
  cases hscopes : l.scopes with
  | nil =>
    refine ⟨m, by rw [Allocations.dataUntrackAny, h.levels_nil hscopes], ?_⟩
    rwa [Ledger.untrack, hscopes]
  | cons current scopes =>
    obtain ⟨datas, levels, hlevels, rfl, rfl⟩ := h.levels_cons hscopes
    have hcurrent := h.tracked_once bytes
    have hnull := h.trackedNotNull
    rw [hscopes, List.flatten_cons] at hcurrent hnull
    rw [List.count_append] at hcurrent
    rw [List.mem_append, not_or] at hnull
    refine ⟨{ m with levels := ⟨datas.ptr, datas.datas.erase bytes⟩ :: levels }, ?_, ?_⟩
    · rw [Allocations.dataUntrackAny, hlevels]
      dsimp only
      rw [datasRemoveTake_once (by omega)]
      rfl
    have hbare : datas.ptr = 0 → datas.datas.erase bytes = [] := by
      intro hptr
      rw [h.bare datas (hlevels ▸ List.mem_cons_self) hptr]
      rfl
    have herase : 0 ∉ datas.datas.erase bytes := fun hzero => hnull.1 (List.mem_of_mem_erase hzero)
    rw [Ledger.untrack, hscopes]
    dsimp only
    by_cases hmem : bytes ∈ datas.datas
    · rw [if_pos hmem]
      have hne : bytes ≠ 0 := fun hzero => hnull.1 (hzero ▸ hmem)
      refine h.moves_current h.apart.refl_moves hlevels herase ?_ hbare fun b hb => ?_
      · simpa [Ne.symm hne] using h.looseNotNull
      · have hpos := List.count_pos_iff.2 hmem
        by_cases heq : bytes = b
        · subst heq
          rw [List.count_erase_self, List.count_cons_self]
          omega
        · rw [List.count_erase_of_ne (Ne.symm heq), List.count_cons_of_ne heq]
    · rw [if_neg hmem]
      have hsame : (⟨datas.datas :: levels.map TrackStack.datas, l.loose⟩ : Ledger) = l := by rw [← hscopes]
      rw [← hsame]
      rw [List.erase_of_not_mem hmem] at herase hbare ⊢
      exact h.moves_current h.apart.refl_moves hlevels herase h.looseNotNull hbare fun b hb => rfl

/-- A loose block is tracked by the current scope, if there is one. -/
theorem Owned.dataTrack (h : Owned m l) (hloose : bytes ≠ 0 → bytes ∈ l.loose) :
    ∃ next, Allocations.dataTrack alloc bytes m = some next ∧ Owned next (l.track bytes) := by
  cases hscopes : l.scopes with
  | nil =>
    refine ⟨m, ?_, by rwa [Ledger.track, hscopes]⟩
    rw [Allocations.dataTrack, h.levels_nil hscopes]
    exact ite_self _
  | cons current scopes =>
    rw [Ledger.track, hscopes]
    dsimp only
    by_cases hb : bytes = 0
    · rw [if_pos hb]
      exact ⟨m, if_pos hb, h⟩
    rw [if_neg hb]
    obtain ⟨datas, levels, hlevels, rfl, rfl⟩ := h.levels_cons hscopes
    have hpos := List.count_pos_iff.2 (hloose hb)
    have honce := h.once hb
    have hnull := h.trackedNotNull
    rw [hscopes, List.flatten_cons] at hnull honce
    rw [List.count_append] at honce
    rw [List.mem_append, not_or] at hnull
    have hnew : bytes ∉ datas.datas := List.count_eq_zero.1 (by omega)
    have harray : datas.ptr ≠ 0 → datas.ptr ∈ m.allocated := h.array_allocated (by simp [Memory.arrays, hlevels])
    obtain ⟨ptr, next, hrun, hne, hmoves⟩ := h.apart.datasAddRefFlexible alloc harray hnew
    refine ⟨{ next with levels := ⟨ptr, datas.datas ++ [bytes]⟩ :: levels }, ?_, ?_⟩
    · rw [Allocations.dataTrack, if_neg hb, hlevels]
      dsimp only
      rw [if_neg hnew, hrun]
      rfl
    · refine h.moves_current hmoves hlevels ?_ ?_ (fun hptr => absurd hptr hne) fun b hbn => ?_
      · simpa [Ne.symm hb] using hnull.1
      · exact fun hzero => h.looseNotNull (List.mem_of_mem_erase hzero)
      · rw [List.count_append]
        by_cases heq : bytes = b
        · subst heq
          rw [List.count_erase_self, List.count_singleton_self]
          omega
        · rw [List.count_erase_of_ne (Ne.symm heq), List.count_cons_of_ne heq, List.count_nil]
          omega

theorem Owned.untrack_null (h : Owned m l) : l.untrack 0 = l := by
  unfold Ledger.untrack
  split
  · rfl
  · rename_i current scopes hscopes
    have hnull := h.trackedNotNull
    rw [hscopes, List.flatten_cons, List.mem_append, not_or] at hnull
    exact if_neg hnull.1

/-- What is the caller's own is loose once it is not tracked. -/
theorem Owned.untrack_loose (h : Owned m l) (hmine : bytes ≠ 0 → Mine m bytes) (hb : bytes ≠ 0) :
    bytes ∈ (l.untrack bytes).loose := by
  rcases (h.mine (hmine hb)).2 with hloose | ⟨current, scopes, hscopes, hmem⟩
  · unfold Ledger.untrack
    split
    · exact hloose
    · split
      · exact List.mem_cons_self
      · exact hloose
  · rw [Ledger.untrack, hscopes]
    dsimp only
    rw [if_pos hmem]
    exact List.mem_cons_self

/-- A loose block is tracked by the scope around the current one. -/
theorem Owned.moves_outer (h : Owned m l) {inner : TrackStack} (hlevels : m.levels = inner :: datas :: levels) {ptr : Nat}
    (hmoves : Moves m next [datas.ptr] [ptr]) (hptr : ptr ≠ 0) (hloose : bytes ∈ l.loose) :
    Owned { next with levels := inner :: ⟨ptr, datas.datas ++ [bytes]⟩ :: levels }
      ⟨inner.datas :: (datas.datas ++ [bytes]) :: levels.map TrackStack.datas, l.loose.erase bytes⟩ := by
  have hscopes : l.scopes = inner.datas :: datas.datas :: levels.map TrackStack.datas := by
    rw [← h.scopes, Memory.scopes, hlevels, List.map_cons, List.map_cons]
  have hne : bytes ≠ 0 := fun hzero => h.looseNotNull (hzero ▸ hloose)
  have hnull := h.trackedNotNull
  rw [hscopes] at hnull
  refine ⟨⟨hmoves.apart.once, hmoves.apart.notNull⟩, rfl, fun b hb => ?_, ?_, ?_, ?_, ?_⟩
  · have hblocks := h.blocks b hb
    have hchange := hmoves.counts b hb
    have hcount : l.loose.count b = (l.loose.erase bytes).count b + [bytes].count b := by
      have hpos := List.count_pos_iff.2 hloose
      by_cases heq : bytes = b
      · subst heq
        rw [List.count_erase_self, List.count_singleton_self]
        omega
      · rw [List.count_erase_of_ne (Ne.symm heq), List.count_cons_of_ne heq, List.count_nil, Nat.add_zero]
    simp only [Memory.arrays, hlevels, hscopes, List.map_cons, List.flatten_cons, List.count_append, List.count_cons,
      List.count_nil] at hblocks hchange hcount ⊢
    rw [hmoves.trackStacks]
    omega
  · simpa [Ne.symm hne] using hnull
  · exact fun hzero => h.looseNotNull (List.mem_of_mem_erase hzero)
  · have htop := h.top
    rw [hlevels] at htop
    simpa [hmoves.trackStacks] using htop
  · intro stack hmem hzero
    rcases List.mem_cons.1 hmem with rfl | hmem
    · exact h.bare _ (hlevels ▸ List.mem_cons_self) hzero
    · rcases List.mem_cons.1 hmem with rfl | hmem
      · exact absurd hzero hptr
      · exact h.bare _ (hlevels ▸ List.mem_cons_of_mem _ (List.mem_cons_of_mem _ hmem)) hzero

theorem Owned.dataTranscend (h : Owned m l) (hmine : bytes ≠ 0 → Mine m bytes) :
    ∃ next, Allocations.dataTranscend alloc bytes m = some next ∧ Owned next (l.transcend bytes) := by
  by_cases hb : bytes = 0
  · subst hb
    refine ⟨m, if_pos rfl, ?_⟩
    rw [Ledger.transcend, h.untrack_null]
    split <;> exact h
  obtain ⟨middle, huntrack, hmiddle⟩ := h.dataUntrackAny bytes
  have hloose := h.untrack_loose hmine hb
  rw [Allocations.dataTranscend, if_neg hb, huntrack, Option.bind_eq_bind, Option.bind_some, Ledger.transcend]
  cases hscopes : (l.untrack bytes).scopes with
  | nil =>
    rw [hmiddle.levels_nil hscopes]
    exact ⟨middle, rfl, hmiddle⟩
  | cons current scopes =>
    obtain ⟨inner, levels, hlevels, rfl, rfl⟩ := hmiddle.levels_cons hscopes
    rw [hlevels]
    cases levels with
    | nil => exact ⟨middle, rfl, hmiddle⟩
    | cons datas levels =>
      have honce := hmiddle.once hb
      have hpos := List.count_pos_iff.2 hloose
      rw [hscopes] at honce
      have hnew : bytes ∉ datas.datas := by
        rw [← List.count_eq_zero]
        simp only [List.map_cons, List.flatten_cons, List.count_append] at honce
        omega
      have hmem : datas.ptr ∈ middle.arrays := by simp [Memory.arrays, hlevels]
      obtain ⟨ptr, next, hrun, hne, hmoves⟩ :=
        hmiddle.apart.datasAddRefFlexible alloc (hmiddle.array_allocated hmem) hnew
      -- its array is not among what the current scope tracks
      have harray : datas.ptr ∉ inner.datas := by
        intro htracked
        have hflat : datas.ptr ∈ (l.untrack bytes).scopes.flatten := by
          rw [hscopes]
          exact List.mem_append_left _ htracked
        have hzero : datas.ptr ≠ 0 := fun hzero => hmiddle.trackedNotNull (hzero ▸ hflat)
        have htwo := hmiddle.once hzero
        have hone := List.count_pos_iff.2 hmem
        have hother := List.count_pos_iff.2 hflat
        omega
      refine ⟨{ next with levels := inner :: ⟨ptr, datas.datas ++ [bytes]⟩ :: levels }, ?_, ?_⟩
      · dsimp only
        rw [hrun]
        exact if_neg fun hfound => harray hfound.2
      · rw [List.map_cons]
        dsimp only
        rw [if_neg hb]
        exact hmiddle.moves_outer hlevels hmoves hne hloose

theorem Owned.count (h : Owned m l) (change : Int) : Owned (m.count change) l :=
  ⟨⟨h.apart.once, h.apart.notNull⟩, h.scopes, h.blocks, h.trackedNotNull, h.looseNotNull, h.top, h.bare⟩

theorem Owned.trackedCount_le (h : Owned m l) (b : Nat) : trackedCount b m ≤ 1 := by
  unfold trackedCount
  split
  · exact Nat.zero_le _
  · rename_i datas levels hlevels
    have honce := h.tracked_once b
    rw [← h.scopes, Memory.scopes, hlevels, List.map_cons, List.flatten_cons, List.count_append] at honce
    omega

theorem dataUntrackAny_once (h : trackedCount bytes m ≤ 1) : dataUntrackAny bytes m = some (dataUntrack bytes m) := by
  unfold trackedCount at h
  cases hlevels : m.levels with
  | nil => rw [dataUntrackAny, dataUntrack, hlevels]
  | cons current levels =>
    rw [hlevels] at h
    rw [dataUntrackAny, dataUntrack, hlevels]
    dsimp only
    rw [datasRemoveTake_once h]
    rfl

theorem Owned.dataFree (h : Owned m l) (hmine : data.bytes ≠ 0 → Mine m data.bytes) :
    ∃ next, Allocations.dataFree data m = some next ∧ Owned next (l.free data.bytes) := by
  have honce := h.trackedCount_le data.bytes
  obtain ⟨middle, huntrack, hmiddle⟩ := h.dataUntrackAny data.bytes
  rw [dataUntrackAny_once honce] at huntrack
  obtain rfl := Option.some.inj huntrack
  have hloose : data.bytes ≠ 0 → data.bytes ∈ (l.untrack data.bytes).loose := h.untrack_loose hmine
  rw [Allocations.dataFree, dataFreeFlexible, if_neg (Nat.not_lt.2 honce), Ledger.free]
  dsimp only
  rw [if_pos rfl]
  by_cases hb : data.bytes = 0
  · rw [hb] at hmiddle ⊢
    rw [List.erase_of_not_mem hmiddle.looseNotNull, if_neg (not_not.2 rfl)]
    exact ⟨_, if_pos rfl, hmiddle⟩
  · rw [if_pos hb]
    have hcounted := hmiddle.count (-1)
    obtain ⟨next, hrun, hmoves⟩ := hcounted.apart.free fun _ => hcounted.loose_allocated (hloose hb)
    refine ⟨next, hrun, hcounted.moves_loose hmoves ?_ fun b hbn => ?_⟩
    · exact fun hzero => hcounted.looseNotNull (List.mem_of_mem_erase hzero)
    · have hpos := List.count_pos_iff.2 (hloose hb)
      by_cases heq : data.bytes = b
      · subst heq
        rw [List.count_erase_self, List.count_singleton_self, List.count_nil]
        omega
      · rw [List.count_erase_of_ne (Ne.symm heq), List.count_cons_of_ne heq]

/-- A new block is tracked by the current scope. -/
theorem Owned.create (h : Owned m l) (hmoves : Moves m next [] [bytes]) (hb : bytes ≠ 0) :
    ∃ last, Allocations.dataTrack alloc bytes next = some last ∧ Owned last (l.create bytes) := by
  have hnext : Owned next ⟨l.scopes, bytes :: l.loose⟩ := by
    refine h.moves_loose hmoves ?_ fun b hbn => ?_
    · simpa [Ne.symm hb] using h.looseNotNull
    · rw [List.count_nil, List.count_cons, List.count_cons, List.count_nil]
      omega
  obtain ⟨last, hrun, hlast⟩ := hnext.dataTrack alloc (fun _ : bytes ≠ 0 => List.mem_cons_self)
  refine ⟨last, hrun, ?_⟩
  have hcreate : (⟨l.scopes, bytes :: l.loose⟩ : Ledger).track bytes = l.create bytes := by
    unfold Ledger.track Ledger.create
    cases hscopes : l.scopes with
    | nil => rfl
    | cons current scopes =>
      dsimp only
      rw [if_neg hb, List.erase_cons_head]
  rwa [hcreate] at hlast

theorem Owned.dataNew (h : Owned m l) (length : Nat) :
    ∃ block next, Allocations.dataNew alloc length m = some (block, next) ∧ Owned next (l.create block.bytes) := by
  obtain ⟨hmoves, hne⟩ := h.apart.malloc alloc
  obtain ⟨next, hrun, hnext⟩ := h.create alloc (hmoves.count 1) hne
  exact ⟨⟨(m.malloc alloc).1, length⟩, next, by rw [Allocations.dataNew]; exact congrArg (Option.map _) hrun, hnext⟩

/-! ## Resizing -/

theorem replaceData_none {datas : List Nat} (h : old ∉ datas) : replaceData old bytes datas = datas := by
  refine (List.map_congr_left fun data hmem => ?_).trans (List.map_id' datas)
  have hne : data ≠ old := fun heq => h (heq ▸ hmem)
  exact if_neg hne

theorem count_replaceData {datas : List Nat} (hmem : old ∈ datas) (honce : datas.count old ≤ 1) (b : Nat) :
    (replaceData old bytes datas).count b + [old].count b = datas.count b + [bytes].count b := by
  obtain ⟨pre, post, rfl⟩ := List.append_of_mem hmem
  have hpre : old ∉ pre := by
    rw [← List.count_eq_zero]
    simp only [List.count_append, List.count_cons_self] at honce
    omega
  have hpost : old ∉ post := by
    rw [← List.count_eq_zero]
    simp only [List.count_append, List.count_cons_self] at honce
    omega
  have hreplaced : replaceData old bytes (pre ++ old :: post) = pre ++ bytes :: post := by
    rw [replaceData, List.map_append, List.map_cons, if_pos rfl]
    exact congrArg₂ _ (replaceData_none hpre) (congrArg _ (replaceData_none hpost))
  rw [hreplaced]
  simp only [List.count_append, List.count_cons, List.count_nil]
  omega

theorem replaceData_self (datas : List Nat) : replaceData old old datas = datas := by
  refine (List.map_congr_left fun data _ => ?_).trans (List.map_id' datas)
  split
  · rename_i heq
    exact heq.symm
  · rfl

theorem not_mem_replaceData {datas : List Nat} (h : 0 ∉ datas) (hb : bytes ≠ 0) : 0 ∉ replaceData old bytes datas := by
  intro hmem
  obtain ⟨data, hdata, heq⟩ := List.mem_map.1 hmem
  split at heq
  · exact hb heq
  · exact h (heq ▸ hdata)

theorem dataReplaceTrack_self (m : Memory) : dataReplaceTrack old old m = m := by
  unfold dataReplaceTrack
  split
  · rfl
  · rename_i current levels hlevels
    split
    · have hself : (current.datas.map fun data => if data = old then old else data) = current.datas := replaceData_self _
      rw [hself, ← hlevels]
    · rfl

/-- A block of the caller's own that has moved. -/
theorem Owned.move (h : Owned m l) (hmine : Mine m old) (hmoves : Moves m next [old] [bytes]) (hb : bytes ≠ 0) :
    Owned (dataReplaceTrack old bytes next) (l.move old bytes) := by
  obtain ⟨hold, hplace⟩ := h.mine hmine
  have honce := h.once hold
  have hlooseNotNull : 0 ∉ replaceData old bytes l.loose := not_mem_replaceData h.looseNotNull hb
  by_cases hloose : old ∈ l.loose
  · have hpos := List.count_pos_iff.2 hloose
    have hcurrent : old ∉ l.scopes.flatten := List.count_eq_zero.1 (by omega)
    have hnext : Owned next ⟨l.scopes, replaceData old bytes l.loose⟩ :=
      h.moves_loose hmoves hlooseNotNull fun b _ => count_replaceData hloose (h.loose_once old) b
    unfold Ledger.move dataReplaceTrack
    cases hscopes : l.scopes with
    | nil =>
      rw [hscopes] at hnext
      rw [hmoves.levels, h.levels_nil hscopes]
      exact hnext
    | cons current scopes =>
      obtain ⟨datas, levels, hlevels, rfl, rfl⟩ := h.levels_cons hscopes
      rw [hscopes] at hnext hcurrent
      have hnot : old ∉ datas.datas := fun hmem => hcurrent (List.mem_append_left _ hmem)
      rw [hmoves.levels, hlevels]
      dsimp only
      rw [if_neg hnot, replaceData_none hnot]
      exact hnext
  · obtain ⟨current, scopes, hscopes, hmem⟩ := hplace.resolve_left hloose
    obtain ⟨datas, levels, hlevels, rfl, rfl⟩ := h.levels_cons hscopes
    have hnull := h.trackedNotNull
    rw [hscopes, List.flatten_cons, List.mem_append, not_or] at hnull
    have hcount := h.tracked_once old
    rw [hscopes, List.flatten_cons, List.count_append] at hcount
    rw [Ledger.move, hscopes, dataReplaceTrack, hmoves.levels, hlevels, replaceData_none hloose]
    dsimp only
    rw [if_pos hmem]
    refine h.moves_current hmoves hlevels (not_mem_replaceData hnull.1 hb) h.looseNotNull (fun hptr => ?_) fun b _ => ?_
    · rw [h.bare datas (hlevels ▸ List.mem_cons_self) hptr]
      rfl
    · have hreplaced := @count_replaceData bytes old datas.datas hmem (by omega) b
      rw [replaceData] at hreplaced
      omega

theorem Owned.dataResize (h : Owned m l) (hmay : MayResize m data length) :
    ∃ block next, Allocations.dataResize alloc data length m = some (block, next) ∧
      Owned next (l.resize data length block.bytes) := by
  unfold Allocations.dataResize Ledger.resize
  by_cases hsame : data.length = length
  · refine ⟨data, m, ?_, by rwa [if_pos (Or.inl hsame)]⟩
    rw [resizeBytes, if_pos hsame]
    exact if_pos rfl
  by_cases hnone : length = 0
  · have hb : data.bytes = 0 := by
      by_contra hb
      exact hsame ((hmay.notEmptied hb hnone).trans hnone.symm)
    refine ⟨⟨0, 0⟩, m, ?_, by rwa [if_pos (Or.inr hnone)]⟩
    rw [resizeBytes, if_neg hsame, if_pos hnone, Memory.free, if_pos hb]
    exact if_pos hb
  simp only [hsame, hnone, or_self, if_false]
  obtain ⟨moved, next, hrun, hne, hmoves⟩ :=
    h.apart.resizeBytes alloc (fun hb => (hmay.mine hb).allocated) hsame hnone
  rw [hrun, Option.bind_eq_bind, Option.bind_some]
  dsimp only
  by_cases hb : data.bytes = 0
  · rw [hb] at hmoves
    obtain ⟨last, htrack, hlast⟩ := h.create alloc hmoves.of_null hne
    refine ⟨⟨moved, length⟩, last, ?_, by rwa [if_pos hb]⟩
    rw [if_neg (hb ▸ hne.symm), if_pos hb, htrack]
    rfl
  · have hmoved := h.move (hmay.mine hb) hmoves hne
    refine ⟨⟨moved, length⟩, dataReplaceTrack data.bytes moved next, ?_, by rwa [if_neg hb]⟩
    by_cases heq : data.bytes = moved
    · rw [if_pos heq, heq, dataReplaceTrack_self]
    · rw [if_neg heq, if_neg hb]

/-! ## Scopes begin and end -/

theorem Owned.dataTrackPush (h : Owned m l) : ∃ next, Allocations.dataTrackPush alloc m = some next ∧ Owned next l.push := by
  obtain ⟨bytes, next, hrun, hne, hmoves⟩ := h.apart.reallocf alloc (h.array_allocated List.mem_cons_self)
  have hgrown : Moves m (if m.trackStacks = 0 then next.count 1 else next) [m.trackStacks] [bytes] := by
    split
    · exact hmoves.count 1
    · exact hmoves
  refine ⟨_, by rw [Allocations.dataTrackPush, hrun]; rfl, ?_⟩
  dsimp only
  generalize (if m.trackStacks = 0 then next.count 1 else next) = grown at hgrown
  refine ⟨⟨hgrown.apart.once, hgrown.apart.notNull⟩, ?_, fun b hb => ?_, h.trackedNotNull, h.looseNotNull, ?_, ?_⟩
  · show [] :: grown.levels.map TrackStack.datas = _
    rw [hgrown.levels]
    exact congrArg _ h.scopes
  · have hblocks := h.blocks b hb
    have hchange := hgrown.counts b hb
    simp only [Memory.arrays, Ledger.push, hgrown.levels, List.map_cons, List.flatten_cons, List.nil_append,
      List.count_cons, List.count_nil, beq_iff_eq, Ne.symm hb, if_false] at hblocks hchange ⊢
    omega
  · exact iff_of_false hne (List.cons_ne_nil _ _)
  · intro datas hmem hptr
    rcases List.mem_cons.1 hmem with rfl | hmem
    · rfl
    · rw [hgrown.levels] at hmem
      exact h.bare datas hmem hptr

theorem Moves.trackedCount (h : Moves m next gone come) (b : Nat) : trackedCount b next = trackedCount b m := by
  rw [Allocations.trackedCount, Allocations.trackedCount, h.levels]

/-- What a scope tracks is freed. -/
theorem Apart.free_tracked {tracked : List Nat} (h : Apart m) (hcount : ∀ b, trackedCount b m ≤ 1) (hnull : 0 ∉ tracked)
    (hfree : ∀ b, tracked.count b ≤ m.allocated.count b) :
    ∃ next, tracked.foldlM (fun m bytes => dataFreeFlexible bytes false m) m = some next ∧ Moves m next tracked [] := by
  induction tracked generalizing m with
  | nil => exact ⟨m, rfl, h.refl_moves⟩
  | cons bytes tracked ih =>
    rw [List.mem_cons, not_or] at hnull
    have hmem : bytes ∈ m.allocated := by
      have hfirst := hfree bytes
      rw [List.count_cons_self] at hfirst
      exact List.count_pos_iff.1 (by omega)
    have hcounted := h.refl_moves.count (-1)
    obtain ⟨freed, hrun, hmoves⟩ := hcounted.apart.free fun _ => hmem
    have hfreed : Moves m freed [bytes] [] := hcounted.trans hmoves
    have hrest : ∀ b, tracked.count b ≤ freed.allocated.count b := by
      intro b
      by_cases hb : b = 0
      · rw [hb, List.count_eq_zero.2 hnull.2]
        exact Nat.zero_le _
      · have hchange := hfreed.counts b hb
        have hbefore := hfree b
        rw [List.count_cons, List.count_nil] at hchange
        rw [List.count_cons] at hbefore
        omega
    obtain ⟨next, hnext, hmoved⟩ := ih hfreed.apart (fun b => hfreed.trackedCount b ▸ hcount b) hnull.2 hrest
    refine ⟨next, ?_, hfreed.trans hmoved⟩
    have hstep : dataFreeFlexible bytes false m = some freed := by
      rw [dataFreeFlexible, if_neg (Nat.not_lt.2 (hcount bytes))]
      simpa [Ne.symm hnull.1] using hrun
    rw [List.foldlM_cons, hstep]
    exact hnext

theorem dataUntrack_none (h : trackedCount bytes m = 0) : dataUntrack bytes m = m := by
  unfold trackedCount at h
  unfold dataUntrack
  split
  · rfl
  · rename_i current levels hlevels
    rw [hlevels] at h
    rw [List.erase_of_not_mem (List.count_eq_zero.1 h), ← hlevels]

/-- The current scope and its track stack are freed. -/
theorem Owned.datasFreeFlexible (h : Owned m l) (hlevels : m.levels = datas :: levels) :
    ∃ next, Allocations.datasFreeFlexible datas m = some next ∧ Moves m next (datas.datas ++ [datas.ptr]) [] := by
  have hscopes : l.scopes = datas.datas :: levels.map TrackStack.datas := by
    rw [← h.scopes, Memory.scopes, hlevels, List.map_cons]
  have hnull := h.trackedNotNull
  rw [hscopes, List.flatten_cons, List.mem_append, not_or] at hnull
  by_cases hptr : datas.ptr = 0
  · refine ⟨m, if_pos hptr, ?_⟩
    rw [h.bare datas (hlevels ▸ List.mem_cons_self) hptr, hptr]
    exact h.apart.refl_moves.to_null
  have hfree : ∀ b, datas.datas.count b ≤ m.allocated.count b := by
    intro b
    by_cases hb : b = 0
    · rw [hb, List.count_eq_zero.2 hnull.1]
      exact Nat.zero_le _
    · rw [h.blocks b hb, hscopes, List.flatten_cons, List.count_append]
      omega
  obtain ⟨freed, hrun, hfreed⟩ := h.apart.free_tracked h.trackedCount_le hnull.1 hfree
  -- the track stack itself is tracked nowhere and still there
  have hblocks := h.blocks datas.ptr hptr
  have honce := h.apart.once datas.ptr
  have harray : 0 < m.arrays.count datas.ptr := List.count_pos_iff.2 (by simp [Memory.arrays, hlevels])
  rw [hscopes, List.flatten_cons, List.count_append] at hblocks
  have hchange := hfreed.counts datas.ptr hptr
  rw [List.count_nil] at hchange
  have hnone : trackedCount datas.ptr freed = 0 := by
    rw [hfreed.trackedCount, trackedCount, hlevels]
    dsimp only
    omega
  have hcounted := hfreed.count (-1)
  obtain ⟨next, hlast, hmoves⟩ := hcounted.apart.free fun _ : datas.ptr ≠ 0 => List.count_pos_iff.1 (by
    show 0 < freed.allocated.count datas.ptr
    omega)
  refine ⟨next, ?_, by simpa using hcounted.trans hmoves⟩
  rw [Allocations.datasFreeFlexible, if_neg hptr, Option.bind_eq_bind, hrun, Option.bind_some, dataFreeFlexible,
    if_neg (by omega), if_pos rfl, dataUntrack_none hnone]
  dsimp only
  rw [if_pos hptr]
  exact hlast

theorem Owned.dataTrackPop (h : Owned m l) (hscopes : l.scopes ≠ []) :
    ∃ next, Allocations.dataTrackPop alloc m = some next ∧ Owned next l.pop := by
  obtain ⟨current, scopes, hcons⟩ := List.exists_cons_of_ne_nil hscopes
  obtain ⟨datas, levels, hlevels, rfl, rfl⟩ := h.levels_cons hcons
  obtain ⟨freed, hrun, hfreed⟩ := h.datasFreeFlexible hlevels
  have htop : m.trackStacks ≠ 0 := fun hzero => List.cons_ne_nil _ _ (hlevels ▸ h.top.1 hzero)
  have htracked := h.trackedNotNull
  rw [hcons, List.flatten_cons, List.mem_append, not_or] at htracked
  have hmem : m.trackStacks ∈ freed.allocated := by
    have hblocks := h.blocks m.trackStacks htop
    have honce := h.apart.once m.trackStacks
    have hchange := hfreed.counts m.trackStacks htop
    simp only [Memory.arrays, hlevels, hcons, List.map_cons, List.flatten_cons, List.count_append, List.count_cons_self,
      List.count_cons, List.count_nil] at hblocks hchange
    exact List.count_pos_iff.1 (by omega)
  have hpop : ∀ {next : Memory} {come : List Nat} (stackArray : Nat), Moves freed next [m.trackStacks] come →
      (∀ b, b ≠ 0 → [stackArray].count b = come.count b) → (stackArray = 0 ↔ levels = []) →
      Owned { next with trackStacks := stackArray, levels := levels } l.pop := by
    intro next come stackArray hmoves hstacks hempty
    have hall := hfreed.trans hmoves
    refine ⟨⟨hall.apart.once, hall.apart.notNull⟩, ?_, fun b hb => ?_, ?_, h.looseNotNull, hempty, fun datas hmem => ?_⟩
    · rw [Ledger.pop, hcons]
      rfl
    · have hblocks := h.blocks b hb
      have hchange := hall.counts b hb
      have hcome := hstacks b hb
      simp only [Memory.arrays, Ledger.pop, hlevels, hcons, List.tail_cons, List.map_cons, List.flatten_cons, List.nil_append,
        List.count_append, List.count_cons, List.count_nil] at hblocks hchange hcome ⊢
      omega
    · rw [Ledger.pop, hcons]
      exact htracked.2
    · exact h.bare datas (hlevels ▸ List.mem_cons_of_mem _ hmem)
  rw [Allocations.dataTrackPop, hlevels]
  dsimp only
  rw [hrun, Option.bind_eq_bind, Option.bind_some, hfreed.trackStacks, if_neg htop]
  by_cases hlast : levels = []
  · have hcounted := hfreed.apart.refl_moves.count (-1)
    obtain ⟨next, hfree, hmoves⟩ := hcounted.apart.free fun _ => hmem
    refine ⟨{ next with trackStacks := 0, levels := [] }, by rw [if_pos hlast, hfree]; rfl, ?_⟩
    have hnext := hpop 0 (hcounted.trans hmoves) (fun b hb => ?_) (iff_of_true rfl hlast)
    · rwa [hlast] at hnext
    · rw [List.count_cons_of_ne (Ne.symm hb)]
      rfl
  · obtain ⟨bytes, next, hrealloc, hne, hmoves⟩ := hfreed.apart.reallocf alloc fun _ => hmem
    refine ⟨{ next with trackStacks := bytes, levels := levels }, by rw [if_neg hlast, hrealloc]; rfl, ?_⟩
    exact hpop bytes hmoves (fun b _ => rfl) (iff_of_false hne hlast)

theorem Owned.dtPop (h : Owned m l) (hscopes : l.scopes ≠ []) (hmine : bytes ≠ 0 → Mine m bytes) :
    ∃ next, Allocations.dtPop alloc bytes m = some next ∧ Owned next (l.dtPop bytes) := by
  obtain ⟨untracked, huntrack, huntracked⟩ := h.dataUntrackAny bytes
  have hleft : (l.untrack bytes).scopes ≠ [] := by
    obtain ⟨current, scopes, hcons⟩ := List.exists_cons_of_ne_nil hscopes
    rw [Ledger.untrack, hcons]
    dsimp only
    split
    · exact List.cons_ne_nil _ _
    · rw [hcons]
      exact List.cons_ne_nil _ _
  obtain ⟨popped, hpop, hpopped⟩ := huntracked.dataTrackPop alloc hleft
  have hloose : bytes ≠ 0 → bytes ∈ (l.untrack bytes).pop.loose := h.untrack_loose hmine
  obtain ⟨next, htrack, hnext⟩ := hpopped.dataTrack alloc hloose
  refine ⟨next, ?_, hnext⟩
  rw [Allocations.dtPop, huntrack, Option.bind_eq_bind, Option.bind_some, hpop, Option.bind_some, htrack]

/-! ## The request -/

/-- What is resized is not another block. -/
theorem Ledger.mem_resize {b : Nat} (hmem : b ∈ l.scopes.flatten ∨ b ∈ l.loose) (hne : b ≠ data.bytes) :
    b ∈ (l.resize data length bytes).scopes.flatten ∨ b ∈ (l.resize data length bytes).loose := by
  have hkeep : ∀ datas : List Nat, b ∈ datas → b ∈ replaceData data.bytes bytes datas := fun datas h =>
    List.mem_map.2 ⟨b, h, if_neg hne⟩
  unfold Ledger.resize Ledger.create Ledger.move
  cases hscopes : l.scopes with
  | nil =>
    rw [hscopes, List.flatten_nil] at hmem
    have hloose := hmem.resolve_left List.not_mem_nil
    split
    · exact Or.inr hloose
    · split
      · exact Or.inr (List.mem_cons_of_mem _ hloose)
      · exact Or.inr (hkeep _ hloose)
  | cons current scopes =>
    rw [hscopes, List.flatten_cons, List.mem_append] at hmem
    split
    · rwa [hscopes, List.flatten_cons, List.mem_append]
    · split
      · simp only [List.flatten_cons, List.mem_append]
        tauto
      · simp only [List.flatten_cons, List.mem_append]
        rcases hmem with (hcurrent | houter) | hloose
        · exact Or.inl (Or.inl (hkeep _ hcurrent))
        · exact Or.inl (Or.inr houter)
        · exact Or.inr (hkeep _ hloose)

theorem Owned.dataAppend {first second : Block} (h : Owned m l) (hmay : MayResize m first (first.length + second.length))
    (hlength : first.length + second.length < 2 ^ 32)
    (hsecond : second.length ≠ 0 → second.bytes ∈ m.allocated ∧ second.bytes ∉ m.arrays ∧ second.bytes ≠ first.bytes) :
    ∃ block next, Allocations.dataAppend alloc first second m = some (block, next) ∧
      Owned next (l.resize first (first.length + second.length) block.bytes) := by
  obtain ⟨block, next, hrun, hnext⟩ := h.dataResize alloc hmay
  refine ⟨block, next, ?_, hnext⟩
  rw [Allocations.dataAppend, Nat.mod_eq_of_lt hlength, hrun, Option.bind_eq_bind, Option.bind_some]
  dsimp only
  rw [if_neg (by rw [dataResize_length hrun]; exact Nat.lt_irrefl _)]
  refine if_neg ?_
  rintro ⟨hsome, hgone⟩
  obtain ⟨hallocated, harray, hne⟩ := hsecond hsome
  have hb : second.bytes ≠ 0 := fun hzero => h.apart.notNull (hzero ▸ hallocated)
  have hplace : second.bytes ∈ l.scopes.flatten ∨ second.bytes ∈ l.loose := by
    have hblocks := h.blocks second.bytes hb
    have hpos := List.count_pos_iff.2 hallocated
    rw [List.count_eq_zero.2 harray] at hblocks
    rw [← List.count_pos_iff, ← List.count_pos_iff (l := l.loose)]
    omega
  have hstill : second.bytes ∈ (l.resize first (first.length + second.length) block.bytes).scopes.flatten ∨ _ :=
    Ledger.mem_resize hplace hne
  rcases hstill with htracked | hloose
  · exact hgone (hnext.tracked_allocated htracked)
  · exact hgone (hnext.loose_allocated hloose)

/-- A request of a caller that keeps to what it owns is met, and the ledger says how. -/
theorem Owned.request {request : Request} (h : Owned m l) (hrespects : Respects m request) :
    ∃ bytes next, m.request alloc request = some next ∧ Owned next (l.step bytes request) := by
  have hlevels : m.levels ≠ [] → l.scopes ≠ [] := by
    intro hlevels hscopes
    exact hlevels (h.levels_nil hscopes)
  cases request with
  | basic operation =>
    cases operation with
    | dataNew length =>
      obtain ⟨block, next, hrun, hnext⟩ := h.dataNew alloc length
      exact ⟨block.bytes, next, congrArg (Option.map Prod.snd) hrun, hnext⟩
    | dataResize data length =>
      obtain ⟨block, next, hrun, hnext⟩ := h.dataResize alloc hrespects
      exact ⟨block.bytes, next, congrArg (Option.map Prod.snd) hrun, hnext⟩
    | dataAppend first second =>
      obtain ⟨hmay, hlength, hsecond⟩ := hrespects
      obtain ⟨block, next, hrun, hnext⟩ := h.dataAppend alloc hmay hlength hsecond
      exact ⟨block.bytes, next, congrArg (Option.map Prod.snd) hrun, hnext⟩
    | dataDelete data start length =>
      by_cases hb : data.bytes = 0
      · refine ⟨0, m, ?_, ?_⟩
        · exact congrArg (Option.map Prod.snd) (if_pos hb)
        · rwa [Ledger.step, if_pos hb]
      · obtain ⟨hinside, hmay⟩ := hrespects hb
        obtain ⟨block, next, hrun, hnext⟩ := h.dataResize alloc hmay
        refine ⟨block.bytes, next, ?_, by rwa [Ledger.step, if_neg hb]⟩
        rw [Memory.request, Memory.step, dataDelete, if_neg hb, if_neg (Nat.not_lt.2 hinside), hrun]
        rfl
    | dataTrackPush =>
      obtain ⟨next, hrun, hnext⟩ := h.dataTrackPush alloc
      exact ⟨0, next, hrun, hnext⟩
    | dataTrackPop =>
      obtain ⟨next, hrun, hnext⟩ := h.dataTrackPop alloc (hlevels hrespects)
      exact ⟨0, next, hrun, hnext⟩
    | dataFree data =>
      obtain ⟨next, hrun, hnext⟩ := h.dataFree hrespects
      exact ⟨0, next, hrun, hnext⟩
  | dataNewUntracked length =>
    obtain ⟨hmoves, hne⟩ := h.apart.malloc alloc
    refine ⟨(m.malloc alloc).1, _, rfl, (h.moves_loose (hmoves.count 1) ?_ fun b _ => ?_)⟩
    · simpa [Ne.symm hne] using h.looseNotNull
    · rw [List.count_nil, List.count_cons, List.count_cons, List.count_nil]
      omega
  | dataTrack bytes =>
    have hloose : bytes ≠ 0 → bytes ∈ l.loose := by
      intro hb
      obtain ⟨hmine, huntracked⟩ := hrespects hb
      rw [h.scopes] at huntracked
      refine (h.mine hmine).2.resolve_right ?_
      rintro ⟨current, scopes, hscopes, hmem⟩
      exact huntracked (hscopes ▸ List.mem_append_left _ hmem)
    obtain ⟨next, hrun, hnext⟩ := h.dataTrack alloc hloose
    exact ⟨0, next, hrun, hnext⟩
  | dataUntrack bytes =>
    obtain ⟨next, hrun, hnext⟩ := h.dataUntrackAny bytes
    exact ⟨0, next, hrun, hnext⟩
  | dataTranscend bytes =>
    obtain ⟨next, hrun, hnext⟩ := h.dataTranscend alloc hrespects
    exact ⟨0, next, hrun, hnext⟩
  | dtPop bytes =>
    obtain ⟨hsome, hmine⟩ := hrespects
    obtain ⟨next, hrun, hnext⟩ := h.dtPop alloc (hlevels hsome) hmine
    exact ⟨0, next, hrun, hnext⟩

end BitcoinSpoon.Allocations
