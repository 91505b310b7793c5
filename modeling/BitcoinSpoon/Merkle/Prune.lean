/-
  BitcoinSpoon.Merkle.Prune — the partial tree that shows some leaves of a whole one.

  `build` opens every node with a wanted leaf below it and gives the hash of the others, as
  BIP37 has it. It knows the width of each level, `read` does not: where a node has no
  right child, `read` asks for one all the same, and finds the bits at zero or at an end
  and the hashes at an end. That is so because such a node is the last of its level and
  nothing is written behind it (`read_edge`). Nothing here names a program.
-/

import BitcoinSpoon.Merkle.Whole

namespace BitcoinSpoon.Merkle

variable {α : Type} (join : Option α → Option α → α) (leaves : List α) (wanted : Nat → Bool)

def width (height : Nat) : Nat := (leaves.length + 2 ^ height - 1) / 2 ^ height

theorem lt_width {height pos : Nat} : pos < width leaves height ↔ pos * 2 ^ height < leaves.length := by
  have hpos : 0 < 2 ^ height := Nat.two_pow_pos height
  rw [width, Nat.lt_div_iff_mul_lt hpos]
  omega

/-- A leaf below the node is wanted. -/
def wantedBelow (height pos : Nat) : Bool :=
  (segment height pos).any fun p => decide (p < leaves.length) && wanted p

/-- The flag bits and the hashes of a node. -/
def build : Nat → Nat → List Bool × List α
  | 0, pos => ([wantedBelow leaves wanted 0 pos], (node join leaves 0 pos).toList)
  | height + 1, pos =>
    if wantedBelow leaves wanted (height + 1) pos then
      let left := build height (2 * pos)
      let right := if 2 * pos + 1 < width leaves height then build height (2 * pos + 1) else ([], [])
      (true :: (left.1 ++ right.1), left.2 ++ right.2)
    else ([false], (node join leaves (height + 1) pos).toList)

/-- The wanted leaves below a node. -/
def wantedLeaves (height pos : Nat) : List α := ((segment height pos).filter wanted).filterMap (leaves[·]?)

theorem wantedLeaves_succ (height pos : Nat) :
    wantedLeaves leaves wanted (height + 1) pos =
      wantedLeaves leaves wanted height (2 * pos) ++ wantedLeaves leaves wanted height (2 * pos + 1) := by
  rw [wantedLeaves, segment_succ, List.filter_append, List.filterMap_append]
  rfl

variable {leaves wanted}

theorem wantedLeaves_of_not_below {height pos : Nat} (h : wantedBelow leaves wanted height pos = false) :
    wantedLeaves leaves wanted height pos = [] := by
  rw [wantedLeaves, List.filterMap_eq_nil_iff]
  intro p hp
  rw [List.mem_filter] at hp
  rw [wantedBelow, List.any_eq_false] at h
  have := h p hp.1
  simp only [hp.2, Bool.and_true, decide_eq_true_eq, Nat.not_lt] at this
  exact List.getElem?_eq_none this

theorem wantedLeaves_of_empty {height pos : Nat} (h : leaves.length ≤ pos * 2 ^ height) :
    wantedLeaves leaves wanted height pos = [] := by
  rw [wantedLeaves, List.filterMap_eq_nil_iff]
  intro p hp
  have := (mem_segment.mp (List.mem_filter.mp hp).1).1
  exact List.getElem?_eq_none (by omega)

theorem wantedLeaves_zero {pos : Nat} {a : α} (ha : leaves[pos]? = some a) :
    wantedLeaves leaves wanted 0 pos = if wantedBelow leaves wanted 0 pos then [a] else [] := by
  obtain ⟨hlt, rfl⟩ := List.getElem?_eq_some_iff.mp ha
  rw [wantedLeaves, wantedBelow, segment_zero]
  cases hw : wanted pos <;> simp [hw, hlt]

variable (wanted) in
/-- The row of leaves. -/
theorem wantedLeaves_row {height : Nat} (h : leaves.length ≤ 2 ^ height) :
    wantedLeaves leaves wanted height 0 = (leaves.zipIdx.filter fun x => wanted x.2).map Prod.fst := by
  have hrow : ∀ n, ((List.range n).filter wanted).filterMap (leaves[·]?) =
      ((leaves.zipIdx.take n).filter fun x => wanted x.2).map Prod.fst := by
    intro n
    induction n with
    | zero => rfl
    | succ n ih =>
      rw [List.range_succ, List.filter_append, List.filterMap_append, ih, List.take_add_one, List.filter_append,
        List.map_append, List.getElem?_zipIdx]
      cases hn : leaves[n]? <;> cases hw : wanted n <;> simp [hn, hw]
  rw [wantedLeaves, segment, Nat.zero_mul, ← List.range_eq_range', hrow, List.take_of_length_le]
  rw [List.length_zipIdx]
  exact h

/-! ## Reading what was built -/

variable (leaves wanted)

/-- A reading of the node at `height` and `pos` that leaves `bits` and `hashes`. -/
structure Shows (height pos : Nat) (reading : Partial α × List Bool × List α) (bits : List Bool) (hashes : List α) :
    Prop where
  value : reading.1.value join = node join leaves height pos
  matched : reading.1.matched = (wantedLeaves leaves wanted height pos).map some
  bits_eq : reading.2.1 = bits
  hashes_eq : reading.2.2 = hashes

variable {leaves wanted join}

theorem Shows.node {height pos : Nat} {bits rest rest' : List Bool} {hashes more more' : List α}
    (hl : Shows join leaves wanted height (2 * pos) (read height bits hashes) rest more)
    (hr : Shows join leaves wanted height (2 * pos + 1) (read height rest more) rest' more')
    (hn : 2 * pos * 2 ^ height < leaves.length) :
    Shows join leaves wanted (height + 1) pos (read (height + 1) (true :: bits) hashes) rest' more' := by
  obtain ⟨a, ha⟩ := Option.isSome_iff_exists.mp ((node_isSome join leaves height (2 * pos)).mpr hn)
  have hread : read (height + 1) (true :: bits) hashes =
      (.node (read height bits hashes).1 (read height rest more).1, (read height rest more).2.1,
        (read height rest more).2.2) := by
    simp only [read, hl.bits_eq, hl.hashes_eq]
  rw [hread]
  refine ⟨?_, ?_, hr.bits_eq, hr.hashes_eq⟩
  · rw [Partial.value, hl.value, hr.value, Merkle.node, ha]
  · rw [Partial.matched, hl.matched, hr.matched, wantedLeaves_succ, List.map_append]

/-- A node that is not opened. -/
theorem Shows.closed {height pos : Nat} (hw : wantedBelow leaves wanted height pos = false)
    (hn : pos * 2 ^ height < leaves.length) (bits : List Bool) (hashes : List α) :
    Shows join leaves wanted height pos
      (read height ([false] ++ bits) ((Merkle.node join leaves height pos).toList ++ hashes)) bits hashes := by
  obtain ⟨a, ha⟩ := Option.isSome_iff_exists.mp ((node_isSome join leaves height pos).mpr hn)
  rw [ha, Option.toList_some, List.singleton_append, List.singleton_append, read_false]
  refine ⟨ha.symm, ?_, rfl, rfl⟩
  rw [wantedLeaves_of_not_below hw]
  rfl

/-- A leaf. -/
theorem Shows.leaf {pos : Nat} (hn : pos < leaves.length) (bits : List Bool) (hashes : List α) :
    Shows join leaves wanted 0 pos
      (read 0 ((build join leaves wanted 0 pos).1 ++ bits) ((build join leaves wanted 0 pos).2 ++ hashes)) bits hashes := by
  cases hw : wantedBelow leaves wanted 0 pos with
  | false =>
    rw [build, hw]
    exact Shows.closed hw (by omega) bits hashes
  | true =>
    have ha : leaves[pos]? = some leaves[pos] := List.getElem?_eq_getElem hn
    rw [build, hw, Merkle.node, ha]
    refine ⟨ha.symm, ?_, rfl, rfl⟩
    rw [wantedLeaves_zero ha, hw]
    rfl

variable (join) in
/-- Behind the end: zero bits and no hashes. -/
theorem read_behind (height zeros : Nat) :
    ∃ zeros' ≤ zeros, (read height (List.replicate zeros false) ([] : List α)).2.1 = List.replicate zeros' false ∧
      (read height (List.replicate zeros false) ([] : List α)).2.2 = [] ∧
      (read height (List.replicate zeros false) ([] : List α)).1.value join = none ∧
      (read height (List.replicate zeros false) ([] : List α)).1.matched = [] := by
  cases zeros with
  | zero =>
    rw [List.replicate_zero, read_nil]
    exact ⟨0, Nat.le_refl _, rfl, rfl, rfl, rfl⟩
  | succ zeros =>
    rw [List.replicate_succ, read_false]
    exact ⟨zeros, Nat.le_succ _, rfl, rfl, rfl, rfl⟩

variable (join wanted) in
theorem Shows.behind {height pos : Nat} (hn : leaves.length ≤ pos * 2 ^ height) (zeros : Nat) :
    ∃ zeros', Shows join leaves wanted height pos (read height (List.replicate zeros false) [])
      (List.replicate zeros' false) [] := by
  obtain ⟨zeros', _, hbits, hhashes, hvalue, hmatched⟩ := read_behind join height zeros
  refine ⟨zeros', ?_, ?_, hbits, hhashes⟩
  · rw [hvalue, (node_eq_none join).mpr hn]
  · rw [hmatched, wantedLeaves_of_empty hn]
    rfl

/-- Every node below is there: exactly what was written is read. -/
theorem read_full {height pos : Nat} (h : (pos + 1) * 2 ^ height ≤ leaves.length) (bits : List Bool) (hashes : List α) :
    Shows join leaves wanted height pos
      (read height ((build join leaves wanted height pos).1 ++ bits) ((build join leaves wanted height pos).2 ++ hashes))
      bits hashes := by
  induction height generalizing pos bits hashes with
  | zero => exact Shows.leaf (by omega) bits hashes
  | succ height ih =>
    have hpow : 2 ^ (height + 1) = 2 * 2 ^ height := by rw [Nat.pow_succ, Nat.mul_comm]
    have hpos : 0 < 2 ^ height := Nat.two_pow_pos height
    rw [hpow] at h
    have hright : (2 * pos + 1 + 1) * 2 ^ height ≤ leaves.length := by
      have : (2 * pos + 1 + 1) * 2 ^ height = (pos + 1) * (2 * 2 ^ height) := by ring
      omega
    have hleft : (2 * pos + 1) * 2 ^ height < leaves.length := by
      have : (2 * pos + 1 + 1) * 2 ^ height = (2 * pos + 1) * 2 ^ height + 2 ^ height := by ring
      omega
    have hleft' : 2 * pos * 2 ^ height < leaves.length := by
      have : (2 * pos + 1) * 2 ^ height = 2 * pos * 2 ^ height + 2 ^ height := by ring
      omega
    rw [build]
    cases hw : wantedBelow leaves wanted (height + 1) pos with
    | false =>
      rw [if_neg (by decide)]
      refine Shows.closed hw ?_ bits hashes
      have : pos * 2 ^ (height + 1) = 2 * pos * 2 ^ height := by rw [hpow]; ring
      omega
    | true =>
      rw [if_pos rfl, if_pos ((lt_width leaves).mpr hleft)]
      simp only [List.cons_append, List.append_assoc]
      exact Shows.node (ih (Nat.le_of_lt hleft) _ _) (ih hright _ _) hleft'

variable (join wanted) in
/-- At the right edge: zero bits behind, and no hashes. -/
theorem read_edge {height pos : Nat} (hn : pos * 2 ^ height < leaves.length)
    (h : leaves.length < (pos + 1) * 2 ^ height) (zeros : Nat) :
    ∃ zeros', Shows join leaves wanted height pos
      (read height ((build join leaves wanted height pos).1 ++ List.replicate zeros false)
        ((build join leaves wanted height pos).2 ++ []))
      (List.replicate zeros' false) [] := by
  induction height generalizing pos zeros with
  | zero => omega
  | succ height ih =>
    have hpow : 2 ^ (height + 1) = 2 * 2 ^ height := by rw [Nat.pow_succ, Nat.mul_comm]
    have hleft : 2 * pos * 2 ^ height < leaves.length := by
      have : pos * 2 ^ (height + 1) = 2 * pos * 2 ^ height := by rw [hpow]; ring
      omega
    have hend : leaves.length < (2 * pos + 1 + 1) * 2 ^ height := by
      have : (pos + 1) * 2 ^ (height + 1) = (2 * pos + 1 + 1) * 2 ^ height := by rw [hpow]; ring
      omega
    rw [build]
    cases hw : wantedBelow leaves wanted (height + 1) pos with
    | false =>
      rw [if_neg (by decide)]
      exact ⟨zeros, Shows.closed hw hn _ []⟩
    | true =>
      rw [if_pos rfl]
      by_cases hright : (2 * pos + 1) * 2 ^ height < leaves.length
      · obtain ⟨zeros', hr⟩ := ih hright hend zeros
        rw [if_pos ((lt_width leaves).mpr hright)]
        simp only [List.cons_append, List.append_assoc]
        exact ⟨zeros', Shows.node (read_full (Nat.le_of_lt hright) _ _) hr hleft⟩
      · -- no right child was written
        obtain ⟨zl, hl⟩ : ∃ zl, Shows join leaves wanted height (2 * pos)
            (read height ((build join leaves wanted height (2 * pos)).1 ++ List.replicate zeros false)
              ((build join leaves wanted height (2 * pos)).2 ++ [])) (List.replicate zl false) [] := by
          by_cases hfull : (2 * pos + 1) * 2 ^ height ≤ leaves.length
          · exact ⟨zeros, read_full hfull _ []⟩
          · exact ih hleft (by omega) zeros
        obtain ⟨zr, hr⟩ := Shows.behind join wanted (Nat.le_of_not_lt hright) zl
        rw [if_neg (fun hlt => hright ((lt_width leaves).mp hlt))]
        simp only [List.cons_append, List.append_nil] at hl ⊢
        exact ⟨zr, Shows.node hl hr hleft⟩

variable (join wanted) in
/-- The root and the wanted leaves come back, whatever zero bits stand behind. -/
theorem tree_build (h : leaves ≠ []) (zeros : Nat) :
    (tree (Nat.clog 2 leaves.length)
        ((build join leaves wanted (Nat.clog 2 leaves.length) 0).1 ++ List.replicate zeros false)
        (build join leaves wanted (Nat.clog 2 leaves.length) 0).2).value join = root join leaves ∧
      (tree (Nat.clog 2 leaves.length)
        ((build join leaves wanted (Nat.clog 2 leaves.length) 0).1 ++ List.replicate zeros false)
        (build join leaves wanted (Nat.clog 2 leaves.length) 0).2).matched =
        ((leaves.zipIdx.filter fun x => wanted x.2).map Prod.fst).map some := by
  have hpos : 0 < leaves.length := List.length_pos_iff.mpr h
  have hle := Nat.le_pow_clog (b := 2) (by decide) leaves.length
  rw [root, ← wantedLeaves_row wanted hle]
  generalize Nat.clog 2 leaves.length = height at hle
  have hshow : ∃ bits, Shows join leaves wanted height 0
      (read height ((build join leaves wanted height 0).1 ++ List.replicate zeros false)
        ((build join leaves wanted height 0).2 ++ [])) bits [] := by
    rcases Nat.eq_or_lt_of_le hle with heq | hlt
    · exact ⟨_, read_full (by rw [Nat.zero_add, Nat.one_mul, heq]) _ []⟩
    · have hstart : 0 * 2 ^ height < leaves.length := by rw [Nat.zero_mul]; exact hpos
      obtain ⟨zeros', hr⟩ := read_edge join wanted hstart (by rw [Nat.zero_add, Nat.one_mul]; exact hlt) zeros
      exact ⟨_, hr⟩
  obtain ⟨bits, hs⟩ := hshow
  rw [List.append_nil] at hs
  exact ⟨hs.value, hs.matched⟩

/-! ## Sizes -/

theorem build_hashes_of {P : α → Prop} (hP : ∀ a ∈ leaves, P a) (hjoin : ∀ left right, P (join left right))
    (height pos : Nat) : ∀ a ∈ (build join leaves wanted height pos).2, P a := by
  induction height generalizing pos with
  | zero =>
    intro a ha
    exact node_of join hP hjoin (Option.mem_toList.mp ha)
  | succ height ih =>
    intro a ha
    rw [build] at ha
    split at ha
    · rcases List.mem_append.mp ha with ha | ha
      · exact ih _ a ha
      · split at ha
        · exact ih _ a ha
        · cases ha
    · exact node_of join hP hjoin (Option.mem_toList.mp ha)

variable (join wanted) in
/-- At least one hash, and no more bits than levels for each. -/
theorem build_length {height pos : Nat} (hn : pos * 2 ^ height < leaves.length) :
    0 < (build join leaves wanted height pos).2.length ∧
      (build join leaves wanted height pos).1.length ≤ (height + 1) * (build join leaves wanted height pos).2.length := by
  have hone : ∀ {h p : Nat}, p * 2 ^ h < leaves.length → (node join leaves h p).toList.length = 1 := by
    intro h p hlt
    obtain ⟨a, ha⟩ := Option.isSome_iff_exists.mp ((node_isSome join leaves h p).mpr hlt)
    rw [ha]
    rfl
  induction height generalizing pos with
  | zero =>
    have := hone hn
    simp only [build, List.length_singleton]
    omega
  | succ height ih =>
    have hleft : 2 * pos * 2 ^ height < leaves.length := by
      have : pos * 2 ^ (height + 1) = 2 * pos * 2 ^ height := by rw [Nat.pow_succ]; ring
      omega
    obtain ⟨hl0, hl⟩ := ih hleft
    rw [build]
    split
    · by_cases hright : (2 * pos + 1) * 2 ^ height < leaves.length
      · obtain ⟨hr0, hr⟩ := ih hright
        rw [if_pos ((lt_width leaves).mpr hright)]
        simp only [List.length_cons, List.length_append]
        refine ⟨by omega, ?_⟩
        rw [Nat.mul_add, Nat.add_mul (height + 1) 1, Nat.add_mul (height + 1) 1]
        omega
      · rw [if_neg (fun hlt => hright ((lt_width leaves).mp hlt))]
        simp only [List.append_nil, List.length_cons]
        refine ⟨hl0, ?_⟩
        rw [Nat.add_mul (height + 1) 1]
        omega
    · rw [hone hn, List.length_singleton]
      omega

end BitcoinSpoon.Merkle
