/-
  BitcoinSpoon.Database.Locator — the block locator (`blockIndicatorHashes`,
  `code/NodeManager.c`).

  From the highest height without a gap after the wallet's creation date the loop goes back
  in steps of 1, then of 2, 4, 8 and so on, and takes the block at the nearest stored height.
  Between 0 and the lowest stored height the nearest one can be 0, `max` of no rows, and there
  is no block to take. So the locator is good exactly if no index is below half of the lowest
  stored height, and the date, bound as an `int`, finds the same height as the date itself
  (`blockIndicatorHashes_iff`).
-/

import BitcoinSpoon.Database.Blocks

namespace BitcoinSpoon.Database

open Wire

/-! ## The queries -/

/-- `max(height)`, 0 of no rows. -/
def maxHeight (rows : List BlockRow) : Int32 := (rows.getLast?.map BlockRow.height).getD 0

/-- `min(height)`. -/
def minHeight (rows : List BlockRow) : Int32 := (rows.head?.map BlockRow.height).getD 0

variable (blocks : BlockTable)

def databaseHighestHeight : Int32 := maxHeight blocks.rows

/-- The time is bound as an `int`. -/
def databaseHighestBlockBeforeTime (timestamp : UInt32) : Int32 :=
  maxHeight (blocks.rows.filter fun row => decide ((row.time : Int) < timestamp.toInt32.toInt))

/-- The loop over the heights from `i` on: where it returns `i - 1`, if it does. The sum past
    the greatest height is compared with no row. -/
def firstGap (i : Int32) : List BlockRow → Option Int32
  | [] => none
  | row :: rows => if i ≠ row.height then some (i - 1) else firstGap (i + 1) rows

def databaseHighestHeightOrLowestMissingAfter (timestamp : UInt32) : Int32 :=
  let height := databaseHighestBlockBeforeTime blocks timestamp
  (firstGap (height + 1) (blocks.rows.filter fun row => decide (height < row.height))).getD (databaseHighestHeight blocks)

/-- NULL where nothing is stored. -/
def databaseHashOf (height : Int32) : Data := (blocks.atHeight height).map BlockRow.hash

def databaseNearestHeight (height : Int32) : Int32 :=
  let lowerValue := maxHeight (blocks.rows.filter fun row => decide (row.height < height))
  let upperValue := minHeight (blocks.rows.filter fun row => decide (height ≤ row.height))
  if upperValue = 0 then lowerValue
  else if height - lowerValue < upperValue - height then lowerValue
  else upperValue

/-! ## The locator -/

/-- The loop; `none` if it takes more rounds. -/
def indicatorsFrom : Nat → Int → UInt32 → Datas → Option Datas
  | 0, _, _, _ => none
  | rounds + 1, index, step, array =>
    if 0 < index then
      let step := if 10 < array.length then step * 2 else step
      let array := array ++ [databaseHashOf blocks (databaseNearestHeight blocks (Int32.ofInt index))]
      indicatorsFrom rounds (index - step.toNat) step array
    else some array

def blockIndicatorHashes (network : Network) (walletCreationDate : UInt64) (rounds : Nat) : Option Datas := do
  let start := databaseHighestHeightOrLowestMissingAfter blocks walletCreationDate.toUInt32
  let array ← indicatorsFrom blocks rounds start.toInt 1 []
  some (array ++ [network.firstBlockHash])

/-! ## What it is to be -/

def HasBlock (height : Int) : Prop := ∃ row ∈ blocks.rows, row.height.toInt = height

/-- The greatest stored height of a block before the time, or 0. -/
def HighestBefore (time : Int) (height : Int) : Prop :=
  (height = 0 ∧ ∀ row ∈ blocks.rows, ¬ (row.time : Int) < time) ∨
    ((∃ row ∈ blocks.rows, (row.time : Int) < time ∧ row.height.toInt = height) ∧
      ∀ row ∈ blocks.rows, (row.time : Int) < time → row.height.toInt ≤ height)

/-- The last height that is reached from there without a gap. -/
def HighestContiguous (time : Int) (top : Int) : Prop :=
  ∃ height, HighestBefore blocks time height ∧ height ≤ top ∧ (∀ h, height < h → h ≤ top → HasBlock blocks h) ∧ ¬ HasBlock blocks (top + 1)

/-- The hash of the stored block at the height, or the first block's at 0. -/
def Names (network : Network) (height : Int) (hash : Data) : Prop :=
  (∃ row ∈ blocks.rows, row.height.toInt = height ∧ hash = some row.hash) ∨ (height = 0 ∧ hash = network.firstBlockHash)

structure IsLocator (network : Network) (walletCreationDate : UInt64) (hashes : Datas) (heights : List Int) : Prop where
  named : List.Forall₂ (Names blocks network) heights hashes
  size : ∀ hash ∈ hashes, hash.length = 32
  descending : heights.Pairwise fun a b => b ≤ a
  first : ∀ top, HighestContiguous blocks walletCreationDate.toNat top → 0 < top → heights.head? = some top
  last : hashes.getLast? = some network.firstBlockHash

/-- How far index `k` of the loop is below the first. -/
def indicatorOffset (k : Nat) : Int := if k ≤ 11 then k else 9 + 2 ^ (k - 10)

variable {blocks}

/-! ## The rows as heights -/

theorem height_pos_of_hasBlock {h : Int} (hhas : HasBlock blocks h) : 0 < h := by
  obtain ⟨row, _, rfl⟩ := hhas
  exact Int32.lt_iff_toInt_lt.mp row.height_pos

theorem height_lt_of_hasBlock {h : Int} (hhas : HasBlock blocks h) : h < 2 ^ 31 := by
  obtain ⟨row, _, rfl⟩ := hhas
  exact row.height.toInt_lt

theorem sorted_filter (p : BlockRow → Bool) : (blocks.rows.filter p).Pairwise fun a b => a.height.toInt < b.height.toInt :=
  (blocks.sorted.filter p).imp Int32.lt_iff_toInt_lt.mp

/-- The greatest of some rows, or 0 if there are none. -/
theorem maxHeight_spec {rows : List BlockRow} (hsorted : rows.Pairwise fun a b => a.height.toInt < b.height.toInt) :
    (rows = [] ∧ maxHeight rows = 0) ∨
      ∃ row ∈ rows, maxHeight rows = row.height ∧ ∀ other ∈ rows, other.height.toInt ≤ row.height.toInt := by
  cases rows using List.reverseRecOn with
  | nil => exact .inl ⟨rfl, rfl⟩
  | append_singleton rows row =>
    refine .inr ⟨row, List.mem_append_right _ List.mem_cons_self, by simp [maxHeight], fun other hother => ?_⟩
    cases List.mem_append.mp hother with
    | inl hother => exact Int.le_of_lt ((List.pairwise_append.mp hsorted).2.2 other hother row List.mem_cons_self)
    | inr hother => exact Int.le_of_eq (by rw [List.mem_singleton.mp hother])

theorem minHeight_spec {rows : List BlockRow} (hsorted : rows.Pairwise fun a b => a.height.toInt < b.height.toInt) :
    (rows = [] ∧ minHeight rows = 0) ∨
      ∃ row ∈ rows, minHeight rows = row.height ∧ ∀ other ∈ rows, row.height.toInt ≤ other.height.toInt := by
  cases rows with
  | nil => exact .inl ⟨rfl, rfl⟩
  | cons row rows =>
    refine .inr ⟨row, List.mem_cons_self, rfl, fun other hother => ?_⟩
    cases List.mem_cons.mp hother with
    | inl hother => exact Int.le_of_eq (by rw [hother])
    | inr hother => exact Int.le_of_lt (List.rel_of_pairwise_cons hsorted hother)

/-! ## The highest contiguous height -/

theorem highestBefore_unique {time a b : Int} (ha : HighestBefore blocks time a) (hb : HighestBefore blocks time b) : a = b := by
  rcases ha with ⟨ha, hnone⟩ | ⟨⟨row, hrow, htime, hheight⟩, hmax⟩
  · rcases hb with ⟨hb, _⟩ | ⟨⟨row, hrow, htime, _⟩, _⟩
    · exact ha.trans hb.symm
    · exact absurd htime (hnone row hrow)
  · rcases hb with ⟨_, hnone⟩ | ⟨⟨row', hrow', htime', hheight'⟩, hmax'⟩
    · exact absurd htime (hnone row hrow)
    · have hle := hmax row' hrow' htime'
      have hge := hmax' row hrow htime
      omega

theorem highestContiguous_unique {time a b : Int} (ha : HighestContiguous blocks time a) (hb : HighestContiguous blocks time b) :
    a = b := by
  obtain ⟨height, hheight, hle, hall, hnot⟩ := ha
  obtain ⟨height', hheight', hle', hall', hnot'⟩ := hb
  obtain rfl := highestBefore_unique hheight hheight'
  rcases Int.lt_trichotomy a b with hlt | heq | hlt
  · exact absurd (hall' (a + 1) (by omega) (by omega)) hnot
  · exact heq
  · exact absurd (hall (b + 1) (by omega) (by omega)) hnot'

theorem highestBefore_max (time : Int) :
    HighestBefore blocks time (maxHeight (blocks.rows.filter fun row => decide ((row.time : Int) < time))).toInt := by
  have hmem : ∀ row, row ∈ blocks.rows.filter (fun row => decide ((row.time : Int) < time)) ↔
      row ∈ blocks.rows ∧ (row.time : Int) < time := by
    intro row
    rw [List.mem_filter, decide_eq_true_iff]
  rcases maxHeight_spec (sorted_filter fun row => decide ((row.time : Int) < time)) with ⟨hnil, hzero⟩ | ⟨row, hrow, hmax, hall⟩
  · refine .inl ⟨by rw [hzero]; rfl, fun row hrow htime => ?_⟩
    have hin := (hmem row).mpr ⟨hrow, htime⟩
    rw [hnil] at hin
    cases hin
  · rw [hmax]
    obtain ⟨hrow, htime⟩ := (hmem row).mp hrow
    exact .inr ⟨⟨row, hrow, htime, rfl⟩, fun other hother htime' => hall other ((hmem other).mpr ⟨hother, htime'⟩)⟩

/-- Up to the first gap every height is there, or up to the end. -/
theorem firstGap_spec {rows : List BlockRow} {i : Int32} {b : Int} (hb : 0 ≤ b)
    (hsorted : rows.Pairwise fun a b => a.height.toInt < b.height.toInt) (hlow : ∀ row ∈ rows, b < row.height.toInt)
    (hi : rows ≠ [] → i.toInt = b + 1) :
    (∃ g, firstGap i rows = some g ∧ b ≤ g.toInt ∧ (∀ h, b < h → h ≤ g.toInt → ∃ row ∈ rows, row.height.toInt = h) ∧
      ∀ row ∈ rows, row.height.toInt ≠ g.toInt + 1) ∨
    (firstGap i rows = none ∧ ∀ h, b < h → (∃ row ∈ rows, h ≤ row.height.toInt) → ∃ row ∈ rows, row.height.toInt = h) := by
  induction rows generalizing i b with
  | nil => exact .inr ⟨rfl, fun h _ hrow => absurd hrow (by simp)⟩
  | cons row rows ih =>
    have hfirst := hi (List.cons_ne_nil _ _)
    have hrow := hlow row List.mem_cons_self
    obtain ⟨habove, hrest⟩ := List.pairwise_cons.mp hsorted
    rw [firstGap]
    by_cases hgap : i ≠ row.height
    · rw [if_pos hgap]
      have hg : (i - 1).toInt = b := by
        have hlt := i.toInt_lt
        rw [Int32.toInt_sub, hfirst]
        show (b + 1 - 1).bmod (2 ^ 32) = b
        rw [Int.bmod_eq_of_le (by omega) (by omega)]
        omega
      refine .inl ⟨i - 1, rfl, by omega, fun h hlo hhi => by omega, fun other hother heq => ?_⟩
      rw [hg] at heq
      cases List.mem_cons.mp hother with
      | inl hother => exact hgap (Int32.toInt_inj.mp (by rw [hfirst, ← hother, heq]))
      | inr hother =>
        have hlt := habove other hother
        omega
    · have heq : i = row.height := not_not.mp hgap
      rw [if_neg hgap]
      have hheight : row.height.toInt = b + 1 := by rw [← heq, hfirst]
      have hnext : rows ≠ [] → (i + 1).toInt = b + 1 + 1 := by
        intro hne
        obtain ⟨next, hnext⟩ := List.exists_mem_of_ne_nil rows hne
        have hlt := habove next hnext
        have hbound := next.height.toInt_lt
        rw [Int32.toInt_add, hfirst]
        show (b + 1 + 1).bmod (2 ^ 32) = b + 1 + 1
        rw [Int.bmod_eq_of_le (by omega) (by omega)]
      rcases ih (by omega) hrest (fun other hother => hheight ▸ habove other hother) hnext with
        ⟨g, hgap', hle, hall, hnot⟩ | ⟨hnone, hall⟩
      · refine .inl ⟨g, hgap', by omega, fun h hlo hhi => ?_, fun other hother => ?_⟩
        · by_cases hh : h = b + 1
          · exact ⟨row, List.mem_cons_self, hheight.trans hh.symm⟩
          · obtain ⟨other, hother, hoh⟩ := hall h (by omega) hhi
            exact ⟨other, List.mem_cons_of_mem _ hother, hoh⟩
        · cases List.mem_cons.mp hother with
          | inl hother =>
            rw [hother]
            omega
          | inr hother => exact hnot other hother
      · refine .inr ⟨hnone, fun h hlo hhas => ?_⟩
        by_cases hh : h = b + 1
        · exact ⟨row, List.mem_cons_self, hheight.trans hh.symm⟩
        · obtain ⟨other, hother, hle⟩ := hhas
          have hother' : other ∈ rows := by
            refine (List.mem_cons.mp hother).resolve_left fun heq => ?_
            rw [heq] at hle
            omega
          obtain ⟨last, hlast, hlh⟩ := hall h (by omega) ⟨other, hother', hle⟩
          exact ⟨last, List.mem_cons_of_mem _ hlast, hlh⟩

theorem highestContiguous_from {time : Int} {base : Int32} (hbefore : HighestBefore blocks time base.toInt) :
    HighestContiguous blocks time ((firstGap (base + 1) (blocks.rows.filter fun row => decide (base < row.height))).getD
      (databaseHighestHeight blocks)).toInt := by
  have hbase : 0 ≤ base.toInt := by
    rcases hbefore with ⟨hzero, _⟩ | ⟨⟨row, hrow, _, hheight⟩, _⟩
    · exact Int.le_of_eq hzero.symm
    · exact Int.le_of_lt (height_pos_of_hasBlock ⟨row, hrow, hheight⟩)
  have hmem : ∀ row, row ∈ blocks.rows.filter (fun row => decide (base < row.height)) ↔
      row ∈ blocks.rows ∧ base.toInt < row.height.toInt := by
    intro row
    rw [List.mem_filter, decide_eq_true_iff, Int32.lt_iff_toInt_lt]
  have hfirst : blocks.rows.filter (fun row => decide (base < row.height)) ≠ [] → (base + 1).toInt = base.toInt + 1 := by
    intro hne
    obtain ⟨row, hrow⟩ := List.exists_mem_of_ne_nil _ hne
    have hlt := ((hmem row).mp hrow).2
    have hbound := row.height.toInt_lt
    rw [Int32.toInt_add]
    show (base.toInt + 1).bmod (2 ^ 32) = base.toInt + 1
    rw [Int.bmod_eq_of_le (by omega) (by omega)]
  rcases firstGap_spec hbase (sorted_filter _) (fun row hrow => ((hmem row).mp hrow).2) hfirst with
    ⟨g, hgap, hle, hall, hnot⟩ | ⟨hnone, hall⟩
  · rw [hgap, Option.getD_some]
    refine ⟨base.toInt, hbefore, hle, fun h hlo hhi => ?_, fun ⟨row, hrow, hheight⟩ => ?_⟩
    · obtain ⟨row, hrow, hheight⟩ := hall h hlo hhi
      exact ⟨row, ((hmem row).mp hrow).1, hheight⟩
    · exact hnot row ((hmem row).mpr ⟨hrow, by omega⟩) hheight
  · rw [hnone, Option.getD_none, databaseHighestHeight]
    -- no gap: the highest height of all
    rcases maxHeight_spec (blocks.sorted.imp Int32.lt_iff_toInt_lt.mp) with ⟨hnil, hmax⟩ | ⟨row, hrow, hmax, hgreatest⟩
    · have hzero : base.toInt = 0 := by
        rcases hbefore with ⟨hzero, _⟩ | ⟨⟨row, hrow, _⟩, _⟩
        · exact hzero
        · rw [hnil] at hrow
          cases hrow
      rw [hmax]
      refine ⟨base.toInt, hbefore, Int.le_of_eq hzero, fun h hlo hhi => ?_, fun ⟨row, hrow, _⟩ => ?_⟩
      · have hle : h ≤ 0 := hhi
        omega
      · rw [hnil] at hrow
        cases hrow
    · rw [hmax]
      have hbase_le : base.toInt ≤ row.height.toInt := by
        rcases hbefore with ⟨hzero, _⟩ | ⟨⟨other, hother, _, hheight⟩, _⟩
        · have hpos := height_pos_of_hasBlock ⟨row, hrow, rfl⟩
          omega
        · exact hheight ▸ hgreatest other hother
      refine ⟨base.toInt, hbefore, hbase_le, fun h hlo hhi => ?_, fun ⟨other, hother, hheight⟩ => ?_⟩
      · obtain ⟨other, hother, hheight⟩ := hall h hlo ⟨row, (hmem row).mpr ⟨hrow, by omega⟩, hhi⟩
        exact ⟨other, ((hmem other).mp hother).1, hheight⟩
      · have hle := hgreatest other hother
        omega

theorem highestHeightOrLowestMissingAfter_spec (timestamp : UInt32) :
    HighestContiguous blocks timestamp.toInt32.toInt (databaseHighestHeightOrLowestMissingAfter blocks timestamp).toInt :=
  highestContiguous_from (highestBefore_max _)

theorem exists_highestContiguous (time : Int) : ∃ top, HighestContiguous blocks time top :=
  ⟨_, highestContiguous_from (highestBefore_max time)⟩

/-- The last height without a gap is stored, if it is above 0. -/
theorem HighestContiguous.hasBlock {time top : Int} (h : HighestContiguous blocks time top) (hpos : 0 < top) : HasBlock blocks top := by
  obtain ⟨height, hheight, hle, hall, _⟩ := h
  by_cases heq : height = top
  · rcases hheight with ⟨hzero, _⟩ | ⟨⟨row, hrow, _, hrow'⟩, _⟩
    · omega
    · exact ⟨row, hrow, hrow'.trans heq⟩
  · exact hall top (by omega) (Int.le_refl _)

/-- An earlier time finds a height above 0 only if the later one does. -/
theorem HighestContiguous.pos_of_le {time time' top top' : Int} (h : HighestContiguous blocks time top)
    (h' : HighestContiguous blocks time' top') (htime : time ≤ time') (hpos : 0 < top) : 0 < top' := by
  obtain ⟨height, hheight, hle, hall, _⟩ := h
  obtain ⟨height', hheight', hle', _, hnot'⟩ := h'
  by_contra hzero
  have hzero' : height' = 0 ∧ ∀ row ∈ blocks.rows, ¬ (row.time : Int) < time' := by
    rcases hheight' with hnone | ⟨⟨row, hrow, _, hrow'⟩, _⟩
    · exact hnone
    · have := height_pos_of_hasBlock ⟨row, hrow, hrow'⟩
      omega
  have hbase : height = 0 := by
    rcases hheight with ⟨hbase, _⟩ | ⟨⟨row, hrow, hbefore, _⟩, _⟩
    · exact hbase
    · exact absurd (by omega) (hzero'.2 row hrow)
  have htop' : top' = 0 := by omega
  exact hnot' (htop' ▸ hall 1 (by omega) (by omega))

/-! ## The nearest height -/

/-- The stored heights next to `i`, 0 for none. -/
structure Around (blocks : BlockTable) (i lower upper : Int) : Prop where
  below : (lower = 0 ∧ ∀ h, HasBlock blocks h → i ≤ h) ∨ (HasBlock blocks lower ∧ lower < i ∧ ∀ h, HasBlock blocks h → h < i → h ≤ lower)
  above : (upper = 0 ∧ ∀ h, HasBlock blocks h → h < i) ∨ (HasBlock blocks upper ∧ i ≤ upper ∧ ∀ h, HasBlock blocks h → i ≤ h → upper ≤ h)

/-- `databaseNearestHeight` of the two. -/
def nearer (i lower upper : Int) : Int := if upper = 0 then lower else if i - lower < upper - i then lower else upper

theorem maxHeight_below (k : Int32) :
    let lower := (maxHeight (blocks.rows.filter fun row => decide (row.height < k))).toInt
    (lower = 0 ∧ ∀ h, HasBlock blocks h → k.toInt ≤ h) ∨
      (HasBlock blocks lower ∧ lower < k.toInt ∧ ∀ h, HasBlock blocks h → h < k.toInt → h ≤ lower) := by
  have hmem : ∀ row, row ∈ blocks.rows.filter (fun row => decide (row.height < k)) ↔ row ∈ blocks.rows ∧ row.height.toInt < k.toInt := by
    intro row
    rw [List.mem_filter, decide_eq_true_iff, Int32.lt_iff_toInt_lt]
  dsimp only
  rcases maxHeight_spec (sorted_filter fun row => decide (row.height < k)) with ⟨hnil, hmax⟩ | ⟨row, hrow, hmax, hall⟩
  · refine .inl ⟨by rw [hmax]; rfl, fun h ⟨row, hrow, hheight⟩ => ?_⟩
    by_contra hnot
    have hin := (hmem row).mpr ⟨hrow, by omega⟩
    rw [hnil] at hin
    cases hin
  · rw [hmax]
    obtain ⟨hrow, hbelow⟩ := (hmem row).mp hrow
    exact .inr ⟨⟨row, hrow, rfl⟩, hbelow, fun h ⟨other, hother, hheight⟩ hhi =>
      hheight ▸ hall other ((hmem other).mpr ⟨hother, by omega⟩)⟩

theorem minHeight_from (k : Int32) :
    let upper := (minHeight (blocks.rows.filter fun row => decide (k ≤ row.height))).toInt
    (upper = 0 ∧ ∀ h, HasBlock blocks h → h < k.toInt) ∨
      (HasBlock blocks upper ∧ k.toInt ≤ upper ∧ ∀ h, HasBlock blocks h → k.toInt ≤ h → upper ≤ h) := by
  have hmem : ∀ row, row ∈ blocks.rows.filter (fun row => decide (k ≤ row.height)) ↔ row ∈ blocks.rows ∧ k.toInt ≤ row.height.toInt := by
    intro row
    rw [List.mem_filter, decide_eq_true_iff, Int32.le_iff_toInt_le]
  dsimp only
  rcases minHeight_spec (sorted_filter fun row => decide (k ≤ row.height)) with ⟨hnil, hmin⟩ | ⟨row, hrow, hmin, hall⟩
  · refine .inl ⟨by rw [hmin]; rfl, fun h ⟨row, hrow, hheight⟩ => ?_⟩
    by_contra hnot
    have hin := (hmem row).mpr ⟨hrow, by omega⟩
    rw [hnil] at hin
    cases hin
  · rw [hmin]
    obtain ⟨hrow, habove⟩ := (hmem row).mp hrow
    exact .inr ⟨⟨row, hrow, rfl⟩, habove, fun h ⟨other, hother, hheight⟩ hlo =>
      hheight ▸ hall other ((hmem other).mpr ⟨hother, by omega⟩)⟩

theorem Around.lower_bounds {i lower upper : Int} (h : Around blocks i lower upper) (hpos : 0 < i) : 0 ≤ lower ∧ lower < i := by
  rcases h.below with ⟨hzero, _⟩ | ⟨hhas, hlt, _⟩
  · omega
  · exact ⟨Int.le_of_lt (height_pos_of_hasBlock hhas), hlt⟩

theorem Around.upper_bounds {i lower upper : Int} (h : Around blocks i lower upper) :
    0 ≤ upper ∧ upper < 2 ^ 31 ∧ (upper = 0 ∨ i ≤ upper) := by
  rcases h.above with ⟨hzero, _⟩ | ⟨hhas, hle, _⟩
  · omega
  · exact ⟨Int.le_of_lt (height_pos_of_hasBlock hhas), height_lt_of_hasBlock hhas, .inr hle⟩

theorem nearestHeight_eq {i : Int} (hpos : 0 < i) (hlt : i < 2 ^ 31) :
    ∃ lower upper, Around blocks i lower upper ∧ (databaseNearestHeight blocks (Int32.ofInt i)).toInt = nearer i lower upper := by
  have hi : (Int32.ofInt i).toInt = i := Int32.toInt_ofInt_of_le (by omega) hlt
  have hbelow := @maxHeight_below blocks (Int32.ofInt i)
  have habove := @minHeight_from blocks (Int32.ofInt i)
  dsimp only at hbelow habove
  rw [hi] at hbelow habove
  unfold databaseNearestHeight nearer
  dsimp only
  generalize maxHeight (blocks.rows.filter fun row => decide (row.height < Int32.ofInt i)) = lower at hbelow ⊢
  generalize minHeight (blocks.rows.filter fun row => decide (Int32.ofInt i ≤ row.height)) = upper at habove ⊢
  have haround : Around blocks i lower.toInt upper.toInt := ⟨hbelow, habove⟩
  have hlower := haround.lower_bounds hpos
  have hupper := haround.upper_bounds
  refine ⟨lower.toInt, upper.toInt, haround, ?_⟩
  have hnone : upper = 0 ↔ upper.toInt = 0 := by rw [← Int32.toInt_inj]; rfl
  by_cases hzero : upper = 0
  · rw [if_pos hzero, if_pos (hnone.mp hzero)]
  · have hnear : Int32.ofInt i - lower < upper - Int32.ofInt i ↔ i - lower.toInt < upper.toInt - i := by
      rw [Int32.lt_iff_toInt_lt, Int32.toInt_sub, Int32.toInt_sub, hi, Int.bmod_eq_of_le (by omega) (by omega),
        Int.bmod_eq_of_le (by omega) (by omega)]
    rw [if_neg hzero, if_neg fun h => hzero (hnone.mpr h)]
    by_cases hless : Int32.ofInt i - lower < upper - Int32.ofInt i
    · rw [if_pos hless, if_pos (hnear.mp hless)]
    · rw [if_neg hless, if_neg fun h => hless (hnear.mpr h)]

/-- A stored height is its own nearest one. -/
theorem nearer_self {i lower upper : Int} (h : Around blocks i lower upper) (hpos : 0 < i) (hhas : HasBlock blocks i) :
    nearer i lower upper = i := by
  have hlower := h.lower_bounds hpos
  unfold nearer
  rcases h.above with ⟨_, hall⟩ | ⟨hhas', hle, hall⟩
  · exact absurd (hall i hhas) (by omega)
  · have heq := hall i hhas (by omega)
    rw [if_neg (by omega), if_neg (by omega)]
    omega

/-- The nearest height is stored, or it is 0, below half of what is stored. -/
theorem nearer_hasBlock_iff {i lower upper : Int} (h : Around blocks i lower upper) (hpos : 0 < i) :
    HasBlock blocks (nearer i lower upper) ↔ ∃ low, HasBlock blocks low ∧ low ≤ 2 * i := by
  have hzero : ¬ HasBlock blocks 0 := fun hhas => absurd (height_pos_of_hasBlock hhas) (by omega)
  unfold nearer
  rcases h.below with ⟨hlower, hnone⟩ | ⟨hlower, hlt, _⟩
  · rcases h.above with ⟨hupper, hall⟩ | ⟨hupper, hle, hall⟩
    · rw [if_pos hupper, hlower]
      refine iff_of_false hzero fun ⟨low, hlow, _⟩ => ?_
      have := hnone low hlow
      have := hall low hlow
      omega
    · rw [if_neg (by omega), hlower]
      by_cases hless : i - 0 < upper - i
      · rw [if_pos hless]
        refine iff_of_false hzero fun ⟨low, hlow, hhalf⟩ => ?_
        have := hall low hlow (hnone low hlow)
        omega
      · rw [if_neg hless]
        exact iff_of_true hupper ⟨upper, hupper, by omega⟩
  · refine iff_of_true ?_ ⟨lower, hlower, by omega⟩
    rcases h.above with ⟨hupper, _⟩ | ⟨hupper, hle, _⟩
    · rwa [if_pos hupper]
    · rw [if_neg (by omega)]
      split
      · exact hlower
      · exact hupper

theorem nearer_bounds {i lower upper : Int} (h : Around blocks i lower upper) (hpos : 0 < i) :
    lower ≤ nearer i lower upper ∧ (upper ≠ 0 → nearer i lower upper ≤ upper) := by
  have hb := h.lower_bounds hpos
  have hu := h.upper_bounds
  unfold nearer
  split
  · omega
  · split <;> omega

theorem Around.lower_mono {i j lower upper lower' upper' : Int} (h : Around blocks i lower upper) (h' : Around blocks j lower' upper')
    (hpos : 0 < i) (hij : i ≤ j) : lower ≤ lower' := by
  have hb' := h'.lower_bounds (by omega)
  rcases h.below with ⟨hzero, _⟩ | ⟨hhas, hlt, _⟩
  · omega
  · rcases h'.below with ⟨_, hall⟩ | ⟨_, _, hall⟩
    · have := hall lower hhas
      omega
    · exact hall lower hhas (by omega)

/-- Two heights with no stored one between them have the same neighbours. -/
theorem Around.same {i j lower upper lower' upper' : Int} (h : Around blocks i lower upper) (h' : Around blocks j lower' upper')
    (hpos : 0 < i) (hij : i ≤ j) (hhas : HasBlock blocks upper) (hnear : j ≤ upper) : lower' = lower ∧ upper' = upper := by
  have hb := h.lower_bounds hpos
  have hall : ∀ height, HasBlock blocks height → i ≤ height → upper ≤ height := by
    rcases h.above with ⟨_, hbelow⟩ | ⟨_, _, hall⟩
    · exact absurd (hbelow upper hhas) (by omega)
    · exact hall
  constructor
  · rcases h'.below with ⟨hzero', _⟩ | ⟨hhas', hlt', _⟩
    · have := h.lower_mono h' hpos hij
      omega
    · rcases h.below with ⟨_, hnone⟩ | ⟨_, _, hmost⟩
      · have := hnone lower' hhas'
        have := hall lower' hhas' this
        omega
      · have hle := h.lower_mono h' hpos hij
        by_cases hlt : lower' < i
        · have := hmost lower' hhas' hlt
          omega
        · have := hall lower' hhas' (by omega)
          omega
  · rcases h'.above with ⟨_, hall'⟩ | ⟨hhas', hle', hall'⟩
    · have := hall' upper hhas
      omega
    · have := hall' upper hhas hnear
      have := hall upper' hhas' (by omega)
      omega

theorem nearer_mono {i j lower upper lower' upper' : Int} (h : Around blocks i lower upper) (h' : Around blocks j lower' upper')
    (hpos : 0 < i) (hij : i ≤ j) : nearer i lower upper ≤ nearer j lower' upper' := by
  have hlower := h.lower_mono h' hpos hij
  have hbounds := nearer_bounds h hpos
  have hbounds' := nearer_bounds h' (by omega)
  rcases h.above with ⟨hzero, _⟩ | ⟨hhas, hle, _⟩
  · rw [nearer, if_pos hzero]
    exact Int.le_trans hlower hbounds'.1
  have hne : upper ≠ 0 := by omega
  by_cases hpast : upper < j
  · -- the upper one of `i` is below `j`
    have hupper : upper ≤ lower' := by
      rcases h'.below with ⟨_, hall'⟩ | ⟨_, _, hall'⟩
      · have := hall' upper hhas
        omega
      · exact hall' upper hhas hpast
    have hnear := hbounds.2 hne
    omega
  · obtain ⟨hsame, hsame'⟩ := h.same h' hpos hij hhas (by omega)
    rw [hsame, hsame', nearer, nearer, if_neg hne, if_neg hne]
    by_cases hless : i - lower < upper - i
    · rw [if_pos hless]
      split <;> omega
    · rw [if_neg hless, if_neg (by omega)]

/-! ## The loop -/

theorem indicatorOffset_succ (k : Nat) : indicatorOffset (k + 1) = indicatorOffset k + if k ≤ 10 then 1 else 2 ^ (k - 10) := by
  unfold indicatorOffset
  rcases Nat.lt_trichotomy k 11 with hlt | heq | hgt
  · rw [if_pos (by omega), if_pos (by omega), if_pos (by omega)]
    omega
  · rw [heq]
    rfl
  · have hpow : (2 : Int) ^ (k + 1 - 10) = 2 ^ (k - 10) * 2 := by rw [show k + 1 - 10 = k - 10 + 1 by omega, pow_succ]
    rw [if_neg (by omega), if_neg (by omega), if_neg (by omega), hpow]
    omega

theorem indicatorOffset_mono {j k : Nat} (h : j ≤ k) : indicatorOffset j ≤ indicatorOffset k := by
  induction k, h using Nat.le_induction with
  | base => exact Int.le_refl _
  | succ k _ ih =>
    have hstep := indicatorOffset_succ k
    have hpos : (0 : Int) < 2 ^ (k - 10) := Int.pow_pos (by decide)
    split at hstep <;> omega

/-- The indices of the loop. -/
def indicators (start : Int) : List Int := ((List.range 42).map fun k => start - indicatorOffset k).filter fun i => decide (0 < i)

/-- `step` before round `k`. -/
def stepBefore (k : Nat) : Nat := if k ≤ 11 then 1 else 2 ^ (k - 11)

theorem stepBefore_succ {k : Nat} (hk : k ≤ 40) {step : UInt32} (hstep : step.toNat = stepBefore k) :
    (if 10 < k then step * 2 else step).toNat = stepBefore (k + 1) ∧
      ((if 10 < k then step * 2 else step).toNat : Int) = if k ≤ 10 then 1 else 2 ^ (k - 10) := by
  unfold stepBefore at hstep ⊢
  by_cases hlow : k ≤ 10
  · rw [if_neg (by omega), hstep, if_pos (by omega), if_pos (by omega), if_pos hlow]
    exact ⟨rfl, rfl⟩
  · have hdouble : step.toNat * 2 = 2 ^ (k - 10) := by
      rw [hstep]
      by_cases heleven : k = 11
      · rw [heleven]
        rfl
      · rw [if_neg (by omega), show k - 10 = k - 11 + 1 by omega, pow_succ]
    have hlt : 2 ^ (k - 10) < 2 ^ 32 := Nat.pow_lt_pow_right (by omega) (by omega)
    have hmul : (step * 2).toNat = 2 ^ (k - 10) := by
      rw [UInt32.toNat_mul]
      show step.toNat * 2 % 2 ^ 32 = _
      rw [hdouble, Nat.mod_eq_of_lt hlt]
    rw [if_pos (by omega), if_neg (by omega), if_neg hlow, hmul]
    refine ⟨?_, by push_cast; rfl⟩
    rw [show k + 1 - 11 = k - 10 by omega]

variable (blocks) in
def indicatorHash (i : Int) : Data := databaseHashOf blocks (databaseNearestHeight blocks (Int32.ofInt i))

theorem indicatorsFrom_eq {start : Int} (hstart : start < 2 ^ 31) (n : Nat) {k rounds : Nat} {step : UInt32} {array : Datas}
    (hkn : k + n = 42) (hrounds : n < rounds) (hlength : array.length = k) (hstep : step.toNat = stepBefore k) :
    indicatorsFrom blocks rounds (start - indicatorOffset k) step array =
      some (array ++
        (((List.range' k n).map fun k => start - indicatorOffset k).filter fun i => decide (0 < i)).map (indicatorHash blocks)) := by
  -- below index 41 nothing is left
  have hdone : ∀ j, 41 ≤ j → start - indicatorOffset j < 0 := by
    intro j hj
    have hlast := indicatorOffset_mono hj
    have hoffset : indicatorOffset 41 = 9 + 2 ^ 31 := rfl
    omega
  induction n generalizing k rounds step array with
  | zero =>
    obtain ⟨rounds, rfl⟩ : ∃ r, rounds = r + 1 := ⟨rounds - 1, by omega⟩
    have hneg := hdone k (by omega)
    rw [indicatorsFrom, if_neg (by omega)]
    simp
  | succ n ih =>
    obtain ⟨rounds, rfl⟩ : ∃ r, rounds = r + 1 := ⟨rounds - 1, by omega⟩
    rw [indicatorsFrom]
    by_cases hpos : 0 < start - indicatorOffset k
    · have hk : k ≤ 40 := by
        by_contra hnot
        have := hdone k (by omega)
        omega
      obtain ⟨hnext, hvalue⟩ := stepBefore_succ hk hstep
      have hindex : start - indicatorOffset k - ((if 10 < k then step * 2 else step).toNat : Int) = start - indicatorOffset (k + 1) := by
        rw [indicatorOffset_succ, hvalue]
        omega
      rw [if_pos hpos]
      dsimp only
      rw [hlength, hindex, ih (by omega) (by omega) (by simp [hlength]) hnext, List.range'_succ, List.map_cons,
        List.filter_cons_of_pos (by simpa using hpos), List.map_cons, List.append_assoc]
      rfl
    · rw [if_neg hpos]
      have hrest : ((List.range' k (n + 1)).map fun k => start - indicatorOffset k).filter (fun i => decide (0 < i)) = [] := by
        rw [List.filter_eq_nil_iff]
        intro i hi
        obtain ⟨j, hj, rfl⟩ := List.mem_map.mp hi
        have hmono := indicatorOffset_mono (List.mem_range'_1.mp hj).1
        simp only [decide_eq_true_eq]
        omega
      rw [hrest, List.map_nil, List.append_nil]

theorem blockIndicatorHashes_eq (network : Network) (walletCreationDate : UInt64) {rounds : Nat} (hrounds : 42 < rounds) :
    blockIndicatorHashes blocks network walletCreationDate rounds =
      some ((indicators (databaseHighestHeightOrLowestMissingAfter blocks walletCreationDate.toUInt32).toInt).map (indicatorHash blocks) ++
        [network.firstBlockHash]) := by
  have hloop := @indicatorsFrom_eq blocks (databaseHighestHeightOrLowestMissingAfter blocks walletCreationDate.toUInt32).toInt
    (Int32.toInt_lt _) 42 0 rounds 1 [] rfl hrounds rfl rfl
  have hzero : indicatorOffset 0 = 0 := rfl
  rw [hzero, Int.sub_zero] at hloop
  unfold blockIndicatorHashes
  dsimp only [Option.bind_eq_bind, Option.pure_def]
  rw [hloop, List.nil_append, ← List.range_eq_range']
  rfl

/-! ## When it is a locator -/

variable (blocks) in
/-- The rows have the hashes of different blocks, none of them the first one's. -/
structure KnownBlocks (network : Network) : Prop where
  size : ∀ row ∈ blocks.rows, row.hash.length = 32
  distinct : ∀ a ∈ blocks.rows, ∀ b ∈ blocks.rows, a.hash = b.hash → a.height = b.height
  firstSize : network.firstBlockHash.length = 32
  first : ∀ row ∈ blocks.rows, some row.hash ≠ network.firstBlockHash

variable (blocks) in
/-- The date finds its height also as the `int` it is bound as, and no index of the loop is
    below half of the lowest stored height. -/
def LocatorReaches (walletCreationDate : UInt64) : Prop :=
  ∀ top, HighestContiguous blocks walletCreationDate.toNat top → 0 < top →
    HighestContiguous blocks walletCreationDate.toUInt32.toInt32.toInt top ∧
      ∀ k, 0 < top - indicatorOffset k → ∃ low, HasBlock blocks low ∧ low ≤ 2 * (top - indicatorOffset k)

theorem toInt32_le (timestamp : UInt32) : timestamp.toInt32.toInt ≤ timestamp.toNat := by
  show (timestamp.toBitVec.toInt) ≤ _
  rw [BitVec.toInt_eq_toNat_cond]
  show (if 2 * timestamp.toNat < 2 ^ 32 then (timestamp.toNat : Int) else timestamp.toNat - (2 ^ 32 : Nat)) ≤ timestamp.toNat
  split <;> omega

theorem boundDate_le (walletCreationDate : UInt64) : walletCreationDate.toUInt32.toInt32.toInt ≤ walletCreationDate.toNat := by
  have hle := toInt32_le walletCreationDate.toUInt32
  have htrunc : walletCreationDate.toUInt32.toNat = walletCreationDate.toNat % 2 ^ 32 := UInt64.toNat_toUInt32 _
  have hmod := Nat.mod_le walletCreationDate.toNat (2 ^ 32)
  omega

/-- A date that fits is bound as it is. -/
theorem boundDate_eq (walletCreationDate : UInt64) (h : walletCreationDate.toNat < 2 ^ 31) :
    walletCreationDate.toUInt32.toInt32.toInt = walletCreationDate.toNat := by
  have htrunc : walletCreationDate.toUInt32.toNat = walletCreationDate.toNat % 2 ^ 32 := UInt64.toNat_toUInt32 _
  have hsame : walletCreationDate.toUInt32.toNat = walletCreationDate.toNat := by omega
  show walletCreationDate.toUInt32.toBitVec.toInt = _
  rw [BitVec.toInt_eq_toNat_cond]
  show (if 2 * walletCreationDate.toUInt32.toNat < 2 ^ 32 then (walletCreationDate.toUInt32.toNat : Int)
    else walletCreationDate.toUInt32.toNat - (2 ^ 32 : Nat)) = _
  rw [hsame, if_pos (by omega)]

theorem hashOf_iff {height : Int32} : databaseHashOf blocks height ≠ none ↔ HasBlock blocks height.toInt := by
  unfold databaseHashOf
  rw [Ne, Option.map_eq_none_iff, ← Ne, Option.ne_none_iff_exists']
  constructor
  · intro ⟨row, hrow⟩
    obtain ⟨hmem, hheight⟩ := atHeight_iff.mp hrow
    exact ⟨row, hmem, congrArg Int32.toInt hheight⟩
  · intro ⟨row, hmem, hheight⟩
    exact ⟨row, atHeight_iff.mpr ⟨hmem, Int32.toInt_inj.mp hheight⟩⟩

theorem mem_indicators {start i : Int} (h : i ∈ indicators start) : 0 < i ∧ i ≤ start ∧ ∃ k, i = start - indicatorOffset k := by
  obtain ⟨hmem, hpos⟩ := List.mem_filter.mp h
  obtain ⟨k, _, rfl⟩ := List.mem_map.mp hmem
  have hzero : indicatorOffset 0 = 0 := rfl
  have hmono := indicatorOffset_mono (Nat.zero_le k)
  exact ⟨of_decide_eq_true hpos, by omega, k, rfl⟩

theorem mem_indicators_of_pos {start : Int} (hstart : start < 2 ^ 31) {k : Nat} (hpos : 0 < start - indicatorOffset k) :
    start - indicatorOffset k ∈ indicators start := by
  refine List.mem_filter.mpr ⟨List.mem_map.mpr ⟨k, List.mem_range.mpr ?_, rfl⟩, by simpa using hpos⟩
  by_contra hnot
  have hmono := indicatorOffset_mono (show 41 ≤ k by omega)
  have hlast : indicatorOffset 41 = 9 + 2 ^ 31 := rfl
  omega

theorem indicators_head {start : Int} (hpos : 0 < start) : (indicators start).head? = some start := by
  have hzero : indicatorOffset 0 = 0 := rfl
  unfold indicators
  rw [List.range_succ_eq_map, List.map_cons, hzero, Int.sub_zero, List.filter_cons_of_pos (by simpa using hpos)]
  rfl

theorem indicators_descending (start : Int) : (indicators start).Pairwise fun a b => b ≤ a := by
  refine List.Pairwise.filter _ (List.pairwise_map.mpr (List.pairwise_lt_range.imp fun {j k} hjk => ?_))
  have := indicatorOffset_mono (Nat.le_of_lt hjk)
  omega

variable {network : Network} {walletCreationDate : UInt64}

/-- The nearest height to an index of the loop. -/
theorem nearest_indicator {start i : Int} (hstart : start < 2 ^ 31) (h : i ∈ indicators start) :
    ∃ lower upper, Around blocks i lower upper ∧ (databaseNearestHeight blocks (Int32.ofInt i)).toInt = nearer i lower upper := by
  obtain ⟨hpos, hle, _⟩ := mem_indicators h
  exact nearestHeight_eq hpos (by omega)

section

variable (hknown : KnownBlocks blocks network) {start : Int} (hstart : start < 2 ^ 31)

include hknown hstart

/-- Above half of the lowest height every index names a stored block. -/
theorem isLocator_of_reaches (hbottom : ∀ i ∈ indicators start, ∃ low, HasBlock blocks low ∧ low ≤ 2 * i)
    (hfirst : ∀ top, HighestContiguous blocks walletCreationDate.toNat top → 0 < top → top = start ∧ HasBlock blocks start) :
    IsLocator blocks network walletCreationDate ((indicators start).map (indicatorHash blocks) ++ [network.firstBlockHash])
      ((indicators start).map (fun i => (databaseNearestHeight blocks (Int32.ofInt i)).toInt) ++ [0]) := by
  have hrow : ∀ i ∈ indicators start, ∃ row ∈ blocks.rows,
      row.height.toInt = (databaseNearestHeight blocks (Int32.ofInt i)).toInt ∧ indicatorHash blocks i = some row.hash := by
    intro i hi
    obtain ⟨lower, upper, haround, hnear⟩ := nearest_indicator hstart hi
    obtain ⟨row, hrow, hheight⟩ := (nearer_hasBlock_iff haround (mem_indicators hi).1).mpr (hbottom i hi)
    refine ⟨row, hrow, hheight.trans hnear.symm, ?_⟩
    have hat := atHeight_iff.mpr ⟨hrow, Int32.toInt_inj.mp (hheight.trans hnear.symm)⟩
    rw [indicatorHash, databaseHashOf, hat]
    rfl
  constructor
  · refine List.rel_append ?_ (.cons (.inr ⟨rfl, rfl⟩) .nil)
    rw [List.forall₂_map_left_iff, List.forall₂_map_right_iff, List.forall₂_same]
    intro i hi
    obtain ⟨row, hmem, hheight, hhash⟩ := hrow i hi
    exact .inl ⟨row, hmem, hheight, hhash⟩
  · intro hash hhash
    cases List.mem_append.mp hhash with
    | inl hhash =>
      obtain ⟨i, hi, rfl⟩ := List.mem_map.mp hhash
      obtain ⟨row, hmem, _, heq⟩ := hrow i hi
      rw [heq]
      exact hknown.size row hmem
    | inr hhash =>
      rw [List.mem_singleton.mp hhash]
      exact hknown.firstSize
  · refine List.pairwise_append.mpr ⟨?_, List.pairwise_singleton _ _, fun height hheight zero hzero => ?_⟩
    · refine List.pairwise_map.mpr ((indicators_descending start).imp_of_mem fun {a b} ha hb hba => ?_)
      obtain ⟨_, _, hara, hneara⟩ := nearest_indicator hstart ha
      obtain ⟨_, _, harb, hnearb⟩ := nearest_indicator hstart hb
      rw [hneara, hnearb]
      exact nearer_mono harb hara (mem_indicators hb).1 hba
    · obtain ⟨i, hi, rfl⟩ := List.mem_map.mp hheight
      obtain ⟨row, hmem, hrow', _⟩ := hrow i hi
      rw [List.mem_singleton.mp hzero, ← hrow']
      exact Int.le_of_lt (height_pos_of_hasBlock ⟨row, hmem, rfl⟩)
  · intro top htop hpos
    obtain ⟨rfl, hhas⟩ := hfirst top htop hpos
    have hmem : top ∈ indicators top := List.mem_of_mem_head? (indicators_head hpos)
    obtain ⟨_, _, haround, hnear⟩ := nearest_indicator hstart hmem
    rw [List.head?_append, List.head?_map, indicators_head hpos, Option.map_some, hnear, nearer_self haround hpos hhas]
    rfl
  · exact List.getLast?_concat

omit hknown in
/-- A hash that is there names a stored height. -/
theorem hasBlock_of_isLocator {heights : List Int} {i : Int} (hi : i ∈ indicators start)
    (h : IsLocator blocks network walletCreationDate ((indicators start).map (indicatorHash blocks) ++ [network.firstBlockHash]) heights) :
    ∃ low, HasBlock blocks low ∧ low ≤ 2 * i := by
  obtain ⟨lower, upper, haround, hnear⟩ := nearest_indicator hstart hi
  rw [← nearer_hasBlock_iff haround (mem_indicators hi).1, ← hnear, ← hashOf_iff]
  intro hnone
  have hsize := h.size _ (List.mem_append_left _ (List.mem_map_of_mem hi))
  rw [indicatorHash, hnone] at hsize
  cases hsize

/-- The first hash tells the height it is of. -/
theorem start_of_isLocator {heights : List Int} {top : Int} (htop : HighestContiguous blocks walletCreationDate.toNat top) (hpos : 0 < top)
    (hhas : 0 < start → HasBlock blocks start)
    (h : IsLocator blocks network walletCreationDate ((indicators start).map (indicatorHash blocks) ++ [network.firstBlockHash]) heights) :
    top = start := by
  obtain ⟨heights, rfl⟩ : ∃ rest, heights = top :: rest := by
    cases heights with
    | nil => cases h.first top htop hpos
    | cons height rest => exact ⟨rest, by rw [Option.some.inj (h.first top htop hpos)]⟩
  have hnamed := h.named
  by_cases hstart0 : 0 < start
  · have hfirst : ∃ rest, indicators start = start :: rest := by
      have hhead := indicators_head hstart0
      cases hlist : indicators start with
      | nil => rw [hlist] at hhead; cases hhead
      | cons i rest =>
        rw [hlist] at hhead
        exact ⟨rest, by rw [Option.some.inj hhead]⟩
    obtain ⟨rest, hrest⟩ := hfirst
    have hmem : start ∈ indicators start := hrest ▸ List.mem_cons_self
    obtain ⟨_, _, haround, hnear⟩ := nearest_indicator hstart hmem
    obtain ⟨row, hrow, hheight⟩ := hhas hstart0
    have hat : blocks.atHeight (databaseNearestHeight blocks (Int32.ofInt start)) = some row := by
      refine atHeight_iff.mpr ⟨hrow, Int32.toInt_inj.mp ?_⟩
      rw [hnear, nearer_self haround hstart0 ⟨row, hrow, hheight⟩, hheight]
    rw [hrest, List.map_cons, List.cons_append] at hnamed
    obtain ⟨hname, _⟩ := List.forall₂_cons.mp hnamed
    rw [indicatorHash, databaseHashOf, hat, Option.map_some] at hname
    rcases hname with ⟨other, hother, hother', hhash⟩ | ⟨hzero, _⟩
    · have hsame := hknown.distinct row hrow other hother (Option.some.inj hhash)
      rw [← hother', ← hheight, hsame]
    · omega
  · have hnil : indicators start = [] := by
      refine List.eq_nil_iff_forall_not_mem.mpr fun i hi => ?_
      obtain ⟨hi0, hile, _⟩ := mem_indicators hi
      omega
    rw [hnil, List.map_nil, List.nil_append] at hnamed
    obtain ⟨hname, _⟩ := List.forall₂_cons.mp hnamed
    rcases hname with ⟨row, hrow, _, hhash⟩ | ⟨hzero, _⟩
    · exact absurd hhash.symm (hknown.first row hrow)
    · omega

end

/-- The call ends, and what it returns is a locator exactly if the loop reaches what it
    rounds to. -/
theorem blockIndicatorHashes_iff (network : Network) (walletCreationDate : UInt64) (hknown : KnownBlocks blocks network) :
    ∃ hashes, (∀ rounds > 42, blockIndicatorHashes blocks network walletCreationDate rounds = some hashes) ∧
      ((∃ heights, IsLocator blocks network walletCreationDate hashes heights) ↔ LocatorReaches blocks walletCreationDate) := by
  have hcode := @highestHeightOrLowestMissingAfter_spec blocks walletCreationDate.toUInt32
  have hequal := fun rounds (h : rounds > 42) => @blockIndicatorHashes_eq blocks network walletCreationDate rounds h
  have hlt := Int32.toInt_lt (databaseHighestHeightOrLowestMissingAfter blocks walletCreationDate.toUInt32)
  generalize (databaseHighestHeightOrLowestMissingAfter blocks walletCreationDate.toUInt32).toInt = start at hcode hequal hlt
  refine ⟨_, hequal, ⟨fun ⟨heights, hlocator⟩ top htop hpos => ?_, fun hreaches => ⟨_, isLocator_of_reaches hknown hlt ?_ ?_⟩⟩⟩
  · obtain rfl := start_of_isLocator hknown hlt htop hpos hcode.hasBlock hlocator
    exact ⟨hcode, fun k hk => hasBlock_of_isLocator hlt (mem_indicators_of_pos hlt hk) hlocator⟩
  · intro i hi
    obtain ⟨hi0, hile, k, rfl⟩ := mem_indicators hi
    obtain ⟨top, htop⟩ := @exists_highestContiguous blocks walletCreationDate.toNat
    obtain ⟨hbound, hbottom⟩ := hreaches top htop (hcode.pos_of_le htop (boundDate_le walletCreationDate) (by omega))
    rw [highestContiguous_unique hcode hbound] at hi0 ⊢
    exact hbottom k hi0
  · intro top htop hpos
    obtain ⟨hbound, _⟩ := hreaches top htop hpos
    obtain rfl := highestContiguous_unique hcode hbound
    exact ⟨rfl, hcode.hasBlock hpos⟩

/-- A chain of one block on the first one. -/
def firstRow : BlockRow := ⟨1, hash2015, hashPrefixOf hash2015, merkleRoot2015, 1231469665, none, firstHeight_pos, row2015.hashPrefix_eq⟩

def oneBlock : BlockTable := ⟨[firstRow], List.pairwise_singleton _ _⟩

theorem knownBlocks_oneBlock : KnownBlocks oneBlock network2015 := by
  have honly : ∀ row ∈ oneBlock.rows, row = firstRow := fun row hrow => List.mem_singleton.mp hrow
  refine ⟨fun row hrow => ?_, fun a ha b hb _ => ?_, by decide, fun row hrow => ?_⟩
  · rw [honly row hrow]
    decide
  · rw [honly a ha, honly b hb]
  · rw [honly row hrow]
    decide

theorem locatorReaches_oneBlock : LocatorReaches oneBlock 1300000000 := by
  have hone : HasBlock oneBlock 1 := ⟨firstRow, List.mem_singleton.mpr rfl, rfl⟩
  intro top htop hpos
  have hle : top ≤ 1 := by
    obtain ⟨row, hrow, hheight⟩ := htop.hasBlock hpos
    rw [List.mem_singleton.mp hrow] at hheight
    exact Int.le_of_eq hheight.symm
  refine ⟨boundDate_eq 1300000000 (by decide) ▸ htop, fun k hk => ⟨1, hone, by omega⟩⟩

theorem blockIndicatorHashes_oneBlock : ∃ hashes,
    (∀ rounds > 42, blockIndicatorHashes oneBlock network2015 1300000000 rounds = some hashes) ∧
      ∃ heights, IsLocator oneBlock network2015 1300000000 hashes heights := by
  obtain ⟨hashes, hequal, hiff⟩ := blockIndicatorHashes_iff network2015 1300000000 knownBlocks_oneBlock
  exact ⟨hashes, hequal, hiff.mpr locatorReaches_oneBlock⟩

/-- The lowest starting block is at 2015, and the loop from there comes below 1007. -/
theorem not_blockIndicatorHashes : ¬ ∃ hashes heights,
    blockIndicatorHashes network2015.initialBlocks network2015 1300000000 43 = some hashes ∧
      IsLocator network2015.initialBlocks network2015 1300000000 hashes heights := by
  intro ⟨hashes, heights, hequal, hlocator⟩
  have hnull : (blockIndicatorHashes network2015.initialBlocks network2015 1300000000 43).map (fun hashes => decide (none ∈ hashes)) =
      some true := by decide +kernel
  rw [hequal] at hnull
  have hsize := hlocator.size none (of_decide_eq_true (Option.some.inj hnull))
  cases hsize

end BitcoinSpoon.Database
