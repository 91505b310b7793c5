/-
  BitcoinSpoon.Merkle.Bounds — where the readers of a merkle block read
  (`code/MerkleBlock.c`, `code/BTCUtil.c`).

  The readers of the other modules take what is left of the message. Here they have the
  position of `ptr` and the message, and a read outside of it is `none`. `end - ptr` is
  compared with unsigned numbers, so behind the end it is huge: a reader is inside as long
  as it starts inside (`readVarIntAt_eq`). `merkleFlags` is the one that starts at 84
  whatever the length is, and `hashCount * 32` wraps. The cursor of the walk is an `int`.

  `merkle_readers_iff` says for which messages all readers stay inside and counts that do
  not fit are refused.
-/

import BitcoinSpoon.Merkle.Block
import BitcoinSpoon.Util.VarInt

namespace BitcoinSpoon

open Wire

/-! ## Positions -/

/-- `end - ptr` where it is compared with an unsigned number. -/
def endMinus (data : Bytes) (ptr : Nat) : Nat := (2 ^ 64 + data.length - ptr) % 2 ^ 64

/-- `uint8readP` and the wider ones. -/
def readLEAt (k : Nat) (data : Bytes) (ptr : Nat) : Option (Nat × Nat) :=
  if k ≤ endMinus data ptr then
    if ptr + k ≤ data.length then some (leNat ((data.drop ptr).take k), ptr + k) else none
  else some (0, data.length)

def readVarIntAt (data : Bytes) (ptr : Nat) : Option (Nat × Nat) := do
  let (result, ptr) ← readLEAt 1 data ptr
  if result < 253 then some (result, ptr)
  else if result < 254 then readLEAt 2 data ptr
  else if result < 255 then readLEAt 4 data ptr
  else readLEAt 8 data ptr

/-- `DataRef` or `DataCopy` of a part of the message. -/
def dataPartAt (data : Bytes) (ptr length : Nat) : Option Data :=
  if ptr + length ≤ data.length then some (some ((data.drop ptr).take length)) else none

def allMerkleHashesAt (data : Bytes) : Option Data :=
  if data.length < 85 then some none
  else do
    let (count, ptr) ← readVarIntAt data 84
    if endMinus data ptr < 32 * count % 2 ^ 64 then some none
    else dataPartAt data ptr (32 * count % 2 ^ 64 % 2 ^ 32)

/-- The loop of `merkleHashes`; the difference is compared with an `int` here. The inner
    `none` is the end of the message. -/
def merkleHashesFromAt (data : Bytes) : Nat → Nat → Option (Option Datas)
  | 0, _ => some (some [])
  | count + 1, ptr =>
    if (data.length : Int) - ptr < 32 then some none
    else do
      let hash ← dataPartAt data ptr 32
      let array ← merkleHashesFromAt data count (ptr + 32)
      some (array.map (hash :: ·))

def merkleHashesAt (data : Bytes) : Option Datas :=
  if data.length < 85 then some []
  else do
    let (count, ptr) ← readVarIntAt data 84
    let array ← merkleHashesFromAt data count ptr
    some (array.getD [])

def merkleFlagsAt (data : Bytes) : Option Data := do
  let (hashCount, ptr) ← readVarIntAt data 84
  if endMinus data ptr < hashCount * 32 % 2 ^ 64 then some none
  else do
    let (flagBytes, ptr) ← readVarIntAt data (ptr + hashCount * 32 % 2 ^ 64)
    if endMinus data ptr ≠ flagBytes then some none else dataPartAt data ptr (flagBytes % 2 ^ 32)

def MerkleBlockValidAt (block : MerkleBlock) : Option Bool := do
  let hashes ← merkleHashesAt block.data.toBytes
  let result := decide (80 ≤ block.data.length)
  if 1 < hashes.length then
    some (result && !dataEqual (hashes.getD (hashes.length - 1) none) (hashes.getD (hashes.length - 2) none))
  else some result

variable (c : Crypto)

/-- `none` is also a cursor that overflows. -/
def calculatedMerkleRootFlexibleAt (flags : Data) : Nat → WalkState → Option (Data × WalkState)
  | height, s =>
    if flagCount flags ≤ s.i then some (none, s)
    else if flags.length ≤ s.i / 8 then none
    else if 2 ^ 31 ≤ s.i + 1 then none
    else
      let flag := flagAt flags s.i
      let s := { s with i := s.i + 1 }
      if flag ≠ 0 then
        match height with
        | 0 =>
          let (element, hashes) := nextElement s.hashes
          some (element, { s with hashes := hashes, matched := s.matched.map (· ++ [element]) })
        | height + 1 => do
          let (left, s) ← calculatedMerkleRootFlexibleAt flags height s
          let (right, s) ← calculatedMerkleRootFlexibleAt flags height s
          let right := if right = none then left else right
          some (hash256 c (dataAdd left right), s)
      else
        let (element, hashes) := nextElement s.hashes
        some (element, { s with hashes := hashes })

def calculatedMerkleRootMaestroAt (block : MerkleBlock) (matched : Option Datas) : Option (Data × Option Datas) := do
  let valid ← MerkleBlockValidAt block
  if !valid then some (none, matched)
  else do
    let flags ← merkleFlagsAt block.data.toBytes
    let hashes ← merkleHashesAt block.data.toBytes
    let (root, s) ← calculatedMerkleRootFlexibleAt c flags (treeHeight block) ⟨0, hashes, matched⟩
    some (root, s.matched)

def calculatedMerkleRootAt (block : MerkleBlock) : Option Data := (calculatedMerkleRootMaestroAt c block none).map Prod.fst

def matchingTxIdsIfValidRootAt (block : MerkleBlock) : Option Datas := do
  let (root, matched) ← calculatedMerkleRootMaestroAt c block (some [])
  some (if root = none || merkleRoot block = none || !dataEqual root (merkleRoot block) then [] else matched.getD [])

/-! ## Inside -/

/-- The bits that a tree of a height takes. -/
def bitsTaken : Nat → List Bool → Nat
  | _, [] => 0
  | _, false :: _ => 1
  | 0, true :: _ => 1
  | height + 1, true :: bits => 1 + bitsTaken height bits + bitsTaken height (bits.drop (bitsTaken height bits))

/-- No reader reads outside of the message, and each returns what it does on what is left. -/
structure ReadersInside (block : MerkleBlock) : Prop where
  all : allMerkleHashesAt block.data.toBytes ≠ none
  hashes : merkleHashesAt block.data.toBytes = some (merkleHashes block)
  flags : merkleFlagsAt block.data.toBytes = some (merkleFlags block)
  root : calculatedMerkleRootAt c block = some (calculatedMerkleRoot c block)
  matching : matchingTxIdsIfValidRootAt c block = some (matchingTxIdsIfValidRoot c block)

/-- The declared number of hashes, and what comes behind it. -/
def declaredHashes (block : MerkleBlock) : Nat × Bytes := readVarInt (block.data.toBytes.drop 84)

def HashesFit (block : MerkleBlock) : Prop := 32 * (declaredHashes block).1 ≤ (declaredHashes block).2.length

/-- The declared number of flag bytes is there behind the hashes. -/
def FlagsFit (block : MerkleBlock) : Prop :=
  let (flagBytes, rest) := readVarInt ((declaredHashes block).2.drop (32 * (declaredHashes block).1))
  flagBytes ≤ rest.length

/-- A block whose counts do not fit is not accepted. -/
def RefusesUnfit (block : MerkleBlock) : Prop := ¬ (HashesFit block ∧ FlagsFit block) → ¬ RootAccepted c block

variable {c} {data : Bytes} {ptr : Nat}

theorem endMinus_inside (h : ptr ≤ data.length) (hsize : data.length < 2 ^ 32) : endMinus data ptr = data.length - ptr := by
  rw [endMinus]
  omega

theorem endMinus_behind (h : data.length < ptr) (hsize : ptr < 2 ^ 32) : 2 ^ 63 < endMinus data ptr := by
  rw [endMinus]
  omega

theorem readLEAt_eq (h : ptr ≤ data.length) (hsize : data.length < 2 ^ 32) (k : Nat) :
    ∃ next, readLEAt k data ptr = some ((readLE k (data.drop ptr)).1, next) ∧ data.drop next = (readLE k (data.drop ptr)).2 ∧
      next ≤ data.length := by
  rw [readLEAt, endMinus_inside h hsize, readLE, List.length_drop]
  by_cases hk : k ≤ data.length - ptr
  · rw [if_pos hk, if_pos hk, if_pos (by omega)]
    exact ⟨ptr + k, rfl, by rw [List.drop_drop], by omega⟩
  · rw [if_neg hk, if_neg hk]
    exact ⟨data.length, rfl, List.drop_length, Nat.le_refl _⟩

theorem readVarIntAt_eq (h : ptr ≤ data.length) (hsize : data.length < 2 ^ 32) :
    ∃ next, readVarIntAt data ptr = some ((readVarInt (data.drop ptr)).1, next) ∧ data.drop next = (readVarInt (data.drop ptr)).2 ∧
      next ≤ data.length := by
  obtain ⟨next, hread, hdrop, hle⟩ := readLEAt_eq h hsize 1
  have hwide : ∀ k, ∃ last, readLEAt k data next = some ((readLE k (readLE 1 (data.drop ptr)).2).1, last) ∧
      data.drop last = (readLE k (readLE 1 (data.drop ptr)).2).2 ∧ last ≤ data.length := by
    rw [← hdrop]
    exact readLEAt_eq hle hsize
  rw [readVarIntAt, hread, readVarInt, bind_run, uint8readP]
  simp only [Option.bind_eq_bind, Option.bind_some]
  split
  · exact ⟨next, rfl, hdrop, hle⟩
  split
  · exact hwide 2
  split
  · exact hwide 4
  · exact hwide 8

/-- Behind the end the first byte is read all the same. -/
theorem readVarIntAt_behind (h : data.length < ptr) (hsize : ptr < 2 ^ 32) : readVarIntAt data ptr = none := by
  have hhuge := endMinus_behind h hsize
  rw [readVarIntAt, readLEAt, if_pos (by omega), if_neg (by omega)]
  rfl

theorem dataPartAt_some {length : Nat} (h : ptr + length ≤ data.length) :
    dataPartAt data ptr length = some (some ((data.drop ptr).take length)) := if_pos h

/-! ## The readers -/

theorem merkleHashesFromAt_eq (h : ptr ≤ data.length) (count : Nat) :
    merkleHashesFromAt data count ptr = some (merkleHashesFrom count (data.drop ptr)) := by
  induction count generalizing ptr with
  | zero => rfl
  | succ count ih =>
    rw [merkleHashesFromAt, merkleHashesFrom, List.length_drop]
    by_cases hshort : data.length - ptr < 32
    · rw [if_pos (by omega), if_pos hshort]
    · rw [if_neg (by omega), if_neg hshort, dataPartAt_some (by omega), ih (by omega), List.drop_drop]
      rfl

theorem merkleHashesAt_eq (block : MerkleBlock) : merkleHashesAt block.data.toBytes = some (merkleHashes block) := by
  rw [merkleHashesAt, merkleHashes]
  by_cases hshort : block.data.length < 85
  · rw [if_pos hshort, if_pos (show block.data.toBytes.length < 85 from hshort)]
  · have hlong : 84 ≤ block.data.toBytes.length := Nat.le_of_lt (Nat.le_of_not_lt hshort)
    obtain ⟨next, hread, hdrop, hle⟩ := readVarIntAt_eq hlong block.length_lt
    rw [if_neg hshort, if_neg (show ¬ block.data.toBytes.length < 85 from hshort), hread]
    simp only [Option.bind_eq_bind, Option.bind_some, merkleHashesFromAt_eq hle, hdrop]
    rfl

theorem allMerkleHashesAt_inside (block : MerkleBlock) : allMerkleHashesAt block.data.toBytes ≠ none := by
  have hlength : block.data.toBytes.length < 2 ^ 32 := block.length_lt
  rw [allMerkleHashesAt]
  by_cases hshort : block.data.toBytes.length < 85
  · rw [if_pos hshort]
    simp
  · obtain ⟨next, hread, -, hle⟩ := readVarIntAt_eq (show 84 ≤ block.data.toBytes.length by omega) hlength
    rw [if_neg hshort, hread]
    simp only [Option.bind_eq_bind, Option.bind_some, endMinus_inside hle hlength]
    split
    · simp
    · rw [dataPartAt_some (by omega)]
      simp

/-- `merkleFlags` starts at 84 whatever the length is. -/
theorem merkleFlagsAt_eq (block : MerkleBlock) :
    merkleFlagsAt block.data.toBytes = if block.data.length < 84 then none else some (merkleFlags block) := by
  have hlength : block.data.toBytes.length < 2 ^ 32 := block.length_lt
  rw [merkleFlagsAt]
  by_cases hshort : block.data.length < 84
  · rw [if_pos hshort, readVarIntAt_behind hshort (by decide)]
    rfl
  · obtain ⟨next, hread, hdrop, hle⟩ := readVarIntAt_eq (Nat.le_of_not_lt hshort) hlength
    rw [if_neg hshort, hread, merkleFlags, if_neg hshort]
    cases hdeclared : readVarInt (block.data.toBytes.drop 84) with
    | mk hashCount rest =>
      rw [hdeclared] at hdrop
      dsimp only at hdrop
      have hrest : rest.length = block.data.toBytes.length - next := by
        rw [← hdrop, List.length_drop]
      simp only [Option.bind_eq_bind, Option.bind_some, endMinus_inside hle hlength, hrest]
      by_cases hover : block.data.toBytes.length - next < hashCount * 32 % 2 ^ 64
      · rw [if_pos hover, if_pos hover]
      · obtain ⟨last, hflags, hlast, hbound⟩ := @readVarIntAt_eq block.data.toBytes (next + hashCount * 32 % 2 ^ 64) (by omega) hlength
        rw [← List.drop_drop, hdrop] at hflags hlast
        rw [if_neg hover, if_neg hover, hflags]
        cases hread' : readVarInt (rest.drop (hashCount * 32 % 2 ^ 64)) with
        | mk flagBytes flags =>
          rw [hread'] at hlast
          dsimp only at hlast
          have hleft : flags.length = block.data.toBytes.length - last := by
            rw [← hlast, List.length_drop]
          simp only [Option.bind_some, endMinus_inside hbound hlength, hleft]
          by_cases hcount : block.data.toBytes.length - last ≠ flagBytes
          · rw [if_pos hcount, if_pos hcount]
          · rw [if_neg hcount, if_neg hcount, dataPartAt_some (by omega), hlast, List.take_of_length_le (by omega)]

theorem merkleBlockValidAt_eq (block : MerkleBlock) : MerkleBlockValidAt block = some (MerkleBlockValid block) := by
  rw [MerkleBlockValidAt, merkleHashesAt_eq, MerkleBlockValid]
  simp only [Option.bind_eq_bind, Option.bind_some]
  split <;> rfl

/-! ## The cursor -/

theorem flexible_cursor (flags : Data) (height : Nat) (s : WalkState) :
    (calculatedMerkleRootFlexible c flags height s).2.i = s.i + bitsTaken height ((flagBits flags).drop s.i) := by
  induction height generalizing s with
  | zero =>
    by_cases h : s.i < flagCount flags
    · rw [drop_flagBits h]
      by_cases hflag : flagAt flags s.i = 0
      · rw [flexible_unflagged c h hflag]
        simp [hflag, bitsTaken]
      · rw [flexible_leaf c h hflag]
        simp [hflag, bitsTaken]
    · rw [flexible_spent c (Nat.not_lt.mp h), flagBits_drop_nil (Nat.not_lt.mp h)]
      simp [bitsTaken]
  | succ height ih =>
    by_cases h : s.i < flagCount flags
    · rw [drop_flagBits h]
      by_cases hflag : flagAt flags s.i = 0
      · rw [flexible_unflagged c h hflag]
        simp [hflag, bitsTaken]
      · have hleft := ih { s with i := s.i + 1 }
        have hright := ih (calculatedMerkleRootFlexible c flags height { s with i := s.i + 1 }).2
        rw [flexible_node c h hflag rfl rfl, hright, hleft]
        simp only [ne_eq, hflag, not_false_eq_true, decide_true, bitsTaken, List.drop_drop]
        omega
    · rw [flexible_spent c (Nat.not_lt.mp h), flagBits_drop_nil (Nat.not_lt.mp h)]
      simp [bitsTaken]

theorem flexibleAt_spent {flags : Data} {height : Nat} {s : WalkState} (h : flagCount flags ≤ s.i) :
    calculatedMerkleRootFlexibleAt c flags height s = some (none, s) := by
  cases height <;> rw [calculatedMerkleRootFlexibleAt, if_pos h]

/-- The byte of a bit that is left is there. -/
theorem flag_inside {flags : Data} {i : Nat} (h : i < flagCount flags) : ¬ flags.length ≤ i / 8 := by
  have hle : flagCount flags ≤ flags.length * 8 := Nat.mod_le _ _
  omega

theorem flexibleAt_open {flags : Data} {height : Nat} {s : WalkState} (h : s.i < flagCount flags) :
    calculatedMerkleRootFlexibleAt c flags height s =
      if 2 ^ 31 ≤ s.i + 1 then none
      else if flagAt flags s.i ≠ 0 then
        match height with
        | 0 => some ((nextElement s.hashes).1,
            ⟨s.i + 1, (nextElement s.hashes).2, s.matched.map (· ++ [(nextElement s.hashes).1])⟩)
        | height + 1 => (calculatedMerkleRootFlexibleAt c flags height { s with i := s.i + 1 }).bind fun left =>
          (calculatedMerkleRootFlexibleAt c flags height left.2).map fun right =>
            (hash256 c (dataAdd left.1 (if right.1 = none then left.1 else right.1)), right.2)
      else some ((nextElement s.hashes).1, { s with i := s.i + 1, hashes := (nextElement s.hashes).2 }) := by
  cases height with
  | zero => rw [calculatedMerkleRootFlexibleAt, if_neg (Nat.not_le.mpr h), if_neg (flag_inside h)]
  | succ height =>
    rw [calculatedMerkleRootFlexibleAt, if_neg (Nat.not_le.mpr h), if_neg (flag_inside h)]
    split
    · rfl
    dsimp only
    split
    · cases calculatedMerkleRootFlexibleAt c flags height { s with i := s.i + 1 } with
      | none => rfl
      | some left =>
        simp only [Option.bind_eq_bind, Option.bind_some]
        cases calculatedMerkleRootFlexibleAt c flags height left.2 <;> rfl
    · rfl

theorem bitsTaken_nil (height : Nat) : bitsTaken height [] = 0 := by cases height <;> rfl

theorem bitsTaken_pos (height : Nat) (bit : Bool) (bits : List Bool) : 0 < bitsTaken height (bit :: bits) := by
  cases bit with
  | false => cases height <;> exact Nat.one_pos
  | true =>
    cases height with
    | zero => exact Nat.one_pos
    | succ height =>
      rw [bitsTaken]
      omega

/-- The walk is inside as long as its cursor does not overflow. -/
theorem flexibleAt_eq (flags : Data) (height : Nat) {s : WalkState} (h : s.i < 2 ^ 31) :
    calculatedMerkleRootFlexibleAt c flags height s =
      if s.i + bitsTaken height ((flagBits flags).drop s.i) < 2 ^ 31 then some (calculatedMerkleRootFlexible c flags height s)
      else none := by
  induction height generalizing s with
  | zero =>
    by_cases hleft : s.i < flagCount flags
    · rw [flexibleAt_open hleft, drop_flagBits hleft]
      have htaken : bitsTaken 0 (decide (flagAt flags s.i ≠ 0) :: (flagBits flags).drop (s.i + 1)) = 1 := by
        cases decide (flagAt flags s.i ≠ 0) <;> rfl
      rw [htaken]
      by_cases hover : 2 ^ 31 ≤ s.i + 1
      · rw [if_pos hover, if_neg (Nat.not_lt.2 hover)]
      · rw [if_neg hover, if_pos (Nat.lt_of_not_le hover)]
        by_cases hflag : flagAt flags s.i = 0
        · rw [if_neg (not_not.2 hflag), flexible_unflagged c hleft hflag]
        · rw [if_pos hflag, flexible_leaf c hleft hflag]
    · rw [flexibleAt_spent (Nat.not_lt.mp hleft), flexible_spent c (Nat.not_lt.mp hleft), flagBits_drop_nil (Nat.not_lt.mp hleft),
        bitsTaken_nil, Nat.add_zero, if_pos h]
  | succ height ih =>
    by_cases hleft : s.i < flagCount flags
    · rw [flexibleAt_open hleft, drop_flagBits hleft]
      by_cases hover : 2 ^ 31 ≤ s.i + 1
      · have hpos := bitsTaken_pos (height + 1) (decide (flagAt flags s.i ≠ 0)) ((flagBits flags).drop (s.i + 1))
        rw [if_pos hover, if_neg (by omega)]
      · rw [if_neg hover]
        by_cases hflag : flagAt flags s.i = 0
        · rw [if_neg (not_not.2 hflag), flexible_unflagged c hleft hflag]
          simp only [hflag, ne_eq, not_true_eq_false, decide_false, bitsTaken]
          rw [if_pos (Nat.lt_of_not_le hover)]
        · rw [if_pos hflag, flexible_node c hleft hflag rfl rfl]
          have hcursor := @flexible_cursor c flags height { s with i := s.i + 1 }
          dsimp only at hcursor
          simp only [hflag, ne_eq, not_false_eq_true, decide_true, bitsTaken]
          rw [ih (show s.i + 1 < 2 ^ 31 by omega)]
          dsimp only
          by_cases hfirst : s.i + 1 + bitsTaken height ((flagBits flags).drop (s.i + 1)) < 2 ^ 31
          · rw [if_pos hfirst, Option.bind_some, ih (by rw [hcursor]; exact hfirst), hcursor]
            simp only [List.drop_drop]
            by_cases hsecond : s.i + 1 + bitsTaken height ((flagBits flags).drop (s.i + 1)) +
                bitsTaken height ((flagBits flags).drop (s.i + 1 + bitsTaken height ((flagBits flags).drop (s.i + 1)))) < 2 ^ 31
            · rw [if_pos hsecond, if_pos (by omega), Option.map_some, hash256_dataAdd]
            · rw [if_neg hsecond, if_neg (by omega), Option.map_none]
          · rw [if_neg hfirst, if_neg (by omega), Option.bind_none]
    · rw [flexibleAt_spent (Nat.not_lt.mp hleft), flexible_spent c (Nat.not_lt.mp hleft), flagBits_drop_nil (Nat.not_lt.mp hleft),
        bitsTaken_nil, Nat.add_zero, if_pos h]

/-- The walk of a valid block takes fewer bits than an `int` counts. -/
def WalkFits (block : MerkleBlock) : Prop :=
  MerkleBlockValid block = true → bitsTaken (treeHeight block) (flagBits (merkleFlags block)) < 2 ^ 31

theorem walkAt_start (flags : Data) (height : Nat) (hashes : Datas) (matched : Option Datas) :
    calculatedMerkleRootFlexibleAt c flags height ⟨0, hashes, matched⟩ =
      if bitsTaken height (flagBits flags) < 2 ^ 31 then some (calculatedMerkleRootFlexible c flags height ⟨0, hashes, matched⟩)
      else none := by
  have hstart : (⟨0, hashes, matched⟩ : WalkState).i < 2 ^ 31 := Nat.zero_lt_succ _
  rw [flexibleAt_eq flags height hstart]
  dsimp only
  rw [List.drop_zero, Nat.zero_add]

theorem maestroAt_eq {block : MerkleBlock} (hlong : 84 ≤ block.data.length) (hwalk : WalkFits block) (matched : Option Datas) :
    calculatedMerkleRootMaestroAt c block matched = some (calculatedMerkleRootMaestro c block matched) := by
  rw [calculatedMerkleRootMaestroAt, calculatedMerkleRootMaestro, merkleBlockValidAt_eq, Option.bind_eq_bind, Option.bind_some]
  by_cases hvalid : (!MerkleBlockValid block) = true
  · rw [if_pos hvalid, if_pos hvalid]
  · have hfits := hwalk (by simpa using hvalid)
    rw [if_neg hvalid, if_neg hvalid, merkleFlagsAt_eq, if_neg (Nat.not_lt.2 hlong), merkleHashesAt_eq, Option.bind_eq_bind,
      Option.bind_some, Option.bind_eq_bind, Option.bind_some, walkAt_start, if_pos hfits]
    generalize calculatedMerkleRootFlexible c _ _ _ = walked
    obtain ⟨root, s⟩ := walked
    rfl

theorem maestroAt_none {block : MerkleBlock} (hlong : 84 ≤ block.data.length) (hwalk : ¬ WalkFits block) (matched : Option Datas) :
    calculatedMerkleRootMaestroAt c block matched = none := by
  rw [WalkFits, Classical.not_imp] at hwalk
  obtain ⟨hvalid, hover⟩ := hwalk
  rw [calculatedMerkleRootMaestroAt, merkleBlockValidAt_eq, Option.bind_eq_bind, Option.bind_some, hvalid,
    if_neg (show ¬ (!true) = true by decide), merkleFlagsAt_eq, if_neg (Nat.not_lt.2 hlong), merkleHashesAt_eq, Option.bind_eq_bind,
    Option.bind_some, Option.bind_eq_bind, Option.bind_some, walkAt_start, if_neg hover, Option.bind_eq_bind, Option.bind_none]

theorem readersInside_iff (block : MerkleBlock) : ReadersInside c block ↔ 84 ≤ block.data.length ∧ WalkFits block := by
  constructor
  · intro h
    have hlong : 84 ≤ block.data.length := by
      by_contra hshort
      have hflags := h.flags
      rw [merkleFlagsAt_eq, if_pos (Nat.lt_of_not_le hshort)] at hflags
      cases hflags
    refine ⟨hlong, ?_⟩
    by_contra hwalk
    have hroot := h.root
    rw [calculatedMerkleRootAt, maestroAt_none hlong hwalk] at hroot
    cases hroot
  · rintro ⟨hlong, hwalk⟩
    refine ⟨allMerkleHashesAt_inside block, merkleHashesAt_eq block, ?_, ?_, ?_⟩
    · rw [merkleFlagsAt_eq, if_neg (Nat.not_lt.2 hlong)]
    · rw [calculatedMerkleRootAt, maestroAt_eq hlong hwalk, Option.map_some, calculatedMerkleRoot]
    · rw [matchingTxIdsIfValidRootAt, maestroAt_eq hlong hwalk, matchingTxIdsIfValidRoot]
      generalize calculatedMerkleRootMaestro c block (some []) = result
      obtain ⟨root, matched⟩ := result
      rfl

/-! ## Counts that do not fit -/

theorem merkleHashesFrom_short {count : Nat} {ptr : Bytes} (h : ptr.length < 32 * count) : merkleHashesFrom count ptr = none := by
  induction count generalizing ptr with
  | zero => omega
  | succ count ih =>
    rw [merkleHashesFrom]
    split
    · rfl
    · rw [ih (by rw [List.length_drop]; omega), Option.map_none]

theorem declaredHashes_length (block : MerkleBlock) : (declaredHashes block).2.length < 2 ^ 64 := by
  have hlength : block.data.toBytes.length < 2 ^ 32 := block.length_lt
  rcases grammar_readVarInt.clamps (block.data.toBytes.drop 84) with hnil | ⟨front, -, hfront⟩
  · rw [declaredHashes, hnil]
    decide
  · have hsum := congrArg List.length hfront
    rw [List.length_append, List.length_drop, ← declaredHashes] at hsum
    omega

theorem carriedHashes_unfit {block : MerkleBlock} (h : ¬ HashesFit block) : carriedHashes block = [] := by
  rw [carriedHashes, merkleHashes]
  split
  · rfl
  · have hnone := merkleHashesFrom_short (Nat.lt_of_not_le h)
    show (Option.getD (merkleHashesFrom (declaredHashes block).1 (declaredHashes block).2) []).map Data.toBytes = []
    rw [hnone]
    rfl

theorem merkleFlags_of_wrap {block : MerkleBlock}
    (h : (declaredHashes block).2.length < (declaredHashes block).1 * 32 % 2 ^ 64) : merkleFlags block = none := by
  rw [merkleFlags]
  split
  · rfl
  · exact if_pos h

theorem merkleFlags_unfit {block : MerkleBlock} (hhashes : HashesFit block) (h : ¬ FlagsFit block) : merkleFlags block = none := by
  have hlength := declaredHashes_length block
  rw [HashesFit] at hhashes
  have hwrap : (declaredHashes block).1 * 32 % 2 ^ 64 = 32 * (declaredHashes block).1 := by
    rw [Nat.mul_comm, Nat.mod_eq_of_lt (Nat.lt_of_le_of_lt hhashes hlength)]
  rw [FlagsFit] at h
  rw [merkleFlags]
  split
  · rfl
  · rw [← declaredHashes]
    dsimp only
    rw [hwrap, if_neg (Nat.not_lt.2 hhashes)]
    exact if_pos (Nat.ne_of_lt (Nat.lt_of_not_le h))

/-- Without flags the walk ends at once. -/
theorem not_accepted_of_noFlags {block : MerkleBlock} (h : merkleFlags block = none) : ¬ RootAccepted c block := by
  rintro ⟨-, root, hvalue, -⟩
  have hbits : flagBits (none : Data) = [] := flagBits_drop_nil (i := 0) (Nat.le_refl 0)
  rw [merkleTree, h, hbits, Merkle.tree, Merkle.read_nil] at hvalue
  cases hvalue

/-- The root that the flags make of no hashes at all. -/
def rootOfNoHashes (c : Crypto) (block : MerkleBlock) : Data :=
  (Merkle.tree (treeHeight block) (flagBits (merkleFlags block)) []).value (hashChildren c)

/-- The declared hashes are there, or their length does not wrap, or the header does not have the
    root of no hashes. -/
def HashesRefused (c : Crypto) (block : MerkleBlock) : Prop :=
  HashesFit block ∨ 32 * (declaredHashes block).1 < 2 ^ 64 ∨ rootOfNoHashes c block = none ∨ rootOfNoHashes c block ≠ merkleRoot block

theorem refusesUnfit_iff {block : MerkleBlock} (hlong : 84 ≤ block.data.length) : RefusesUnfit c block ↔ HashesRefused c block := by
  constructor
  · intro h
    rw [HashesRefused]
    by_contra hall
    simp only [not_or, not_not] at hall
    obtain ⟨hunfit, -, hsome, hroot⟩ := hall
    obtain ⟨root, hvalue⟩ := Option.ne_none_iff_exists'.1 hsome
    have hcarried := carriedHashes_unfit hunfit
    refine h (fun hfit => hunfit hfit.1) ⟨?_, root, ?_, by rw [← hroot, hvalue]⟩
    · rw [merkleBlockValid_iff, hcarried]
      exact ⟨by omega, fun hmany => absurd hmany (by decide)⟩
    · rw [merkleTree, hcarried]
      exact hvalue
  · intro h hunfit haccepted
    by_cases hhashes : HashesFit block
    · exact not_accepted_of_noFlags (merkleFlags_unfit hhashes fun hflags => hunfit ⟨hhashes, hflags⟩) haccepted
    · rcases h with hfit | hsmall | hnone | hother
      · exact hhashes hfit
      · refine not_accepted_of_noFlags (merkleFlags_of_wrap ?_) haccepted
        rw [Nat.mul_comm, Nat.mod_eq_of_lt hsmall]
        exact Nat.lt_of_not_le hhashes
      · obtain ⟨-, root, hvalue, -⟩ := haccepted
        rw [merkleTree, carriedHashes_unfit hhashes] at hvalue
        rw [rootOfNoHashes, hvalue] at hnone
        cases hnone
      · obtain ⟨-, root, hvalue, hroot⟩ := haccepted
        rw [merkleTree, carriedHashes_unfit hhashes] at hvalue
        exact hother (hvalue.trans hroot.symm)

/-- For every message: the readers stay inside and refuse counts that do not fit exactly if it
    is long enough for the transaction count, the walk does not overflow its cursor, and a
    number of hashes that wraps does not come with the root of no hashes. -/
theorem merkle_readers_iff (c : Crypto) (block : MerkleBlock) :
    (ReadersInside c block ∧ RefusesUnfit c block) ↔
      84 ≤ block.data.length ∧ WalkFits block ∧ HashesRefused c block := by
  rw [readersInside_iff]
  constructor
  · rintro ⟨⟨hlong, hwalk⟩, hrefuses⟩
    exact ⟨hlong, hwalk, (refusesUnfit_iff hlong).1 hrefuses⟩
  · rintro ⟨hlong, hwalk, hrefused⟩
    exact ⟨⟨hlong, hwalk⟩, (refusesUnfit_iff hlong).2 hrefused⟩

/-- A header alone. -/
def headerBlock : MerkleBlock := ⟨some (List.replicate 80 0), by decide⟩

/-- `merkleFlags` reads the byte at 84. -/
theorem not_merkle_readers : ¬ ∀ (c : Crypto) (block : MerkleBlock), ReadersInside c block ∧ RefusesUnfit c block := by
  intro h
  have hflags := (h plainCrypto headerBlock).1.flags
  have hoverrun : merkleFlagsAt headerBlock.data.toBytes = none := by decide
  rw [hoverrun] at hflags
  cases hflags

end BitcoinSpoon
