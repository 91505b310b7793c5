/-
  BitcoinSpoon.Webserver.Uri — decoding a part of a request in place (`hexToI`,
  `cleanURISpaces`, `code/Webserver.c`).

  A '%' is taken for an escape wherever two more bytes are before `end`, digits or not, and
  `end` stays where the string ended at first. Behind an escape that was decoded the bytes
  up to `end` are older ones: the NUL has moved two down, and a '%' in one of the last two
  characters takes it as a digit.

  The loop ends and stays within the string whatever is in it (`clean_keeps`). It leaves what
  one pass leaves exactly if up to an escape of a NUL every '%' has its two digits, or none
  has been decoded before it and the string ends within two characters
  (`cleanURISpaces_iff`).
-/

import BitcoinSpoon.Node.Connection
import BitcoinSpoon.Util.Components

namespace BitcoinSpoon.Webserver

open Wire Strings Connection

/-! ## The code -/

/-- The characters from 0x80 on are negative and no digits. -/
def hexToI (c : UInt8) : Int32 :=
  if 0x30 ≤ c ∧ c ≤ 0x39 then (c - 0x30).toUInt32.toInt32
  else if 0x61 ≤ tolower c ∧ tolower c ≤ 0x66 then 10 + (tolower c - 0x61).toUInt32.toInt32
  else -1

/-- The index of the NUL; without one it reads on behind the buffer. -/
def strlen (str : Bytes) : Option Nat := str.findIdx? (· = 0)

/-- `none` where bytes outside the buffer are read or written. -/
def memmove (str : Bytes) (dest src len : Nat) : Option Bytes :=
  if dest + len ≤ str.length ∧ src + len ≤ str.length then
    some (str.take dest ++ ((str.drop src).take len ++ str.drop (dest + len)))
  else none

/-- `*p = hexToI(p[2]) | (hexToI(p[1]) << 4)` -/
def escapeByte (hi lo : UInt8) : UInt8 := (hexToI lo ||| hexToI hi <<< 4).toUInt32.toUInt8

/-- What the loop does at `p`. -/
def cleanStep (endOf : Nat) (str : Bytes) (p : Nat) : Option Bytes := do
  let c ← str[p]?
  if c = 0x2b then some (str.set p 0x20)
  else if c = 0x25 ∧ p + 2 < endOf then
    let lo ← str[p + 2]?
    let hi ← str[p + 1]?
    memmove (str.set p (escapeByte hi lo)) (p + 1) (p + 3) (endOf - p - 2)
  else some str

/-- `none` where bytes outside the buffer are read or written. -/
def cleanURISpaces (str : Bytes) : Option Bytes := do
  let endOf ← strlen str
  (List.range endOf).foldlM (cleanStep endOf) str

/-! ## One pass -/

def hexDigit (c : UInt8) : Option UInt8 :=
  if 0x30 ≤ c ∧ c ≤ 0x39 then some (c - 0x30)
  else if 0x41 ≤ c ∧ c ≤ 0x46 then some (c - 0x41 + 10)
  else if 0x61 ≤ c ∧ c ≤ 0x66 then some (c - 0x61 + 10)
  else none

/-- The byte of two hexadecimal digits. -/
def hexByte (hi lo : UInt8) : Option UInt8 := do
  let hi ← hexDigit hi
  let lo ← hexDigit lo
  some (16 * hi + lo)

/-- What is not an escape stays. -/
def decodeUri : Bytes → Bytes
  | [] => []
  | 0x25 :: hi :: lo :: rest =>
    match hexByte hi lo with
    | some byte => byte :: decodeUri rest
    | none => 0x25 :: decodeUri (hi :: lo :: rest)
  | c :: rest => (if c = 0x2b then 0x20 else c) :: decodeUri rest

/-- The string is decoded: nothing outside it is read or written, and up to the NUL it is
    what one pass leaves. -/
def DecodesUri (str : CString) : Prop :=
  ∃ result, cleanURISpaces str.string = some result ∧ result.length = str.string.length ∧
    cString result = cString (decodeUri str.chars)

/-- Up to an escape of a NUL every '%' has its two digits, or none has been decoded before it
    and the string ends within two characters. -/
def wholeEscapes (escaped : Bool) : Bytes → Bool
  | [] => true
  | 0x25 :: hi :: lo :: rest =>
    match hexByte hi lo with
    | some byte => byte == 0 || wholeEscapes true rest
    | none => false
  | c :: rest => !(escaped && c == 0x25) && wholeEscapes escaped rest

/-! ## Digits -/

/-- What `hexToI` gives for a digit, or none. -/
def digitOrNone : Option UInt8 → Int32
  | some digit => digit.toUInt32.toInt32
  | none => -1

def digits : List (Option UInt8) := none :: (List.range 16).map fun n => some (UInt8.ofNat n)

theorem hexToI_digit (c : UInt8) : hexToI c = digitOrNone (hexDigit c) ∧ hexDigit c ∈ digits := by
  have hall : ∀ n : Fin 256, hexToI (UInt8.ofFin n) = digitOrNone (hexDigit (UInt8.ofFin n)) ∧ hexDigit (UInt8.ofFin n) ∈ digits := by
    decide +kernel
  exact hall c.toFin

/-- Two digits make their byte; with -1 for one of them the upper four bits are set. -/
theorem digits_byte : ∀ hi ∈ digits, ∀ lo ∈ digits,
    let byte := (digitOrNone lo ||| digitOrNone hi <<< 4).toUInt32.toUInt8
    if hi.isSome ∧ lo.isSome then byte = 16 * hi.getD 0 + lo.getD 0 else 0xf0 ≤ byte := by
  decide +kernel

theorem escapeByte_spec (hi lo : UInt8) :
    match hexByte hi lo with
    | some byte => escapeByte hi lo = byte
    | none => 0xf0 ≤ escapeByte hi lo := by
  obtain ⟨hhi, hhimem⟩ := hexToI_digit hi
  obtain ⟨hlo, hlomem⟩ := hexToI_digit lo
  have hbyte := digits_byte _ hhimem _ hlomem
  rw [escapeByte, hhi, hlo]
  unfold hexByte
  cases hdigit : hexDigit hi with
  | none =>
    rw [hdigit] at hbyte
    exact hbyte
  | some a =>
    cases hdigit' : hexDigit lo with
    | none =>
      rw [hdigit, hdigit'] at hbyte
      exact hbyte
    | some b =>
      rw [hdigit, hdigit'] at hbyte
      exact hbyte

theorem escapeByte_some {hi lo byte : UInt8} (h : hexByte hi lo = some byte) : escapeByte hi lo = byte := by
  simpa only [h] using escapeByte_spec hi lo

/-- It is neither a '%' nor a NUL. -/
theorem escapeByte_none {hi lo : UInt8} (h : hexByte hi lo = none) : escapeByte hi lo ≠ 0x25 ∧ escapeByte hi lo ≠ 0 := by
  have hbyte := escapeByte_spec hi lo
  rw [h] at hbyte
  constructor
  all_goals
    intro heq
    rw [heq] at hbyte
    exact absurd hbyte (by decide)

/-! ## One round -/

variable {done tail tail' rest : Bytes} {c c' hi lo : UInt8} {endOf rounds count : Nat}

theorem cleanStep_plus : cleanStep endOf (done ++ 0x2b :: tail) done.length = some (done ++ 0x20 :: tail) := by
  simp [cleanStep]

theorem cleanStep_other (hplus : c ≠ 0x2b) (hescape : ¬(c = 0x25 ∧ done.length + 2 < endOf)) :
    cleanStep endOf (done ++ c :: tail) done.length = some (done ++ c :: tail) := by
  simp [cleanStep, hplus, hescape]

/-- Bytes that move down over a gap. -/
theorem memmove_down (front gap : Bytes) (h : count ≤ tail.length) :
    memmove (front ++ (gap ++ tail)) front.length (front.length + gap.length) count =
      some (front ++ (tail.take count ++ (gap ++ tail).drop count)) := by
  have hroom : front.length + count ≤ (front ++ (gap ++ tail)).length ∧
      front.length + gap.length + count ≤ (front ++ (gap ++ tail)).length := by
    simp only [List.length_append]
    omega
  rw [memmove, if_pos hroom, List.take_left, List.drop_length_add_append, List.drop_length_add_append, List.drop_left]

/-- The bytes behind the escape move two down, and the last two stay where they are. -/
theorem cleanStep_escape (done tail : Bytes) (hi lo : UInt8) (hcount : 0 < count) (hlen : count ≤ tail.length) :
    cleanStep (done.length + 2 + count) (done ++ 0x25 :: hi :: lo :: tail) done.length =
      some (done ++ escapeByte hi lo :: (tail.take count ++ (hi :: lo :: tail).drop count)) := by
  have hread : (done ++ 0x25 :: hi :: lo :: tail)[done.length + 1]? = some hi := by simp
  have hread' : (done ++ 0x25 :: hi :: lo :: tail)[done.length + 2]? = some lo := by simp
  have hmove := memmove_down (done ++ [escapeByte hi lo]) [hi, lo] hlen
  have hlast : done.length + 2 + count - done.length - 2 = count := by omega
  rw [List.length_append] at hmove
  simp only [cleanStep, List.getElem?_append_right (Nat.le_refl _), Nat.sub_self, List.getElem?_cons_zero, hread, hread',
    Option.bind_eq_bind, Option.bind_some, List.set_append_right _ _ (Nat.le_refl _), List.set_cons_zero, hlast]
  rw [if_neg (by decide), if_pos ⟨trivial, by omega⟩]
  simpa using hmove

theorem cleanStep_kept (h : c = 0x25 → endOf ≤ done.length + 2) :
    cleanStep endOf (done ++ c :: tail) done.length = some (done ++ (if c = 0x2b then 0x20 else c) :: tail) := by
  by_cases hplus : c = 0x2b
  · subst hplus
    exact cleanStep_plus
  · rw [if_neg hplus]
    exact cleanStep_other hplus fun hescape => absurd (h hescape.1) (Nat.not_le.2 hescape.2)

/-! ## The loop -/

/-- The last rounds, with `done` before the character they begin at. -/
def cleanRun (rounds : Nat) (done rest : Bytes) : Option Bytes :=
  (List.range' done.length rounds).foldlM (cleanStep (done.length + rounds)) (done ++ rest)

/-- They stay within the string and leave what is before `p`. -/
def Leaves (rounds : Nat) (done rest : Bytes) (property : Bytes → Prop) : Prop :=
  ∃ result, cleanRun rounds done rest = some (done ++ result) ∧ result.length = rest.length ∧ property result

variable {property property' : Bytes → Prop}

theorem leaves_zero (h : property rest) : Leaves 0 done rest property := ⟨rest, rfl, rfl, h⟩

theorem leaves_step (hstep : cleanStep (done.length + (rounds + 1)) (done ++ c :: tail) done.length = some (done ++ c' :: tail'))
    (hlen : tail'.length = tail.length) (hrun : Leaves rounds (done ++ [c']) tail' property)
    (h : ∀ result, property result → property' (c' :: result)) : Leaves (rounds + 1) done (c :: tail) property' := by
  obtain ⟨result, hrun, hlen', hresult⟩ := hrun
  have hdone : (done ++ [c']).length = done.length + 1 := by simp
  refine ⟨c' :: result, ?_, by simp only [List.length_cons, hlen', hlen], h result hresult⟩
  rw [cleanRun, hdone, Nat.add_assoc, Nat.add_comm 1, List.append_assoc, List.append_assoc, List.singleton_append,
    List.singleton_append] at hrun
  rw [cleanRun, List.range'_succ, List.foldlM_cons, hstep, Option.bind_eq_bind, Option.bind_some, hrun]

theorem cleanStep_keeps (done : Bytes) (c : UInt8) (h : rounds < tail.length) :
    ∃ c' tail', cleanStep (done.length + (rounds + 1)) (done ++ c :: tail) done.length = some (done ++ c' :: tail') ∧
      tail'.length = tail.length := by
  by_cases hescape : c = 0x25 ∧ 2 ≤ rounds
  · obtain ⟨rfl, hroom⟩ := hescape
    obtain _ | ⟨hi, _ | ⟨lo, tail⟩⟩ := tail
    · simp at h
    · simp only [List.length_singleton] at h
      omega
    · simp only [List.length_cons] at h
      obtain ⟨count, rfl⟩ : ∃ count, rounds = count + 1 := ⟨rounds - 1, by omega⟩
      rw [Nat.add_assoc, Nat.add_comm count, ← Nat.add_assoc]
      refine ⟨_, _, cleanStep_escape done tail hi lo (by omega) (by omega), ?_⟩
      simp only [List.length_append, List.length_take, List.length_drop, List.length_cons]
      omega
  · exact ⟨_, _, cleanStep_kept fun hc => by have := not_and.1 hescape hc; omega, rfl⟩

/-- Whatever is in the string. -/
theorem clean_keeps (h : rounds < rest.length) : Leaves rounds done rest fun _ => True := by
  induction rounds generalizing done rest with
  | zero => exact leaves_zero trivial
  | succ rounds ih =>
    obtain _ | ⟨c, tail⟩ := rest
    · simp at h
    have hroom : rounds < tail.length := Nat.lt_of_succ_lt_succ h
    obtain ⟨c', tail', hstep, hlen⟩ := cleanStep_keeps done c hroom
    exact leaves_step hstep hlen (ih (hlen.symm ▸ hroom)) fun _ _ => trivial

/-! ## The string that is left -/

theorem cString_nul (rest : Bytes) : cString (0 :: rest) = [] := rfl

theorem cString_cons (h : c ≠ 0) (rest : Bytes) : cString (c :: rest) = c :: cString rest := by simp [cString, h]

/-- A '%' that is no escape and taken for one. -/
theorem clean_wrong (done tail : Bytes) (hroom : 2 ≤ rounds) (hlen : rounds < (hi :: lo :: tail).length)
    (h : hexByte hi lo = none) :
    Leaves (rounds + 1) done (0x25 :: hi :: lo :: tail) fun result => ∀ rest, cString result ≠ 0x25 :: rest := by
  obtain ⟨count, rfl⟩ : ∃ count, rounds = count + 1 := ⟨rounds - 1, by omega⟩
  simp only [List.length_cons] at hlen
  obtain ⟨hpercent, hzero⟩ := escapeByte_none h
  have hstep := cleanStep_escape done tail hi lo (show 0 < count by omega) (by omega)
  rw [Nat.add_assoc, Nat.add_comm 2] at hstep
  have hkept : (tail.take count ++ (hi :: lo :: tail).drop count).length = (hi :: lo :: tail).length := by
    simp only [List.length_append, List.length_take, List.length_drop, List.length_cons]
    omega
  refine leaves_step hstep hkept (clean_keeps (by rw [hkept]; exact hlen)) fun result _ rest => ?_
  rw [cString_cons hzero, Ne, List.cons.injEq, not_and]
  exact fun heq => absurd heq hpercent

theorem hexByte_nul (c : UInt8) : hexByte 0 c = none ∧ hexByte c 0 = none := by
  have hnone : hexDigit 0 = none := rfl
  unfold hexByte
  rw [hnone]
  cases hexDigit c <;> exact ⟨rfl, rfl⟩

/-- What a '%' finds that is no escape in the string, but has two bytes behind it. -/
theorem short_escape {str : Bytes} (behind : Bytes) (hshort : ∀ hi lo rest, str = hi :: lo :: rest → False)
    (hroom : 2 ≤ (str ++ behind).length) :
    ∃ hi lo tail, str ++ 0 :: behind = hi :: lo :: tail ∧ hexByte hi lo = none := by
  obtain _ | ⟨hi, _ | ⟨lo, rest⟩⟩ := str
  · obtain _ | ⟨lo, behind⟩ := behind
    · simp at hroom
    · exact ⟨0, lo, behind, rfl, (hexByte_nul lo).1⟩
  · exact ⟨hi, 0, behind, rfl, (hexByte_nul hi).2⟩
  · exact (hshort hi lo rest rfl).elim

/-- The string behind its first escape moves down, and its last two bytes are left as older ones. -/
theorem escape_moves (rest stale behind : Bytes) (hi lo : UInt8) :
    ∃ old : Bytes, old.length = 2 ∧
      (rest ++ 0 :: (stale ++ behind)).take (rest.length + stale.length + 1) ++
          (hi :: lo :: (rest ++ 0 :: (stale ++ behind))).drop (rest.length + stale.length + 1) =
        rest ++ 0 :: (stale ++ old ++ behind) := by
  have hlen : (rest ++ 0 :: stale).length = rest.length + stale.length + 1 := by simp; omega
  have hsplit : rest ++ 0 :: (stale ++ behind) = (rest ++ 0 :: stale) ++ behind := by simp
  refine ⟨(hi :: lo :: (rest ++ 0 :: stale)).drop (rest.length + stale.length + 1), ?_, ?_⟩
  · rw [List.length_drop, List.length_cons, List.length_cons, hlen]
    omega
  · rw [hsplit, ← List.cons_append, ← List.cons_append, List.drop_append_of_le_length (by simp only [List.length_cons, hlen]; omega),
      List.take_left' hlen]
    simp

/-- A whole escape is one byte, and there are two more old bytes between the NUL and `end`. -/
theorem cleanStep_whole {byte : UInt8} (hbyte : hexByte hi lo = some byte) (done rest stale behind : Bytes) :
    ∃ old : Bytes, old.length = 2 ∧
      cleanStep (done.length + (rest.length + (stale ++ old).length + 1)) (done ++ 0x25 :: hi :: lo :: (rest ++ 0 :: (stale ++ behind)))
        done.length = some (done ++ byte :: (rest ++ 0 :: (stale ++ old ++ behind))) := by
  obtain ⟨old, hold, hmoved⟩ := escape_moves rest stale behind hi lo
  have hroom : rest.length + stale.length + 1 ≤ (rest ++ 0 :: (stale ++ behind)).length := by
    simp only [List.length_append, List.length_cons]
    omega
  have hend : done.length + 2 + (rest.length + stale.length + 1) = done.length + (rest.length + (stale ++ old).length + 1) := by
    rw [List.length_append, hold]
    omega
  have hstep := cleanStep_escape done (rest ++ 0 :: (stale ++ behind)) hi lo (Nat.succ_pos _) hroom
  rw [hmoved, escapeByte_some hbyte, hend] at hstep
  exact ⟨old, hold, hstep⟩

/-- An escape that the end of the string cuts off, with old bytes behind the NUL. -/
theorem clean_cut (done behind : Bytes) {stale : Bytes} (hstale : 2 ≤ stale.length)
    (hshort : ∀ hi lo rest', rest = hi :: lo :: rest' → False) :
    Leaves (rest.length + stale.length + 1) done (0x25 :: (rest ++ 0 :: (stale ++ behind))) fun result =>
      ∀ rest', cString result ≠ 0x25 :: rest' := by
  have hbehind : 2 ≤ (rest ++ (stale ++ behind)).length := by
    rw [List.length_append, List.length_append]
    omega
  obtain ⟨hi, lo, tail, heq, hnone⟩ := short_escape (stale ++ behind) hshort hbehind
  have hroom : 2 ≤ rest.length + stale.length := by omega
  have hlen : rest.length + stale.length < (hi :: lo :: tail).length := by
    rw [← heq]
    simp only [List.length_append, List.length_cons]
    omega
  rw [heq]
  exact clean_wrong done tail hroom hlen hnone

/-- From a character of the string on, with older bytes between the NUL and `end`. -/
theorem clean_iff (str : Bytes) (hnul : 0 ∉ str) (done stale behind : Bytes) (hstale : stale = [] ∨ 2 ≤ stale.length) :
    Leaves (str.length + stale.length) done (str ++ 0 :: (stale ++ behind)) fun result =>
      cString result = cString (decodeUri str) ↔ wholeEscapes (!stale.isEmpty) str = true := by
  induction str using decodeUri.induct generalizing done stale with
  | case1 =>
    -- the string is over, and the rounds that are left change what is behind it
    rw [List.length_nil, Nat.zero_add, List.nil_append]
    cases hrounds : stale.length with
    | zero => exact leaves_zero (by simp [wholeEscapes, decodeUri, cString])
    | succ rounds =>
      have hroom : rounds < (stale ++ behind).length := by
        rw [List.length_append]
        omega
      exact leaves_step (cleanStep_kept fun h => absurd h (by decide)) rfl (clean_keeps hroom) fun _ _ => by simp [wholeEscapes, decodeUri, cString]
  | case2 hi lo rest byte hbyte ih =>
    obtain ⟨old, hold, hstep⟩ := cleanStep_whole hbyte done rest stale behind
    have hrest : 0 ∉ rest := fun hmem => hnul (by simp [hmem])
    have hstale' : 2 ≤ (stale ++ old).length := by
      rw [List.length_append]
      omega
    have hescaped : (!(stale ++ old).isEmpty) = true := by
      cases old with
      | nil => cases hold
      | cons _ _ => simp
    have hrounds : (0x25 :: hi :: lo :: rest).length + stale.length = rest.length + (stale ++ old).length + 1 := by
      simp only [List.length_cons, List.length_append, hold]
      omega
    rw [hrounds]
    refine leaves_step hstep ?_ (ih hrest (done ++ [byte]) (stale ++ old) (Or.inr hstale')) fun result hiff => ?_
    · simp only [List.append_eq, List.cons_append, List.length_cons, List.length_append, hold]
      omega
    · rw [decodeUri, wholeEscapes, hbyte]
      by_cases hzero : byte = 0
      · simp [hzero, cString_nul]
      · rw [hescaped] at hiff
        simp [cString_cons hzero, hiff, hzero]
  | case3 hi lo rest hbyte ih =>
    -- no digits
    have hroom : 2 ≤ (hi :: lo :: rest).length + stale.length := by
      simp only [List.length_cons]
      omega
    have hinside : (hi :: lo :: rest).length + stale.length < (hi :: lo :: (rest ++ 0 :: (stale ++ behind))).length := by
      simp only [List.length_cons, List.length_append]
      omega
    obtain ⟨result, hrun, hlen, hwrong⟩ := clean_wrong done (rest ++ 0 :: (stale ++ behind)) hroom hinside hbyte
    rw [List.length_cons, Nat.add_right_comm, decodeUri, wholeEscapes, hbyte]
    exact ⟨result, hrun, hlen, iff_of_false (hwrong _) Bool.false_ne_true⟩
  | case4 c rest hshort ih =>
    obtain ⟨hc, hrest⟩ := not_or.1 fun h => hnul (List.mem_cons.2 h)
    rw [decodeUri.eq_3 c rest hshort, wholeEscapes.eq_3 _ c rest hshort, List.length_cons, Nat.add_right_comm]
    by_cases hwrong : c = 0x25 ∧ stale ≠ []
    · -- the NUL is read as a digit
      obtain ⟨rfl, hstale'⟩ := hwrong
      obtain ⟨result, hrun, hlen, hwrong⟩ := clean_cut done behind (hstale.resolve_left hstale') fun hi lo rest' => hshort hi lo rest' rfl
      exact ⟨result, hrun, hlen, iff_of_false (hwrong _) (by simp [hstale'])⟩
    · have hroom : c = 0x25 → done.length + (rest.length + stale.length + 1) ≤ done.length + 2 := by
        rintro rfl
        have hstale' : stale = [] := by_contra fun h => hwrong ⟨rfl, h⟩
        obtain _ | ⟨hi, _ | ⟨lo, rest'⟩⟩ := rest
        · simp [hstale']
        · simp [hstale']
        · exact (hshort hi lo rest' rfl rfl).elim
      have hzero : (if c = 0x2b then 0x20 else c) ≠ 0 := by
        split
        · decide
        · exact Ne.symm hc
      have hwhole : (!(!stale.isEmpty && c == 0x25)) = true := by
        by_cases hpercent : c = 0x25
        · have hstale' : stale = [] := by_contra fun h => hwrong ⟨hpercent, h⟩
          simp [hstale']
        · simp [hpercent]
      refine leaves_step (cleanStep_kept hroom) rfl (ih hrest _ stale hstale) fun result hiff => ?_
      rw [cString_cons hzero, cString_cons hzero, List.cons_inj_right, hiff, hwhole, Bool.true_and]

theorem strlen_nul (str : CString) (behind : Bytes) : strlen (str.chars ++ 0 :: behind) = some str.chars.length := by
  have hnone : str.chars.findIdx? (· = 0) = none :=
    List.findIdx?_eq_none_iff.2 fun c hc => decide_eq_false fun h => str.noNul (h ▸ hc)
  simp [strlen, List.findIdx?_append, List.findIdx?_cons, hnone]

/-- Whatever is behind the NUL. -/
theorem cleanURISpaces_spec (str : CString) (behind : Bytes) :
    ∃ result, cleanURISpaces (str.chars ++ 0 :: behind) = some result ∧ result.length = (str.chars ++ 0 :: behind).length ∧
      (cString result = cString (decodeUri str.chars) ↔ wholeEscapes false str.chars = true) := by
  obtain ⟨result, hrun, hlen, hiff⟩ := clean_iff str.chars str.noNul [] [] behind (Or.inl rfl)
  refine ⟨result, ?_, hlen, hiff⟩
  rw [cleanURISpaces, strlen_nul, Option.bind_eq_bind, Option.bind_some, List.range_eq_range']
  simpa [cleanRun] using hrun

/-- `cleanURISpaces` decodes exactly the strings whose escapes are whole, or cut off by the
    end without others before them. -/
theorem cleanURISpaces_iff (str : CString) : DecodesUri str ↔ wholeEscapes false str.chars = true := by
  obtain ⟨result, hrun, hlen, hiff⟩ := cleanURISpaces_spec str []
  rw [← hiff]
  constructor
  · rintro ⟨result', hrun', -, hdecoded⟩
    obtain rfl := Option.some.inj (hrun.symm.trans hrun')
    exact hdecoded
  · exact fun hdecoded => ⟨result, hrun, hlen, hdecoded⟩

/-- "%41%4", where the second '%' takes '4' and the NUL for digits. -/
theorem not_decodesUri : ¬ ∀ str : CString, DecodesUri str := by
  intro h
  obtain ⟨result, hrun, -, hdecoded⟩ := h ⟨[0x25, 0x34, 0x31, 0x25, 0x34], by decide⟩
  have hresult : cleanURISpaces [0x25, 0x34, 0x31, 0x25, 0x34, 0] = some [0x41, 0xff, 0x34, 0, 0x34, 0] := by decide +kernel
  obtain rfl := Option.some.inj (hresult.symm.trans hrun)
  revert hdecoded
  decide +kernel

end BitcoinSpoon.Webserver
