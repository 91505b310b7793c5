/-
  BitcoinSpoon.Address.Bech32 — Bech32 texts and their checksum
  (`libraries/segwit_addr/segwit_addr.c`).

  The checksum is a shift register of six symbols (`isRegister_polymod`): the six symbols
  behind a text are determined by it (`checksum_iff`). A text is decoded if, in one case
  throughout, it is the encoding of what it is decoded to (`bech32_decode_iff`). Characters
  are those of the C string without the closing NUL, 5-bit values are numbers.
-/

import BitcoinSpoon.Hd.Wallet
import BitcoinSpoon.Loop.ShiftRegister

namespace BitcoinSpoon

open Wire Loop

namespace Bech32

def bech32_polymod_step (pre : BitVec 32) : BitVec 32 :=
  let b := pre >>> 25
  ((pre &&& 0x1FFFFFF#32) <<< 5) ^^^
    (-((b >>> 0) &&& 1#32) &&& 0x3b6a57b2#32) ^^^
    (-((b >>> 1) &&& 1#32) &&& 0x26508e6d#32) ^^^
    (-((b >>> 2) &&& 1#32) &&& 0x1ea119fa#32) ^^^
    (-((b >>> 3) &&& 1#32) &&& 0x3d4233dd#32) ^^^
    (-((b >>> 4) &&& 1#32) &&& 0x2a1462b3#32)

def charset : Bytes :=
  ['q', 'p', 'z', 'r', 'y', '9', 'x', '8', 'g', 'f', '2', 't', 'v', 'd', 'w', '0', 's', '3', 'j', 'n', '5', '4', 'k', 'h',
    'c', 'e', '6', 'm', 'u', 'a', '7', 'l'].map fun ch => UInt8.ofNat ch.toNat

def charset_rev : List Int :=
  [-1, -1, -1, -1, -1, -1, -1, -1, -1, -1, -1, -1, -1, -1, -1, -1,
   -1, -1, -1, -1, -1, -1, -1, -1, -1, -1, -1, -1, -1, -1, -1, -1,
   -1, -1, -1, -1, -1, -1, -1, -1, -1, -1, -1, -1, -1, -1, -1, -1,
   15, -1, 10, 17, 21, 20, 26, 30,  7,  5, -1, -1, -1, -1, -1, -1,
   -1, 29, -1, 24, 13, 25,  9,  8, 23, -1, 18, 22, 31, 27, 19, -1,
    1,  0,  3, 16, 11, 28, 12, 14,  6,  4,  2, -1, -1, -1, -1, -1,
   -1, 29, -1, 24, 13, 25,  9,  8, 23, -1, 18, 22, 31, 27, 19, -1,
    1,  0,  3, 16, 11, 28, 12, 14,  6,  4,  2, -1, -1, -1, -1, -1]

/-- '1' -/
def separator : UInt8 := 0x31

def isUpper (ch : UInt8) : Bool := 0x41 ≤ ch && ch ≤ 0x5a

def isLower (ch : UInt8) : Bool := 0x61 ≤ ch && ch ≤ 0x7a

/-! ## Encoding -/

/-- The high bits of the characters, nothing, and the low bits. -/
def hrpSymbols (hrp : Bytes) : List Nat := hrp.map (fun ch => ch.toNat >>> 5) ++ 0 :: hrp.map fun ch => ch.toNat &&& 0x1f

/-- `chk = bech32_polymod_step(chk) ^ v` for each of the symbols. -/
def polymod (chk : BitVec 32) (symbols : List Nat) : BitVec 32 := feed bech32_polymod_step chk (symbols.map (BitVec.ofNat 32))

def checksumSymbols (chk : BitVec 32) : List Nat := (List.range 6).map fun i => ((chk >>> ((5 - i) * 5)) &&& 0x1f#32).toNat

def bech32_encode (hrp : Bytes) (data : List Nat) : Data :=
  if hrp.any fun ch => ch < 33 || ch > 126 || isUpper ch then none
  else if hrp.length + 7 + data.length > 90 then none
  else if data.any fun value => value >>> 5 != 0 then none
  else
    let chk := polymod 1#32 (hrpSymbols hrp ++ data ++ List.replicate 6 0) ^^^ 1#32
    some (hrp ++ separator :: (data ++ checksumSymbols chk).map fun value => charset.getD value 0)

/-! ## Decoding -/

/-- A call that returns 0, and one that writes behind the end of a buffer. -/
inductive Fault
  | refused
  | overflow
  deriving DecidableEq, Repr

structure Scan where
  chk : BitVec 32
  have_lower : Bool
  have_upper : Bool

def Scan.next (scan : Scan) (ch : UInt8) (value : Nat) : Scan where
  chk := bech32_polymod_step scan.chk ^^^ BitVec.ofNat 32 value
  have_lower := scan.have_lower || isLower ch
  have_upper := scan.have_upper || isUpper ch

/-- From `input[i]` on; `room` is the size of `hrp`. -/
def readHrp (room hrp_len : Nat) : Nat → Bytes → Scan → Except Fault (Bytes × Scan)
  -- the closing NUL
  | i, [], scan => if i < hrp_len then .error .refused else if i < room then .ok ([], scan) else .error .overflow
  | i, ch :: input, scan =>
    if i < hrp_len then
      if ch < 33 ∨ ch > 126 then .error .refused
      else if i < room then
        match readHrp room hrp_len (i + 1) input (scan.next ch ((tolower ch).toNat >>> 5)) with
        | .error fault => .error fault
        | .ok (hrp, scan) => .ok (tolower ch :: hrp, scan)
      else .error .overflow
    -- hrp[i] = 0
    else if i < room then .ok ([], scan)
    else .error .overflow

/-- `data[i]` and on; `room` is the size of `data`. -/
def readData (room : Nat) : Nat → Bytes → Scan → Except Fault (List Nat × Scan)
  | _, [], scan => .ok ([], scan)
  | i, ch :: input, scan =>
    let v := if ch &&& 0x80 ≠ 0 then -1 else charset_rev.getD ch.toNat (-1)
    if v = -1 then .error .refused
    -- the last six are the checksum
    else if 6 ≤ input.length then
      if i < room then
        match readData room (i + 1) input (scan.next ch v.toNat) with
        | .error fault => .error fault
        | .ok (data, scan) => .ok (v.toNat :: data, scan)
      else .error .overflow
    else readData room i input (scan.next ch v.toNat)

def bech32_decode (hrpRoom dataRoom : Nat) (input : Bytes) : Except Fault (Bytes × List Nat) :=
  if input.length < 8 ∨ input.length > 90 then .error .refused
  else
    let data_len := (input.reverse.takeWhile (· != separator)).length
    -- without a separator this is the largest `size_t`
    let hrp_len := (2 ^ 64 + input.length - (1 + data_len)) % 2 ^ 64
    if hrp_len < 1 ∨ data_len < 6 then .error .refused
    else
      match readHrp hrpRoom hrp_len 0 input ⟨1#32, false, false⟩ with
      | .error fault => .error fault
      | .ok (hrp, scan) =>
        let chk := polymod scan.chk (0 :: (input.take hrp_len).map fun ch => ch.toNat &&& 0x1f)
        match readData dataRoom 0 (input.drop (hrp_len + 1)) { scan with chk := chk } with
        | .error fault => .error fault
        | .ok (data, scan) =>
          if scan.have_lower && scan.have_upper then .error .refused
          else if scan.chk = 1#32 then .ok (hrp, data)
          else .error .refused

/-! ## The shift register -/

/-- One of the five words, for a bit that falls out. -/
theorem mask_eq (x word : BitVec 32) : -(x &&& 1#32) &&& word = if x.getLsbD 0 then word else 0#32 := by
  rw [BitVec.and_one_eq_setWidth_ofBool_getLsbD]
  cases x.getLsbD 0
  · simp
  · show -(1#32) &&& word = word
    rw [show -(1#32) = BitVec.allOnes 32 by decide, BitVec.allOnes_and]

theorem mask_xor (x y word : BitVec 32) :
    -((x ^^^ y) &&& 1#32) &&& word = (-(x &&& 1#32) &&& word) ^^^ (-(y &&& 1#32) &&& word) := by
  rw [mask_eq, mask_eq, mask_eq, BitVec.getLsbD_xor]
  cases x.getLsbD 0 <;> cases y.getLsbD 0 <;> simp

theorem polymod_step_xor (x y : BitVec 32) :
    bech32_polymod_step (x ^^^ y) = bech32_polymod_step x ^^^ bech32_polymod_step y := by
  have hlow : (x ^^^ y) &&& 0x1FFFFFF#32 = (x &&& 0x1FFFFFF#32) ^^^ (y &&& 0x1FFFFFF#32) := by
    apply BitVec.eq_of_getLsbD_eq
    intro i _
    simp only [BitVec.getLsbD_and, BitVec.getLsbD_xor, Bool.and_xor_distrib_right]
  simp only [bech32_polymod_step, BitVec.ushiftRight_xor_distrib, mask_xor, hlow, BitVec.shiftLeft_xor_distrib]
  ac_rfl

/-- The words together, for the five bits that fall out. -/
def folded (top : BitVec 32) : BitVec 32 :=
  (if top.getLsbD 0 then 0x3b6a57b2#32 else 0#32) ^^^
    (if top.getLsbD 1 then 0x26508e6d#32 else 0#32) ^^^
    (if top.getLsbD 2 then 0x1ea119fa#32 else 0#32) ^^^
    (if top.getLsbD 3 then 0x3d4233dd#32 else 0#32) ^^^
    (if top.getLsbD 4 then 0x2a1462b3#32 else 0#32)

theorem polymod_step_eq (x : BitVec 32) :
    bech32_polymod_step x = ((x &&& 0x1FFFFFF#32) <<< 5) ^^^ folded (x >>> 25) := by
  simp only [bech32_polymod_step, folded, mask_eq, BitVec.getLsbD_ushiftRight, Nat.add_zero]
  ac_rfl

theorem low_toNat (x : BitVec 32) : ((x &&& 0x1FFFFFF#32) <<< 5).toNat = 32 * (x.toNat % 2 ^ 25) := by
  have hmask : (x &&& 0x1FFFFFF#32).toNat = x.toNat % 2 ^ 25 := by
    rw [BitVec.toNat_and]
    exact Nat.and_two_pow_sub_one_eq_mod x.toNat 25
  rw [BitVec.toNat_shiftLeft, hmask, Nat.shiftLeft_eq]
  have := Nat.mod_lt x.toNat (Nat.two_pow_pos 25)
  omega

theorem folded_lt (top : BitVec 32) : (folded top).toNat < 2 ^ 30 := by
  have hword : ∀ (b : Bool) (word : BitVec 32), word.toNat < 2 ^ 30 → (if b then word else 0#32).toNat < 2 ^ 30 := by
    intro b word h
    cases b
    · exact Nat.two_pow_pos 30
    · exact h
  unfold folded
  repeat apply xor_lt
  all_goals exact hword _ _ (by decide)

/-- Five bits that leave no trace in the lowest symbol are zero. -/
theorem folded_low : ∀ top < 32, (folded (BitVec.ofNat 32 top)).toNat % 32 = 0 → top = 0 := by decide

theorem isRegister_polymod : IsRegister bech32_polymod_step 5 5 where
  xor := polymod_step_xor
  lt := by
    intro x
    rw [polymod_step_eq]
    apply xor_lt
    · rw [low_toNat]
      have := Nat.mod_lt x.toNat (Nat.two_pow_pos 25)
      omega
    · exact folded_lt _
  shift := by
    intro x hx
    have htop : x >>> 25 = 0#32 := by
      apply BitVec.eq_of_toNat_eq
      rw [BitVec.toNat_ushiftRight, Nat.shiftRight_eq_div_pow, Nat.div_eq_of_lt hx]
      rfl
    rw [polymod_step_eq, htop, show folded 0#32 = 0#32 by decide, BitVec.xor_zero, low_toNat, Nat.mod_eq_of_lt hx]
    rfl
  injective := by
    intro x hx hzero
    rw [polymod_step_eq, BitVec.xor_eq_zero_iff] at hzero
    have hlow := congrArg BitVec.toNat hzero
    rw [low_toNat] at hlow
    have htop : x >>> 25 = BitVec.ofNat 32 (x.toNat / 2 ^ 25) := by
      apply BitVec.eq_of_toNat_eq
      rw [BitVec.toNat_ushiftRight, Nat.shiftRight_eq_div_pow, BitVec.toNat_ofNat]
      omega
    rw [htop] at hlow
    have hnone : x.toNat / 2 ^ 25 = 0 := by
      apply folded_low
      · omega
      · omega
    rw [hnone, show (folded (BitVec.ofNat 32 0)).toNat = 0 by decide] at hlow
    apply BitVec.eq_of_toNat_eq
    show x.toNat = 0
    omega

/-! ## The checksum -/

theorem polymod_append (chk : BitVec 32) (us vs : List Nat) : polymod chk (us ++ vs) = polymod (polymod chk us) vs := by
  unfold polymod
  rw [List.map_append, feed_append]

theorem map_toNat_ofNat {us : List Nat} (hus : ∀ u ∈ us, u < 32) : (us.map (BitVec.ofNat 32)).map BitVec.toNat = us := by
  rw [List.map_map]
  conv_rhs => rw [← List.map_id us]
  apply List.map_congr_left
  intro u hu
  have := hus u hu
  show u % 2 ^ 32 = u
  omega

theorem symbols_lt {us : List Nat} (hus : ∀ u ∈ us, u < 32) : ∀ v ∈ us.map (BitVec.ofNat 32), v.toNat < 2 ^ 5 := by
  intro v hv
  obtain ⟨u, hu, rfl⟩ := List.mem_map.mp hv
  have := hus u hu
  rw [BitVec.toNat_ofNat]
  omega

theorem polymod_lt {us : List Nat} (hus : ∀ u ∈ us, u < 32) : (polymod 1#32 us).toNat < 2 ^ 30 :=
  isRegister_polymod.feed_lt (by decide) (symbols_lt hus)

theorem checksumSymbols_value {chk : BitVec 32} (h : chk.toNat < 2 ^ 30) : readDigits 32 0 (checksumSymbols chk) = chk.toNat := by
  have hsymbol : ∀ i, ((chk >>> i) &&& 0x1f#32).toNat = chk.toNat / 2 ^ i % 32 := by
    intro i
    rw [BitVec.toNat_and, BitVec.toNat_ushiftRight, Nat.shiftRight_eq_div_pow]
    exact Nat.and_two_pow_sub_one_eq_mod _ 5
  unfold checksumSymbols
  simp only [List.range_succ, List.range_zero, List.nil_append, List.cons_append, List.map_cons, List.map_nil, hsymbol]
  unfold readDigits
  simp only [List.foldl_cons, List.foldl_nil]
  omega

theorem checksumSymbols_lt (chk : BitVec 32) : ∀ u ∈ checksumSymbols chk, u < 32 := by
  intro u hu
  obtain ⟨i, -, rfl⟩ := List.mem_map.mp hu
  rw [BitVec.toNat_and]
  exact Nat.lt_of_le_of_lt Nat.and_le_right (by decide)

/-- The six symbols that leave 1. -/
theorem checksum_iff {us cs : List Nat} (hus : ∀ u ∈ us, u < 32) (hcs : ∀ u ∈ cs, u < 32) (hlength : cs.length = 6) :
    polymod 1#32 (us ++ cs) = 1#32 ↔ cs = checksumSymbols (polymod 1#32 (us ++ List.replicate 6 0) ^^^ 1#32) := by
  have hzeros : ∀ u ∈ us ++ List.replicate 6 0, u < 32 := by
    intro u hu
    rcases List.mem_append.mp hu with hu | hu
    · exact hus u hu
    · rw [List.eq_of_mem_replicate hu]
      decide
  have hlt : (polymod 1#32 (us ++ List.replicate 6 0) ^^^ 1#32).toNat < 2 ^ 30 := xor_lt (polymod_lt hzeros) (by decide)
  have hsplit : polymod 1#32 (us ++ cs) =
      polymod 1#32 (us ++ List.replicate 6 0) ^^^ feed bech32_polymod_step 0#32 (cs.map (BitVec.ofNat 32)) := by
    rw [polymod_append, polymod_append]
    have h := feed_split polymod_step_xor (polymod 1#32 us) (cs.map (BitVec.ofNat 32))
    rw [List.length_map, hlength] at h
    exact h
  have hvalue : (feed bech32_polymod_step 0#32 (cs.map (BitVec.ofNat 32))).toNat = readDigits 32 0 cs := by
    have h := isRegister_polymod.feed_toNat (symbols_lt hcs) (by rw [List.length_map, hlength])
    rw [map_toNat_ofNat hcs] at h
    exact h
  generalize polymod 1#32 (us ++ List.replicate 6 0) = chk at hlt hsplit
  rw [hsplit, xor_eq_iff]
  constructor
  · intro h
    apply readDigits_inj (by decide) (by rw [hlength]; rfl) hcs (checksumSymbols_lt _)
    rw [checksumSymbols_value hlt, ← hvalue, h]
  · intro h
    apply BitVec.eq_of_toNat_eq
    rw [hvalue, h, checksumSymbols_value hlt]

/-! ## Reading a text -/

/-- -1 for a character that is not in the alphabet, of either case. -/
def valueOf (ch : UInt8) : Int := if ch &&& 0x80 ≠ 0 then -1 else charset_rev.getD ch.toNat (-1)

def inRange (ch : UInt8) : Bool := 33 ≤ ch && ch ≤ 126

def symbolOf (ch : UInt8) : Nat := (valueOf ch).toNat

/-- The characters that have been looked at. -/
def Scan.after (scan : Scan) (symbol : UInt8 → Nat) (text : Bytes) : Scan :=
  text.foldl (fun scan ch => scan.next ch (symbol ch)) scan

theorem after_eq (symbol : UInt8 → Nat) (text : Bytes) (scan : Scan) :
    scan.after symbol text =
      ⟨polymod scan.chk (text.map symbol), scan.have_lower || text.any isLower, scan.have_upper || text.any isUpper⟩ := by
  induction text generalizing scan with
  | nil => simp [Scan.after, polymod, feed]
  | cons ch text ih =>
    have h := ih (scan.next ch (symbol ch))
    simp only [Scan.after, List.foldl_cons] at h ⊢
    rw [h]
    simp [Scan.next, polymod, feed, Bool.or_assoc]

def highSymbol (ch : UInt8) : Nat := (tolower ch).toNat >>> 5

theorem readHrp_spec {room hrp_len : Nat} {text rest : Bytes} (hroom : hrp_len < room) :
    ∀ {i : Nat} {scan : Scan}, i + text.length = hrp_len →
      readHrp room hrp_len i (text ++ rest) scan =
        if text.all inRange then .ok (text.map tolower, scan.after highSymbol text) else .error .refused := by
  induction text with
  | nil =>
    intro i scan hi
    obtain rfl : i = hrp_len := hi
    cases rest with
    | nil => simp [readHrp, hroom, Scan.after]
    | cons ch rest => simp [readHrp, hroom, Scan.after]
  | cons ch text ih =>
    intro i scan hi
    rw [List.length_cons] at hi
    rw [List.cons_append, readHrp, if_pos (by omega : i < hrp_len), ih (by omega)]
    have hcheck : (ch < 33 ∨ ch > 126) ↔ inRange ch = false := by
      unfold inRange
      simp only [gt_iff_lt, Bool.and_eq_false_iff, decide_eq_false_iff_not, UInt8.not_le]
    by_cases hch : inRange ch
    · rw [if_neg (by rw [hcheck, hch]; decide), if_pos (by omega : i < room), List.all_cons, hch, Bool.true_and]
      cases text.all inRange <;> rfl
    · rw [if_pos (by rw [hcheck]; simpa using hch), if_neg]
      simp [hch]

theorem readData_spec {room : Nat} {text : Bytes} :
    ∀ {i : Nat} {scan : Scan}, i + (text.length - 6) ≤ room →
      readData room i text scan =
        if text.all (valueOf · != -1) then .ok ((text.map symbolOf).take (text.length - 6), scan.after symbolOf text)
        else .error .refused := by
  induction text with
  | nil =>
    intro i scan _
    rfl
  | cons ch text ih =>
    intro i scan hroom
    rw [List.length_cons] at hroom
    rw [readData]
    change (if valueOf ch = -1 then _ else if 6 ≤ text.length then
      if i < room then match readData room (i + 1) text (scan.next ch (symbolOf ch)) with
        | .error fault => .error fault
        | .ok (data, scan) => .ok (symbolOf ch :: data, scan)
      else _ else readData room i text (scan.next ch (symbolOf ch))) = _
    by_cases hch : valueOf ch = -1
    · rw [if_pos hch, if_neg]
      simp [hch]
    · have hvalid : (valueOf ch != -1) = true := by simpa using hch
      rw [if_neg hch, List.all_cons, hvalid, Bool.true_and]
      by_cases hmore : 6 ≤ text.length
      · rw [if_pos hmore, if_pos (by omega), ih (by omega)]
        have htake : ((ch :: text).map symbolOf).take ((ch :: text).length - 6) =
            symbolOf ch :: (text.map symbolOf).take (text.length - 6) := by
          rw [List.length_cons, Nat.sub_add_comm hmore, List.map_cons, List.take_succ_cons]
        rw [htake]
        cases text.all (valueOf · != -1) <;> rfl
      · rw [if_neg hmore, ih (by omega)]
        have htake : ((ch :: text).map symbolOf).take ((ch :: text).length - 6) = (text.map symbolOf).take (text.length - 6) := by
          rw [List.length_cons, show text.length + 1 - 6 = 0 by omega, show text.length - 6 = 0 by omega, List.take_zero,
            List.take_zero]
        rw [htake]
        rfl

/-! ## What a text decodes to -/

def lower (text : Bytes) : Bytes := text.map tolower

/-- Letters of one case only. -/
def uniform (text : Bytes) : Bool := !(text.any isLower && text.any isUpper)

theorem byte_all {p : UInt8 → Prop} (h : ∀ high < 16, ∀ low < 16, p (UInt8.ofNat (16 * high + low))) (x : UInt8) : p x := by
  have hlt := x.toNat_lt
  have := h (x.toNat / 16) (by omega) (x.toNat % 16) (by omega)
  rwa [Nat.div_add_mod, UInt8.ofNat_toNat] at this

theorem low_tolower : ∀ ch : UInt8, (tolower ch).toNat &&& 0x1f = ch.toNat &&& 0x1f := byte_all (by decide)

theorem hrpSymbols_lower (h : Bytes) : hrpSymbols (lower h) = h.map highSymbol ++ 0 :: h.map fun ch => ch.toNat &&& 0x1f := by
  unfold hrpSymbols lower
  rw [List.map_map, List.map_map]
  congr 2
  apply List.map_congr_left
  intro ch _
  exact low_tolower ch

/-- The text around its last separator. -/
theorem decode_parts {hrpRoom dataRoom : Nat} {h d : Bytes} (hd : separator ∉ d) (hhrp : 6 ≤ d.length → h.length < hrpRoom)
    (hdata : d.length - 6 ≤ dataRoom) (hlength : h.length + 1 + d.length ≤ 90) :
    bech32_decode hrpRoom dataRoom (h ++ separator :: d) =
      if h ≠ [] ∧ 6 ≤ d.length ∧ h.all inRange ∧ d.all (valueOf · != -1) ∧ uniform (h ++ d) ∧
          polymod 1#32 (hrpSymbols (lower h) ++ d.map symbolOf) = 1#32 then
        .ok (lower h, (d.map symbolOf).take (d.length - 6))
      else .error .refused := by
  have hinput : (h ++ separator :: d).length = h.length + 1 + d.length := by
    rw [List.length_append, List.length_cons]
    omega
  have hdata_len : ((h ++ separator :: d).reverse.takeWhile (· != separator)).length = d.length := by
    rw [List.reverse_append, List.reverse_cons, List.append_assoc, List.takeWhile_append_of_pos]
    · simp
    · intro ch hch
      rw [List.mem_reverse] at hch
      simp only [bne_iff_ne, ne_eq]
      rintro rfl
      exact hd hch
  have hhrp_len : (2 ^ 64 + (h.length + 1 + d.length) - (1 + d.length)) % 2 ^ 64 = h.length := by omega
  unfold bech32_decode
  simp only [hinput, hdata_len, hhrp_len]
  by_cases hsize : h ≠ [] ∧ 6 ≤ d.length
  · obtain ⟨hne, hsix⟩ := hsize
    have hpos : 0 < h.length := List.length_pos_iff.mpr hne
    rw [if_neg (by omega), if_neg (by omega), readHrp_spec (hhrp hsix) (by omega)]
    by_cases hrange : h.all inRange
    · simp only [hrange, ↓reduceIte]
      have hdrop : (h ++ separator :: d).drop (h.length + 1) = d := by
        rw [← List.drop_drop, List.drop_left]
        rfl
      rw [List.take_left' rfl, hdrop, readData_spec (by omega)]
      by_cases hvalid : d.all (valueOf · != -1)
      · simp only [hvalid, ↓reduceIte, after_eq, ← polymod_append, hrpSymbols_lower, Bool.false_or, ← List.any_append]
        have huniform : ((h ++ d).any isLower && (h ++ d).any isUpper) = !uniform (h ++ d) := (Bool.not_not _).symm
        rw [huniform]
        cases uniform (h ++ d)
        · simp
        · simp only [Bool.not_true, Bool.false_eq_true, ↓reduceIte, true_and]
          refine if_congr ?_ rfl rfl
          exact ⟨fun hchk => ⟨hne, hsix, hchk⟩, fun hall => hall.2.2⟩
      · simp [hvalid]
    · simp [hrange]
  · rw [if_neg fun hall : h ≠ [] ∧ 6 ≤ d.length ∧ _ => hsize ⟨hall.1, hall.2.1⟩]
    by_cases hshort : h.length + 1 + d.length < 8 ∨ h.length + 1 + d.length > 90
    · rw [if_pos hshort]
    · rw [if_neg hshort, if_pos]
      by_contra hboth
      apply hsize
      exact ⟨List.length_pos_iff.mp (by omega), by omega⟩

/-! ## Decoding undoes encoding -/

def charOf (value : Nat) : UInt8 := charset.getD value 0

theorem charOf_symbolOf : ∀ ch : UInt8, valueOf ch ≠ -1 → charOf (symbolOf ch) = tolower ch ∧ symbolOf ch < 32 :=
  byte_all (by decide)

theorem valueOf_charOf : ∀ value < 32, valueOf (charOf value) = value ∧ charOf value ≠ separator := by decide

theorem charOf_inj {u v : Nat} (hu : u < 32) (hv : v < 32) (h : charOf u = charOf v) : u = v := by
  have hvalue := (valueOf_charOf u hu).1
  rw [h, (valueOf_charOf v hv).1] at hvalue
  omega

theorem valueOf_tolower : ∀ ch : UInt8, valueOf (tolower ch) = valueOf ch := byte_all (by decide)

theorem tolower_separator : ∀ ch : UInt8, tolower ch = separator ↔ ch = separator := byte_all (by decide)

theorem valueOf_of_lower {ch : UInt8} {value : Nat} (hvalue : value < 32) (h : tolower ch = charOf value) :
    valueOf ch = value ∧ ch ≠ separator := by
  obtain ⟨hchar, hne⟩ := valueOf_charOf value hvalue
  constructor
  · rw [← valueOf_tolower, h, hchar]
  · intro heq
    exact hne (h.symm.trans ((tolower_separator ch).mpr heq))

theorem inRange_lower : ∀ ch : UInt8, inRange (tolower ch) = inRange ch ∧ isUpper (tolower ch) = false :=
  byte_all (by decide)

theorem symbols_of_valid {d : Bytes} (h : d.all (valueOf · != -1)) :
    (∀ v ∈ d.map symbolOf, v < 32) ∧ (d.map symbolOf).map charOf = lower d := by
  have hvalid : ∀ ch ∈ d, valueOf ch ≠ -1 := by
    intro ch hch
    simpa using List.all_eq_true.mp h ch hch
  constructor
  · intro v hv
    obtain ⟨ch, hch, rfl⟩ := List.mem_map.mp hv
    exact (charOf_symbolOf ch (hvalid ch hch)).2
  · rw [List.map_map]
    apply List.map_congr_left
    intro ch hch
    exact (charOf_symbolOf ch (hvalid ch hch)).1

theorem symbols_of_lower {d : Bytes} {values : List Nat} (hvalues : ∀ v ∈ values, v < 32) (h : lower d = values.map charOf) :
    d.map symbolOf = values ∧ d.all (valueOf · != -1) ∧ separator ∉ d := by
  induction d generalizing values with
  | nil =>
    obtain rfl : values = [] := by simpa [lower] using h.symm
    simp
  | cons ch d ih =>
    obtain ⟨value, rest, rfl, hch, hrest⟩ := List.map_eq_cons_iff.mp h.symm
    obtain ⟨hvalue, hne⟩ := valueOf_of_lower (hvalues value List.mem_cons_self) hch.symm
    obtain ⟨hsymbols, hvalid, hnot⟩ := ih (fun v hv => hvalues v (List.mem_cons_of_mem _ hv)) hrest.symm
    refine ⟨?_, ?_, ?_⟩
    · rw [List.map_cons, hsymbols, symbolOf, hvalue]
      rfl
    · rw [List.all_cons, hvalid, hvalue]
      simp
    · intro hmem
      rcases List.mem_cons.mp hmem with heq | hmem
      · exact hne heq.symm
      · exact hnot hmem

theorem exists_last {text : Bytes} (h : separator ∈ text) : ∃ before after, text = before ++ separator :: after ∧ separator ∉ after := by
  obtain ⟨after, before, heq, hnot⟩ := List.eq_append_cons_of_mem (List.mem_reverse.mpr h)
  refine ⟨before.reverse, after.reverse, ?_, by simpa using hnot⟩
  rw [← List.reverse_reverse text, heq]
  simp

/-- Without a separator the human-readable part has no end. -/
theorem readHrp_endless {room hrp_len : Nat} {text : Bytes} :
    ∀ {i : Nat} {scan : Scan}, i ≤ room → i + text.length < hrp_len →
      readHrp room hrp_len i text scan =
        if room < i + text.length ∧ (text.take (room + 1 - i)).all inRange then .error .overflow else .error .refused := by
  induction text with
  | nil =>
    intro i scan hi hlen
    rw [readHrp, if_pos (by simpa using hlen), if_neg]
    rw [List.length_nil]
    omega
  | cons ch text ih =>
    intro i scan hi hlen
    rw [List.length_cons] at hlen
    have hcheck : (ch < 33 ∨ ch > 126) ↔ inRange ch = false := by
      unfold inRange
      simp only [gt_iff_lt, Bool.and_eq_false_iff, decide_eq_false_iff_not, UInt8.not_le]
    rw [readHrp, if_pos (by omega : i < hrp_len)]
    have htake : (ch :: text).take (room + 1 - i) = ch :: text.take (room + 1 - (i + 1)) := by
      rw [show room + 1 - i = room - i + 1 by omega, List.take_succ_cons, Nat.add_sub_add_right]
    rw [htake, List.all_cons, List.length_cons]
    by_cases hch : inRange ch
    · rw [if_neg (by rw [hcheck, hch]; decide), hch, Bool.true_and]
      by_cases hroom : i < room
      · rw [if_pos hroom, ih (i := i + 1) hroom (by omega), Nat.add_assoc i, Nat.add_comm 1]
        by_cases hend : room < i + (text.length + 1) ∧ (text.take (room + 1 - (i + 1))).all inRange
        · rw [if_pos hend]
        · rw [if_neg hend]
      · obtain rfl : i = room := by omega
        rw [if_neg hroom, if_pos]
        simp
    · rw [if_pos (by rw [hcheck]; simpa using hch), if_neg]
      simp [hch]

theorem decode_endless {hrpRoom dataRoom : Nat} {input : Bytes} (hinput : separator ∉ input) :
    bech32_decode hrpRoom dataRoom input =
      if 8 ≤ input.length ∧ input.length ≤ 90 ∧ hrpRoom < input.length ∧ (input.take (hrpRoom + 1)).all inRange then
        .error .overflow
      else .error .refused := by
  unfold bech32_decode
  by_cases hlength : input.length < 8 ∨ input.length > 90
  · rw [if_pos hlength, if_neg]
    omega
  · have hdata_len : (input.reverse.takeWhile (· != separator)).length = input.length := by
      rw [List.takeWhile_eq_self_iff.mpr, List.length_reverse]
      intro ch hch
      simp only [bne_iff_ne, ne_eq]
      rintro rfl
      exact hinput (List.mem_reverse.mp hch)
    have hhrp_len : (2 ^ 64 + input.length - (1 + input.length)) % 2 ^ 64 = 2 ^ 64 - 1 := by omega
    simp only [hdata_len, hhrp_len]
    rw [if_neg hlength, if_neg (by omega), readHrp_endless (Nat.zero_le _) (by omega), Nat.zero_add, Nat.sub_zero]
    by_cases hend : hrpRoom < input.length ∧ (input.take (hrpRoom + 1)).all inRange
    · rw [if_pos hend, if_pos ⟨by omega, by omega, hend⟩]
    · rw [if_neg hend, if_neg fun hall => hend hall.2.2]

theorem lower_append (a b : Bytes) : lower (a ++ b) = lower a ++ lower b := List.map_append

theorem uniform_parts (h d : Bytes) : uniform (h ++ separator :: d) = uniform (h ++ d) := by
  unfold uniform
  rw [List.any_append, List.any_append, List.any_append, List.any_append, List.any_cons, List.any_cons,
    show isLower separator = false by decide, show isUpper separator = false by decide, Bool.false_or, Bool.false_or]

/-- What a text is encoded from. -/
theorem encode_iff {hrp text : Bytes} {data : List Nat} :
    bech32_encode hrp data = some text ↔
      (hrp.all fun ch => inRange ch && !isUpper ch) ∧ hrp.length + 7 + data.length ≤ 90 ∧ (∀ v ∈ data, v < 32) ∧
        text = hrp ++ separator :: (data ++ checksumSymbols
          (polymod 1#32 (hrpSymbols hrp ++ data ++ List.replicate 6 0) ^^^ 1#32)).map charOf := by
  have hch : ∀ ch : UInt8, (ch < 33 || ch > 126 || isUpper ch) = !(inRange ch && !isUpper ch) := byte_all (by decide)
  have hcheck : (hrp.any fun ch => ch < 33 || ch > 126 || isUpper ch) = !(hrp.all fun ch => inRange ch && !isUpper ch) := by
    rw [List.not_all_eq_any_not]
    congr 1
    funext ch
    exact hch ch
  have hdata : (data.any fun value => value >>> 5 != 0) = false ↔ ∀ v ∈ data, v < 32 := by
    rw [List.any_eq_false]
    apply forall₂_congr
    intro v _
    simp only [Nat.shiftRight_eq_div_pow, bne_iff_ne, ne_eq, not_not]
    omega
  unfold bech32_encode
  rw [hcheck]
  by_cases hrange : hrp.all fun ch => inRange ch && !isUpper ch
  · rw [hrange, Bool.not_true, if_neg Bool.false_ne_true]
    by_cases hlength : hrp.length + 7 + data.length > 90
    · rw [if_pos hlength]
      constructor
      · intro h
        cases h
      · intro h
        omega
    · rw [if_neg hlength]
      by_cases hsmall : (data.any fun value => value >>> 5 != 0) = false
      · rw [hsmall, if_neg Bool.false_ne_true]
        constructor
        · intro h
          exact ⟨rfl, by omega, hdata.mp hsmall, (Option.some.inj h).symm⟩
        · intro h
          rw [h.2.2.2]
          rfl
      · rw [if_pos (by simpa using hsmall)]
        constructor
        · intro h
          cases h
        · intro h
          exact absurd (hdata.mpr h.2.2.1) hsmall
  · rw [if_pos (by simpa using hrange)]
    constructor
    · intro h
      cases h
    · intro h
      exact absurd h.1 hrange

theorem hrpSymbols_lt (hrp : Bytes) : ∀ v ∈ hrpSymbols hrp, v < 32 := by
  intro v hv
  rcases List.mem_append.mp hv with hv | hv
  · obtain ⟨ch, -, rfl⟩ := List.mem_map.mp hv
    have := ch.toNat_lt
    rw [Nat.shiftRight_eq_div_pow]
    omega
  · rcases List.mem_cons.mp hv with rfl | hv
    · decide
    · obtain ⟨ch, -, rfl⟩ := List.mem_map.mp hv
      exact Nat.lt_of_le_of_lt Nat.and_le_right (by decide)

theorem hrpSymbols_append_lt (hrp : Bytes) {values : List Nat} (h : ∀ v ∈ values, v < 32) :
    ∀ v ∈ hrpSymbols hrp ++ values, v < 32 := by
  intro v hv
  rcases List.mem_append.mp hv with hv | hv
  · exact hrpSymbols_lt hrp v hv
  · exact h v hv

theorem all_lower (text : Bytes) : ((lower text).all fun ch => inRange ch && !isUpper ch) = text.all inRange := by
  unfold lower
  rw [List.all_map]
  congr 1
  funext ch
  obtain ⟨hrange, hupper⟩ := inRange_lower ch
  simp [hrange, hupper]

theorem encode_of_decode {hrpRoom dataRoom : Nat} {input hrp : Bytes} {data : List Nat} (hhrp : 84 ≤ hrpRoom)
    (hdata : 84 ≤ dataRoom) (h : bech32_decode hrpRoom dataRoom input = .ok (hrp, data)) :
    uniform input ∧ hrp ≠ [] ∧ bech32_encode hrp data = some (lower input) := by
  rw [encode_iff]
  have hlength : input.length ≤ 90 := by
    by_contra hlong
    unfold bech32_decode at h
    rw [if_pos (by omega)] at h
    cases h
  by_cases hsep : separator ∈ input
  · obtain ⟨before, d, rfl, hd⟩ := exists_last hsep
    rw [List.length_append, List.length_cons] at hlength
    rw [decode_parts hd (by omega) (by omega) (by omega)] at h
    split at h
    · rename_i hall
      obtain ⟨hne, hsix, hrange, hvalid, huniform, hchk⟩ := hall
      cases h
      have hparts : (d.map symbolOf).take (d.length - 6) ++ (d.map symbolOf).drop (d.length - 6) = d.map symbolOf :=
        List.take_append_drop _ _
      obtain ⟨hsmall, hchars⟩ := symbols_of_valid hvalid
      have hvalues : ∀ v ∈ (d.map symbolOf).take (d.length - 6), v < 32 := fun v hv => hsmall v (List.mem_of_mem_take hv)
      rw [← hparts, ← List.append_assoc] at hchk
      have hcs := (checksum_iff (hrpSymbols_append_lt _ hvalues) (fun v hv => hsmall v (List.mem_of_mem_drop hv)) (by
        rw [List.length_drop, List.length_map]
        omega)).mp hchk
      refine ⟨?_, ?_, ?_, ?_, hvalues, ?_⟩
      · rw [uniform_parts]
        exact huniform
      · simpa [lower] using hne
      · rw [all_lower]
        exact hrange
      · rw [lower, List.length_map, List.length_take, List.length_map]
        omega
      · rw [← hcs, hparts, hchars, lower_append]
        rfl
    · cases h
  · rw [decode_endless hsep] at h
    split at h
    · cases h
    · cases h

theorem decode_of_encode {hrpRoom dataRoom : Nat} {input hrp : Bytes} {data : List Nat} (hhrp : 84 ≤ hrpRoom)
    (hdata : 84 ≤ dataRoom) (huniform : uniform input) (hne : hrp ≠ []) (h : bech32_encode hrp data = some (lower input)) :
    bech32_decode hrpRoom dataRoom input = .ok (hrp, data) := by
  obtain ⟨hrange, hlength, hvalues, htext⟩ := encode_iff.mp h
  obtain ⟨before, tail, rfl, hbefore, htail⟩ := List.map_eq_append_iff.mp htext
  obtain ⟨ch, d, rfl, hch, hd⟩ := List.map_eq_cons_iff.mp htail
  obtain rfl := (tolower_separator ch).mp hch
  have hcs := checksumSymbols_lt (polymod 1#32 (hrpSymbols hrp ++ data ++ List.replicate 6 0) ^^^ 1#32)
  have hall : ∀ v ∈ data ++ checksumSymbols (polymod 1#32 (hrpSymbols hrp ++ data ++ List.replicate 6 0) ^^^ 1#32), v < 32 := by
    intro v hv
    rcases List.mem_append.mp hv with hv | hv
    · exact hvalues v hv
    · exact hcs v hv
  obtain ⟨hsymbols, hvalid, hnot⟩ := symbols_of_lower hall hd
  have hdlength : d.length = data.length + 6 := by
    have h := congrArg List.length hsymbols
    rw [List.length_map, List.length_append] at h
    exact h
  have hblength : before.length = hrp.length := by rw [← hbefore, List.length_map]
  rw [decode_parts hnot (by omega) (by omega) (by omega), if_pos]
  · rw [hsymbols, hdlength, Nat.add_sub_cancel, List.take_left]
    exact congrArg (fun text => Except.ok (text, data)) hbefore
  · subst hbefore
    rw [uniform_parts] at huniform
    refine ⟨by simpa [lower] using hne, by omega, ?_, hvalid, huniform, ?_⟩
    · rw [← all_lower]
      exact hrange
    · rw [hsymbols, ← List.append_assoc]
      exact (checksum_iff (hrpSymbols_append_lt _ hvalues) hcs rfl).mpr rfl

/-- A text decodes to what encodes to it, but for the case of its letters. -/
theorem bech32_decode_iff {hrpRoom dataRoom : Nat} {input hrp : Bytes} {data : List Nat} (hhrp : 84 ≤ hrpRoom)
    (hdata : 84 ≤ dataRoom) :
    bech32_decode hrpRoom dataRoom input = .ok (hrp, data) ↔
      uniform input ∧ hrp ≠ [] ∧ bech32_encode hrp data = some (lower input) := by
  constructor
  · exact encode_of_decode hhrp hdata
  · intro h
    obtain ⟨huniform, hne, hencode⟩ := h
    exact decode_of_encode hhrp hdata huniform hne hencode

/-- `hrp` is written behind its end for a text without a separator that is copied whole and
    does not fit. -/
def Overflows (addr : Bytes) : Prop :=
  separator ∉ addr ∧ 85 ≤ addr.length ∧ addr.length ≤ 90 ∧ (addr.take 85).all inRange

theorem bech32_overflow_iff (addr : Bytes) : bech32_decode 84 84 addr = .error .overflow ↔ Overflows addr := by
  unfold Overflows
  by_cases hsep : separator ∈ addr
  · rw [iff_false_right fun h => h.1 hsep]
    by_cases hlength : addr.length ≤ 90
    · obtain ⟨before, d, rfl, hd⟩ := exists_last hsep
      rw [List.length_append, List.length_cons] at hlength
      rw [decode_parts hd (by omega) (by omega) (by omega)]
      split
      · simp
      · simp
    · unfold bech32_decode
      rw [if_pos (by omega)]
      simp
  · rw [decode_endless hsep]
    constructor
    · intro h
      split at h
      · rename_i hall
        exact ⟨hsep, by omega, by omega, hall.2.2.2⟩
      · cases h
    · rintro ⟨-, hlong, hshort, hrange⟩
      rw [if_pos ⟨by omega, hshort, by omega, hrange⟩]

end Bech32

end BitcoinSpoon
