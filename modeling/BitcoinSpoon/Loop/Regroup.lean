/-
  BitcoinSpoon.Loop.Regroup — a stream of symbols of one width cut into symbols of another.

  The symbols come into a word from the right and go out from the left; of the word only the
  bits that have not gone out count (`Regrouped`). Symbols of the second width, with fewer
  zero bits behind than a symbol has, and those of the first determine each other
  (`Padded.left_unique`, `Padded.right_unique`). Nothing here names a program.
-/

import BitcoinSpoon.Loop.Radix

namespace BitcoinSpoon.Loop

variable {a b word : Nat}

/-- What is in the word, how many of its bits have not gone out, and what has. -/
structure BitStream where
  val : Nat
  bits : Nat
  out : List Nat

/-- The highest `count` symbols of `a` bits among the lowest `bits` bits. -/
def emit (a bits val count : Nat) : List Nat := (List.range count).map fun i => (val >>> (bits - (i + 1) * a)) &&& (2 ^ a - 1)

/-- `while (bits >= b)`, after one more symbol of `a` bits. -/
def BitStream.push (word a b : Nat) (stream : BitStream) (value : Nat) : BitStream :=
  let val := (stream.val <<< a ||| value) % 2 ^ word
  let bits := stream.bits + a
  { val := val, bits := bits % b, out := stream.out ++ emit b bits val (bits / b) }

theorem readDigits_append {m value : Nat} (us vs : List Nat) :
    readDigits m value (us ++ vs) = readDigits m (readDigits m value us) vs := List.foldl_append

theorem emit_lt {bits val count : Nat} : ∀ v ∈ emit a bits val count, v < 2 ^ a := by
  intro v hv
  obtain ⟨i, -, rfl⟩ := List.mem_map.mp hv
  rw [Nat.and_two_pow_sub_one_eq_mod]
  exact Nat.mod_lt _ (Nat.two_pow_pos a)

theorem emit_value {bits val : Nat} (value : Nat) {count : Nat} (h : count * a ≤ bits) :
    readDigits (2 ^ a) value (emit a bits val count) = value * 2 ^ (count * a) + val % 2 ^ bits / 2 ^ (bits - count * a) := by
  induction count with
  | zero =>
    show value = _
    have := Nat.div_eq_of_lt (Nat.mod_lt val (Nat.two_pow_pos bits))
    simp [this]
  | succ count ih =>
    have hle : count * a + a ≤ bits := by rwa [Nat.add_mul, Nat.one_mul] at h
    obtain ⟨low, rfl⟩ : ∃ low, bits = count * a + a + low := ⟨bits - (count * a + a), by omega⟩
    unfold emit at ih ⊢
    rw [List.range_succ, List.map_append, readDigits_append, ih (by omega)]
    have hhigh : count * a + a + low - count * a = low + a := by omega
    have hlow : count * a + a + low - (count + 1) * a = low := by
      rw [Nat.add_mul, Nat.one_mul]
      omega
    have hrest : val % 2 ^ (count * a + a + low) / 2 ^ low = val / 2 ^ low % 2 ^ (count * a + a) := by
      rw [Nat.add_comm (count * a + a), Nat.pow_add, Nat.mod_mul_right_div_self]
    have hdigit : val / 2 ^ low % 2 ^ (count * a + a) % 2 ^ a = val / 2 ^ low % 2 ^ a :=
      Nat.mod_mod_of_dvd _ (Nat.pow_dvd_pow 2 (Nat.le_add_left a (count * a)))
    rw [hhigh, hlow, Nat.pow_add 2 low, ← Nat.div_div_eq_div_mul, hrest]
    show 2 ^ a * (value * 2 ^ (count * a) + _) + ((val >>> (count * a + a + low - (count + 1) * a)) &&& (2 ^ a - 1)) = _
    rw [hlow, Nat.and_two_pow_sub_one_eq_mod, Nat.shiftRight_eq_div_pow, ← hdigit, Nat.mul_add, Nat.add_assoc, Nat.div_add_mod]
    congr 1
    rw [Nat.add_mul, Nat.one_mul, Nat.pow_add]
    ring

/-- The input, what has gone out, and what has not. -/
structure Regrouped (a b : Nat) (input : List Nat) (stream : BitStream) : Prop where
  length : input.length * a = stream.out.length * b + stream.bits
  bits_lt : stream.bits < b
  out_lt : ∀ v ∈ stream.out, v < 2 ^ b
  value : readDigits (2 ^ a) 0 input = readDigits (2 ^ b) 0 stream.out * 2 ^ stream.bits + stream.val % 2 ^ stream.bits

theorem regrouped_nil (a b : Nat) (hb : 0 < b) : Regrouped a b [] ⟨0, 0, []⟩ where
  length := by simp
  bits_lt := hb
  out_lt := by simp
  value := by simp [readDigits]

theorem Regrouped.push {input : List Nat} {stream : BitStream} {value : Nat} (h : Regrouped a b input stream)
    (hvalue : value < 2 ^ a) (hword : a + b ≤ word + 1) : Regrouped a b (input ++ [value]) (stream.push word a b value) := by
  have hbits := h.bits_lt
  have hb : 0 < b := by omega
  have hsplit := Nat.div_add_mod (stream.bits + a) b
  have hcount : (stream.bits + a) / b * b ≤ stream.bits + a := Nat.div_mul_le_self _ b
  -- the bits that count are kept by the word
  have hval : (stream.val <<< a ||| value) % 2 ^ word % 2 ^ (stream.bits + a) =
      stream.val % 2 ^ stream.bits * 2 ^ a + value := by
    rw [Nat.mod_mod_of_dvd _ (Nat.pow_dvd_pow 2 (by omega : stream.bits + a ≤ word)), Nat.shiftLeft_eq, Nat.mul_comm,
      ← Nat.two_pow_add_eq_or_of_lt hvalue, Nat.add_comm stream.bits, Nat.pow_add, Nat.mod_mul, Nat.mul_add_mod,
      Nat.mod_eq_of_lt hvalue, Nat.mul_add_div (Nat.two_pow_pos a), Nat.div_eq_of_lt hvalue, Nat.add_zero]
    ring
  refine ⟨?_, Nat.mod_lt _ hb, ?_, ?_⟩
  · show (input ++ [value]).length * a = (stream.out ++ emit b _ _ _).length * b + (stream.bits + a) % b
    have := h.length
    rw [Nat.mul_comm] at hsplit
    rw [List.length_append, List.length_append, emit, List.length_map, List.length_range, Nat.add_mul, Nat.add_mul,
      List.length_singleton]
    omega
  · intro v hv
    rcases List.mem_append.mp hv with hv | hv
    · exact h.out_lt v hv
    · exact emit_lt v hv
  · show readDigits (2 ^ a) 0 (input ++ [value]) = readDigits (2 ^ b) 0 (stream.out ++ emit b _ _ _) * 2 ^ ((stream.bits + a) % b) +
      (stream.val <<< a ||| value) % 2 ^ word % 2 ^ ((stream.bits + a) % b)
    generalize (stream.val <<< a ||| value) % 2 ^ word = val at hval
    have hlow : val % 2 ^ ((stream.bits + a) % b) = val % 2 ^ (stream.bits + a) % 2 ^ ((stream.bits + a) % b) :=
      (Nat.mod_mod_of_dvd _ (Nat.pow_dvd_pow 2 (Nat.mod_le _ b))).symm
    have hleft : stream.bits + a - (stream.bits + a) / b * b = (stream.bits + a) % b := by
      rw [Nat.mul_comm] at hsplit
      omega
    have hsum : (stream.bits + a) / b * b + (stream.bits + a) % b = stream.bits + a := by
      rw [Nat.mul_comm]
      exact hsplit
    rw [readDigits_append, readDigits_append, emit_value _ hcount, hleft, hlow, h.value, hval, Nat.add_mul, Nat.mul_assoc,
      ← Nat.pow_add, hsum, Nat.add_assoc, Nat.div_add_mod']
    show 2 ^ a * _ + value = _
    rw [Nat.pow_add]
    ring

theorem Regrouped.pushes (word : Nat) {input more : List Nat} {stream : BitStream} (h : Regrouped a b input stream)
    (hmore : ∀ v ∈ more, v < 2 ^ a) (hword : a + b ≤ word + 1) :
    Regrouped a b (input ++ more) (more.foldl (BitStream.push word a b) stream) := by
  induction more generalizing input stream with
  | nil =>
    rw [List.append_nil]
    exact h
  | cons value more ih =>
    have hrest := ih (h.push (hmore value List.mem_cons_self) hword) fun v hv => hmore v (List.mem_cons_of_mem _ hv)
    rw [List.append_assoc] at hrest
    exact hrest

/-! ## Symbols with zero bits behind -/

structure Padded (a b : Nat) (input out : List Nat) (pad : Nat) : Prop where
  pad_lt : pad < b
  length : out.length * b = input.length * a + pad
  value : readDigits (2 ^ b) 0 out = readDigits (2 ^ a) 0 input * 2 ^ pad

theorem shifted (val : Nat) {bits : Nat} (h : bits ≤ b) :
    (val <<< (b - bits)) &&& (2 ^ b - 1) = val % 2 ^ bits * 2 ^ (b - bits) := by
  obtain ⟨rest, rfl⟩ := Nat.exists_eq_add_of_le h
  rw [Nat.and_two_pow_sub_one_eq_mod, Nat.shiftLeft_eq, Nat.add_sub_cancel_left, Nat.pow_add, Nat.mul_mod_mul_right]

/-- The last symbol is filled up. -/
def BitStream.padded (b : Nat) (stream : BitStream) : List Nat :=
  if stream.bits ≠ 0 then stream.out ++ [(stream.val <<< (b - stream.bits)) &&& (2 ^ b - 1)] else stream.out

/-- What has not gone out is less than a symbol of the input, and zero. -/
def BitStream.exact (a b : Nat) (stream : BitStream) : Bool :=
  !(((stream.val <<< (b - stream.bits)) &&& (2 ^ b - 1)) != 0 || stream.bits ≥ a)

theorem Regrouped.padded {input : List Nat} {stream : BitStream} (h : Regrouped a b input stream) :
    ∃ pad, Padded a b input (stream.padded b) pad := by
  have hlength := h.length
  have hbits := h.bits_lt
  unfold BitStream.padded
  by_cases hzero : stream.bits = 0
  · rw [if_neg (not_not_intro hzero)]
    refine ⟨0, by omega, by omega, ?_⟩
    rw [h.value, hzero]
    simp [Nat.mod_one]
  · rw [if_pos hzero, shifted _ hbits.le]
    refine ⟨b - stream.bits, by omega, ?_, ?_⟩
    · rw [List.length_append, List.length_singleton, Nat.add_mul]
      omega
    · rw [readDigits_append, h.value, Nat.add_mul, Nat.mul_assoc, ← Nat.pow_add, Nat.add_sub_cancel' hbits.le]
      show 2 ^ b * _ + _ = _
      ring

theorem padded_lt {stream : BitStream} (hout : ∀ v ∈ stream.out, v < 2 ^ b) : ∀ v ∈ stream.padded b, v < 2 ^ b := by
  intro v hv
  unfold BitStream.padded at hv
  split at hv
  · rcases List.mem_append.mp hv with hv | hv
    · exact hout v hv
    · rw [List.mem_singleton.mp hv, Nat.and_two_pow_sub_one_eq_mod]
      exact Nat.mod_lt _ (Nat.two_pow_pos b)
  · exact hout v hv

theorem Padded.right_unique {input us vs : List Nat} {p q : Nat} (hu : Padded a b input us p) (hv : Padded a b input vs q)
    (hb : 0 < b) (hus : ∀ v ∈ us, v < 2 ^ b) (hvs : ∀ v ∈ vs, v < 2 ^ b) : us = vs := by
  have hp := hu.pad_lt
  have hq := hv.pad_lt
  have hlu := hu.length
  have hlv := hv.length
  have hlength : us.length = vs.length := by
    rcases Nat.lt_trichotomy us.length vs.length with hlt | heq | hlt
    · nlinarith
    · exact heq
    · nlinarith
  obtain rfl : p = q := by
    rw [hlength] at hlu
    omega
  apply readDigits_inj (Nat.one_lt_two_pow hb.ne') hlength hus hvs
  rw [hu.value, hv.value]

/-- A stream is read without a rest if its symbols are padded ones. -/
theorem Regrouped.exact_iff {input back : List Nat} {stream : BitStream} (h : Regrouped b a back stream) (hab : b ≤ a)
    (hinput : ∀ v ∈ input, v < 2 ^ a) :
    (stream.exact b a ∧ stream.out = input) ↔ ∃ pad, Padded a b input back pad := by
  have hlength := h.length
  have hbits := h.bits_lt
  unfold BitStream.exact
  rw [shifted _ hbits.le]
  constructor
  · rintro ⟨hexact, rfl⟩
    simp only [ge_iff_le, Bool.not_or, Bool.and_eq_true, Bool.not_eq_eq_eq_not, Bool.not_true, bne_eq_false_iff_eq,
      Nat.mul_eq_zero, decide_eq_false_iff_not, Nat.not_le] at hexact
    obtain ⟨hrest, hsmall⟩ := hexact
    refine ⟨stream.bits, hsmall, hlength, ?_⟩
    rcases hrest with hrest | hpow
    · rw [h.value, hrest, Nat.add_zero]
    · exact absurd hpow (Nat.two_pow_pos _).ne'
  · rintro ⟨pad, hpad⟩
    have hp := hpad.pad_lt
    have hl := hpad.length
    have hcount : stream.out.length = input.length := by
      rcases Nat.lt_trichotomy stream.out.length input.length with hlt | heq | hlt
      · nlinarith
      · exact heq
      · nlinarith
    obtain hsame : stream.bits = pad := by
      rw [hcount] at hlength
      omega
    have hvalue := h.value
    rw [hpad.value, hsame] at hvalue
    have hlt := Nat.mod_lt stream.val (Nat.two_pow_pos pad)
    have hrest : stream.val % 2 ^ pad = 0 := by
      have hmod := Nat.mul_mod_left (readDigits (2 ^ a) 0 input) (2 ^ pad)
      rw [hvalue, Nat.mul_add_mod_of_lt hlt] at hmod
      exact hmod
    have ha : a ≠ 0 := by omega
    rw [hrest, Nat.add_zero] at hvalue
    have hsame_value := Nat.eq_of_mul_eq_mul_right (Nat.two_pow_pos pad) hvalue
    refine ⟨?_, readDigits_inj (Nat.one_lt_two_pow ha) hcount h.out_lt hinput hsame_value.symm⟩
    rw [hsame, hrest]
    simp
    omega

end BitcoinSpoon.Loop
