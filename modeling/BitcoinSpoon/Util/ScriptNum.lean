/-
  BitcoinSpoon.Util.ScriptNum — numbers in scripts (`encodeScriptNum`, `jimmyScript`,
  `code/BTCUtil.c`).

  `scriptNumValue` is how a script reads a byte string as a number: the magnitude in
  little-endian order, the sign in the top bit of the last byte. `encodeScriptNum` writes
  the bytes of `(uint64_t)value`, which is the magnitude of a value that is not negative
  only; of a negative one it is the two's complement, and that is what gets the sign bit
  (`encodeScriptNum_iff`).

  The heights of `jimmyScript` are sums of a `uint32_t`, so they wrap around near the end
  of its range (`jimmyLock_value`).
-/

import Mathlib.Tactic.Ring
import BitcoinSpoon.Util.Multisig

namespace BitcoinSpoon

open Wire

/-! ## Encoding -/

/-- The loop of `encodeScriptNum`: a `uint64_t` has at most eight bytes. -/
def absBytes : Nat → UInt64 → Bytes
  | 0, _ => []
  | rounds + 1, absvalue =>
    if absvalue = 0 then [] else uint8D (absvalue &&& 0xff).toNat ++ absBytes rounds (absvalue >>> 8)

def encodeScriptNum (value : Int64) : Bytes :=
  if value = 0 then []
  else
    let neg : Bool := value < 0
    let absvalue := value.toUInt64
    let result := absBytes 8 absvalue
    let last := result.getLastD 0
    if last &&& 0x80 ≠ 0 then result ++ uint8D (if neg then 0x80 else 0)
    else if neg then result.dropLast ++ [last ||| 0x80]
    else result

/-! ## What a script reads -/

/-- The value of a byte string as a script number. -/
def scriptNumValue (b : Bytes) : Int :=
  match b.getLast? with
  | none => 0
  | some last =>
    let magnitude := leNat (b.dropLast ++ [last &&& 0x7f])
    if last &&& 0x80 ≠ 0 then -magnitude else magnitude

theorem leNat_append (a b : Bytes) : leNat (a ++ b) = leNat a + 256 ^ a.length * leNat b := by
  induction a with
  | nil => simp [leNat]
  | cons x a ih =>
    rw [List.cons_append, leNat, leNat, ih, List.length_cons, Nat.pow_succ]
    ring

theorem signBit_iff (x : UInt8) : x &&& 0x80 ≠ 0 ↔ 128 ≤ x.toNat := by
  have hall : ∀ n : Fin 256, UInt8.ofNat n &&& 0x80 ≠ 0 ↔ 128 ≤ n.val := by decide +kernel
  have hx := hall ⟨x.toNat, x.toNat_lt⟩
  rwa [UInt8.ofNat_toNat] at hx

theorem toNat_and_127 (x : UInt8) : (x &&& 0x7f).toNat = x.toNat % 128 := by
  rw [UInt8.toNat_and]
  exact Nat.and_two_pow_sub_one_eq_mod x.toNat 7

theorem scriptNumValue_concat (init : Bytes) (last : UInt8) :
    scriptNumValue (init ++ [last]) =
      if 128 ≤ last.toNat then -((leNat init + 256 ^ init.length * (last.toNat % 128) : Nat) : Int)
      else ((leNat init + 256 ^ init.length * last.toNat : Nat) : Int) := by
  have hmagnitude : leNat (init ++ [last &&& 0x7f]) = leNat init + 256 ^ init.length * (last.toNat % 128) := by
    rw [leNat_append, ← toNat_and_127]
    rfl
  unfold scriptNumValue
  rw [List.getLast?_concat]
  dsimp only
  rw [List.dropLast_concat, hmagnitude]
  by_cases hsign : 128 ≤ last.toNat
  · rw [if_pos ((signBit_iff last).mpr hsign), if_pos hsign]
  · rw [if_neg ((signBit_iff last).not.mpr hsign), if_neg hsign, Nat.mod_eq_of_lt (by omega)]

/-- A string of `n + 1` bytes has 7 bits of its last byte for the magnitude. -/
theorem scriptNumValue_lt {b : Bytes} {n : Nat} (h : b.length ≤ n + 1) : (scriptNumValue b).natAbs < 128 * 256 ^ n := by
  rcases List.eq_nil_or_concat b with rfl | ⟨init, last, rfl⟩
  · have : 0 < 256 ^ n := Nat.pow_pos (by decide)
    show 0 < _
    omega
  rw [List.concat_eq_append] at h ⊢
  rw [List.length_append, List.length_singleton] at h
  have hinit := leNat_lt init
  have hmod : last.toNat % 128 < 128 := Nat.mod_lt _ (by decide)
  have hpow : 256 ^ init.length ≤ 256 ^ n := Nat.pow_le_pow_right (by decide) (by omega)
  have hbound : ∀ k < 128, leNat init + 256 ^ init.length * k < 128 * 256 ^ n := by
    intro k hk
    calc leNat init + 256 ^ init.length * k
        < 256 ^ init.length + 256 ^ init.length * k := by omega
      _ = 256 ^ init.length * (k + 1) := by ring
      _ ≤ 256 ^ init.length * 128 := Nat.mul_le_mul_left _ hk
      _ ≤ 256 ^ n * 128 := Nat.mul_le_mul_right _ hpow
      _ = 128 * 256 ^ n := Nat.mul_comm _ _
  rw [scriptNumValue_concat]
  split
  · rw [Int.natAbs_neg, Int.natAbs_natCast]
    exact hbound _ hmod
  · rw [Int.natAbs_natCast]
    exact hbound _ (by omega)

/-! ## The loop -/

/-- The bytes of the number, the last one not 0. -/
theorem absBytes_spec {rounds : Nat} {absvalue : UInt64} (h : absvalue.toNat < 256 ^ rounds) :
    leNat (absBytes rounds absvalue) = absvalue.toNat ∧ (absBytes rounds absvalue).length ≤ rounds ∧
      ∀ init last, absBytes rounds absvalue = init ++ [last] → last.toNat ≠ 0 := by
  induction rounds generalizing absvalue with
  | zero =>
    have hzero : absvalue.toNat = 0 := by simpa using h
    refine ⟨hzero.symm, Nat.le_refl 0, ?_⟩
    intro init last hlast
    simp [absBytes] at hlast
  | succ rounds ih =>
    have hshift : (absvalue >>> 8).toNat = absvalue.toNat / 256 := by
      rw [UInt64.toNat_shiftRight]
      exact Nat.shiftRight_eq_div_pow _ 8
    have hbyte : (UInt8.ofNat (absvalue &&& 0xff).toNat).toNat = absvalue.toNat % 256 := by
      rw [UInt8.toNat_ofNat', UInt64.toNat_and]
      have := Nat.and_two_pow_sub_one_eq_mod absvalue.toNat 8
      have hmask : absvalue.toNat &&& (255 : UInt64).toNat = absvalue.toNat % 256 := this
      rw [hmask]
      omega
    rw [absBytes]
    by_cases hzero : absvalue = 0
    · rw [if_pos hzero, hzero]
      exact ⟨rfl, Nat.zero_le _, fun init last hlast => by simp at hlast⟩
    rw [if_neg hzero]
    have hsmall : (absvalue >>> 8).toNat < 256 ^ rounds := by
      rw [hshift, Nat.div_lt_iff_lt_mul (by decide), ← Nat.pow_succ]
      exact h
    obtain ⟨hvalue, hlen, hlast⟩ := ih hsmall
    have hcons : uint8D (absvalue &&& 0xff).toNat ++ absBytes rounds (absvalue >>> 8) =
        UInt8.ofNat (absvalue &&& 0xff).toNat :: absBytes rounds (absvalue >>> 8) := rfl
    rw [hcons]
    refine ⟨?_, ?_, ?_⟩
    · rw [leNat, hvalue, hbyte, hshift]
      omega
    · rw [List.length_cons]
      omega
    · intro init last hsplit
      cases init with
      | nil =>
        obtain ⟨rfl, hnil⟩ := List.cons.inj hsplit
        rw [hnil] at hvalue
        have hne : absvalue.toNat ≠ 0 := fun h0 => hzero (UInt64.toNat_inj.mp h0)
        have hq : absvalue.toNat / 256 = 0 := by rw [← hshift, ← hvalue]; rfl
        rw [hbyte]
        omega
      | cons x init => exact hlast init last (List.cons.inj hsplit).2

theorem absBytes_eight (absvalue : UInt64) :
    leNat (absBytes 8 absvalue) = absvalue.toNat ∧ (absBytes 8 absvalue).length ≤ 8 ∧
      ∀ init last, absBytes 8 absvalue = init ++ [last] → last.toNat ≠ 0 :=
  absBytes_spec absvalue.toNat_lt

/-! ## Decoding what was encoded -/

/-- The value and the `uint64_t` it is converted to. -/
theorem toInt_eq (value : Int64) :
    value.toInt = if value < 0 then (value.toUInt64.toNat : Int) - 2 ^ 64 else (value.toUInt64.toNat : Int) := by
  have hcond : value.toInt = if 2 * value.toUInt64.toNat < 2 ^ 64 then (value.toUInt64.toNat : Int)
      else (value.toUInt64.toNat : Int) - 2 ^ 64 := BitVec.toInt_eq_toNat_cond value.toBitVec
  have hneg : value < 0 ↔ value.toInt < 0 := Int64.lt_iff_toInt_lt
  have hlt := value.toUInt64.toNat_lt
  rw [hcond] at hneg ⊢
  by_cases h : 2 * value.toUInt64.toNat < 2 ^ 64
  · rw [if_pos h] at hneg ⊢
    rw [if_neg (by rw [hneg]; omega)]
  · rw [if_neg h] at hneg ⊢
    rw [if_pos (by rw [hneg]; omega)]

theorem toUInt64_ne_zero {value : Int64} (h : value ≠ 0) : value.toUInt64.toNat ≠ 0 := by
  intro h0
  apply h
  have hzero : value.toUInt64 = 0 := UInt64.toNat_inj.mp h0
  rw [← Int64.toInt64_toUInt64 value, hzero]
  rfl

/-- A positive value, as it is written. -/
theorem encodeScriptNum_pos {value : Int64} (h0 : value ≠ 0) (hneg : ¬ value < 0) :
    ∃ init last, absBytes 8 value.toUInt64 = init ++ [last] ∧ last.toNat ≠ 0 ∧
      leNat init + 256 ^ init.length * last.toNat = value.toUInt64.toNat ∧
      encodeScriptNum value = if 128 ≤ last.toNat then init ++ [last] ++ [0] else init ++ [last] := by
  obtain ⟨hvalue, -, hlast⟩ := absBytes_eight value.toUInt64
  rcases List.eq_nil_or_concat (absBytes 8 value.toUInt64) with hnil | ⟨init, last, hsplit⟩
  · rw [hnil] at hvalue
    exact absurd hvalue.symm (toUInt64_ne_zero h0)
  rw [List.concat_eq_append] at hsplit
  refine ⟨init, last, hsplit, hlast init last hsplit, ?_, ?_⟩
  · rw [hsplit, leNat_append] at hvalue
    exact hvalue
  · unfold encodeScriptNum
    rw [if_neg h0]
    dsimp only
    rw [hsplit, List.getLastD_concat]
    by_cases hsign : 128 ≤ last.toNat
    · rw [if_pos ((signBit_iff last).mpr hsign), if_pos hsign]
      simp [hneg]
      rfl
    · rw [if_neg ((signBit_iff last).not.mpr hsign), if_neg hsign]
      simp [hneg]

/-- A negative value: eight bytes of the two's complement and a byte for the sign. -/
theorem encodeScriptNum_neg {value : Int64} (hneg : value < 0) :
    ∃ result : Bytes, result.length = 8 ∧ leNat result = value.toUInt64.toNat ∧ encodeScriptNum value = result ++ [0x80] := by
  have h0 : value ≠ 0 := by
    intro h
    rw [h] at hneg
    exact absurd hneg (by decide)
  have hint := toInt_eq value
  rw [if_pos hneg] at hint
  have hlow : -2 ^ 63 ≤ value.toInt := Int64.le_toInt value
  obtain ⟨hvalue, hlen, -⟩ := absBytes_eight value.toUInt64
  rcases List.eq_nil_or_concat (absBytes 8 value.toUInt64) with hnil | ⟨init, last, hsplit⟩
  · rw [hnil] at hvalue
    exact absurd hvalue.symm (toUInt64_ne_zero h0)
  rw [List.concat_eq_append] at hsplit
  have hlen8 : (absBytes 8 value.toUInt64).length = 8 := by
    by_contra hne
    have hlt := leNat_lt (absBytes 8 value.toUInt64)
    have hpow : 256 ^ (absBytes 8 value.toUInt64).length ≤ 256 ^ 7 := Nat.pow_le_pow_right (by decide) (by omega)
    omega
  have hinit : init.length = 7 := by
    rw [hsplit, List.length_append, List.length_singleton] at hlen8
    omega
  have hsign : 128 ≤ last.toNat := by
    have hvalue' := hvalue
    rw [hsplit, leNat_append, hinit] at hvalue'
    have hlt := leNat_lt init
    rw [hinit] at hlt
    have hlast : leNat [last] = last.toNat := rfl
    rw [hlast] at hvalue'
    omega
  refine ⟨absBytes 8 value.toUInt64, hlen8, hvalue, ?_⟩
  unfold encodeScriptNum
  rw [if_neg h0]
  dsimp only
  have hlast : (absBytes 8 value.toUInt64).getLastD 0 = last := by rw [hsplit, List.getLastD_concat]
  rw [hlast, if_pos ((signBit_iff last).mpr hsign)]
  simp [hneg]
  rfl

/-- Decoding gives the value back, and nothing shorter does. -/
def EncodedExactly (value : Int64) : Prop :=
  scriptNumValue (encodeScriptNum value) = value.toInt ∧
    ∀ b : Bytes, scriptNumValue b = value.toInt → (encodeScriptNum value).length ≤ b.length

/-- A string with the value has a byte, and the value fits its magnitude. -/
theorem length_of_value {value : Int64} (h0 : value ≠ 0) {b : Bytes} (hb : scriptNumValue b = value.toInt) :
    ∃ n, b.length = n + 1 ∧ value.toInt.natAbs < 128 * 256 ^ n := by
  cases b with
  | nil =>
    exfalso
    apply h0
    exact Int64.toInt_inj.mp (show value.toInt = Int64.toInt 0 from hb.symm)
  | cons x b => exact ⟨b.length, rfl, hb ▸ scriptNumValue_lt (Nat.le_refl _)⟩

/-- Of the negative values only the smallest is its own two's complement. -/
theorem encodedExactly_neg {value : Int64} (h0 : value ≠ 0) (hneg : value < 0) :
    EncodedExactly value ↔ value = Int64.minValue := by
  obtain ⟨result, hlen, hvalue, hencoded⟩ := encodeScriptNum_neg hneg
  have hint := toInt_eq value
  rw [if_pos hneg] at hint
  have hdecoded : scriptNumValue (encodeScriptNum value) = -(value.toUInt64.toNat : Int) := by
    rw [hencoded, scriptNumValue_concat, if_pos (by decide), hvalue]
    have h128 : (0x80 : UInt8).toNat % 128 = 0 := by decide
    rw [h128, Nat.mul_zero, Nat.add_zero]
  have hmin : value = Int64.minValue ↔ value.toInt = -2 ^ 63 := by
    rw [← Int64.toInt_inj]
    rfl
  unfold EncodedExactly
  rw [hmin, hdecoded]
  constructor
  · intro h
    have := h.1
    omega
  · intro h
    refine ⟨by omega, fun b hb => ?_⟩
    obtain ⟨n, hn, hlt⟩ := length_of_value h0 hb
    rw [hencoded, List.length_append, hlen, hn]
    have hpow : 256 ^ 7 < 256 ^ n := by omega
    have := (Nat.pow_lt_pow_iff_right (by decide)).mp hpow
    show 8 + 1 ≤ n + 1
    omega

theorem encodedExactly_pos {value : Int64} (h0 : value ≠ 0) (hneg : ¬ value < 0) : EncodedExactly value := by
  obtain ⟨init, last, -, hlast, hvalue, hencoded⟩ := encodeScriptNum_pos h0 hneg
  have hint := toInt_eq value
  rw [if_neg hneg] at hint
  have hpos : 0 < 256 ^ init.length := Nat.pow_pos (by decide)
  unfold EncodedExactly
  rw [hencoded]
  by_cases hsign : 128 ≤ last.toNat
  · rw [if_pos hsign]
    constructor
    · rw [scriptNumValue_concat, if_neg (by decide), hint, ← hvalue, leNat_append]
      have hlastNat : leNat [last] = last.toNat := rfl
      have hzero : (0 : UInt8).toNat = 0 := rfl
      rw [hlastNat, hzero, Nat.mul_zero, Nat.add_zero]
    · intro b hb
      obtain ⟨n, hn, hlt⟩ := length_of_value h0 hb
      rw [hint, Int.natAbs_natCast, ← hvalue] at hlt
      have hmul : 256 ^ init.length * 128 ≤ 256 ^ init.length * last.toNat := Nat.mul_le_mul_left _ hsign
      have hpow : 256 ^ init.length < 256 ^ n := by omega
      have := (Nat.pow_lt_pow_iff_right (by decide)).mp hpow
      simp only [List.length_append, List.length_singleton, hn]
      omega
  · rw [if_neg hsign]
    constructor
    · rw [scriptNumValue_concat, if_neg hsign, hint, hvalue]
    · intro b hb
      obtain ⟨n, hn, hlt⟩ := length_of_value h0 hb
      rw [hint, Int.natAbs_natCast, ← hvalue] at hlt
      have hmul : 256 ^ init.length * 1 ≤ 256 ^ init.length * last.toNat := Nat.mul_le_mul_left _ (by omega)
      have hpow : 256 ^ init.length < 256 ^ (n + 1) := by
        rw [Nat.pow_succ]
        omega
      have := (Nat.pow_lt_pow_iff_right (by decide)).mp hpow
      simp only [List.length_append, List.length_singleton, hn]
      omega

theorem encodeScriptNum_iff (value : Int64) : EncodedExactly value ↔ 0 ≤ value ∨ value = Int64.minValue := by
  have hle : 0 ≤ value ↔ ¬ value < 0 := by
    rw [Int64.le_iff_toInt_le, Int64.lt_iff_toInt_lt, Int.not_lt]
  rw [hle]
  by_cases h0 : value = 0
  · rw [h0]
    refine ⟨fun _ => Or.inl (by decide), fun _ => ⟨rfl, fun b _ => Nat.zero_le _⟩⟩
  · by_cases hneg : value < 0
    · rw [encodedExactly_neg h0 hneg, not_not.mpr hneg |> iff_false_intro, false_or]
    · exact iff_of_true (encodedExactly_pos h0 hneg) (.inl hneg)

/-! ## Lock heights -/

def OP_IF : Nat := 0x63
def OP_ELSE : Nat := 0x67
def OP_ENDIF : Nat := 0x68
def OP_DROP : Nat := 0x75
def OP_CHECKLOCKTIMEVERIFY : Nat := 0xb1

/-- `sixMonths`, in blocks. -/
def sixMonths : Nat := 25920

/-- `encodeScriptNum(currentBlockHeight + blocks)`: the sum is a `uint32_t`. -/
def jimmyLock (currentBlockHeight : UInt32) (blocks : Nat) : Data :=
  some (encodeScriptNum (Int64.ofNat (currentBlockHeight + UInt32.ofNat blocks).toNat))

def jimmyScript (jimmyPubKey receiverPubKey : Data) (currentBlockHeight : UInt32) : Bytes :=
  scriptPush (jimmyLock currentBlockHeight sixMonths) ++ uint8D OP_CHECKLOCKTIMEVERIFY ++ uint8D OP_DROP ++
    scriptPush receiverPubKey ++ uint8D OP_CHECKSIG ++ uint8D OP_IF ++ uint8D OP_1 ++ uint8D OP_ELSE ++
    scriptPush (jimmyLock currentBlockHeight (sixMonths * 3)) ++ uint8D OP_CHECKLOCKTIMEVERIFY ++ uint8D OP_DROP ++
    scriptPush jimmyPubKey ++ uint8D OP_CHECKSIG ++ uint8D OP_ENDIF

/-- The numbers in front of the CHECKLOCKTIMEVERIFYs, as the script reads them. -/
def lockHeights : ScriptTokens → List Int
  | token :: next :: tokens =>
    if next.op = OP_CHECKLOCKTIMEVERIFY then scriptNumValue token.data.toBytes :: lockHeights (next :: tokens)
    else lockHeights (next :: tokens)
  | _ => []

section

variable {token next : ScriptToken} {tokens : ScriptTokens}

theorem lockHeights_lock (h : next.op = OP_CHECKLOCKTIMEVERIFY) :
    lockHeights (token :: next :: tokens) = scriptNumValue token.data.toBytes :: lockHeights (next :: tokens) := by
  rw [lockHeights, if_pos h]

theorem lockHeights_other (h : next.op ≠ OP_CHECKLOCKTIMEVERIFY) :
    lockHeights (token :: next :: tokens) = lockHeights (next :: tokens) := by
  rw [lockHeights, if_neg h]

end

/-- What was pushed is the first token, whatever its length. -/
theorem scriptToTokens_scriptPush {d : Data} (h : d.length < 2 ^ 32) (rest : Bytes) :
    ∃ token : ScriptToken, token.op ≤ OP_PUSHDATA4 ∧ token.data.toBytes = d.toBytes ∧
      scriptToTokens (some (scriptPush d ++ rest)) = token :: scriptToTokens (some rest) := by
  by_cases h0 : d.length = 0
  · have hpush : scriptPush d ++ rest = 0 :: rest := by
      rw [scriptPush, h0, toBytes_eq_nil.mpr h0]
      rfl
    refine ⟨opToken 0, by decide, (toBytes_eq_nil.mpr h0).symm, ?_⟩
    rw [hpush]
    exact scriptToTokens_plain (x := 0) (Or.inl rfl) rest
  have hpush := isPushData_scriptPush h rest
  have hsize : readPushData (scriptPush d ++ rest) = (d.length, d.toBytes ++ rest) := (readPush_scriptPush h rest).1
  have hdata : readBytesUnsafe d.length (d.toBytes ++ rest) = (some d.toBytes, rest) := (readPush_scriptPush h rest).2
  obtain ⟨x, b, hsplit⟩ := List.exists_cons_of_ne_nil (l := scriptPush d ++ rest) (by simp [scriptPush_ne_nil])
  rw [hsplit] at hpush hsize ⊢
  have hop : x.toNat ≤ OP_PUSHDATA4 := by
    rw [decide_eq_true h0, isPushData_cons, Bool.and_eq_true] at hpush
    exact of_decide_eq_true hpush.2
  have htoken : (readToken (x :: b)).1.data = some d.toBytes ∧ (readToken (x :: b)).2 = rest := by
    have hwith : (readPushDataWithOp (x :: b)).1.1 = d.length ∧ (readPushDataWithOp (x :: b)).2 = d.toBytes ++ rest := by
      have hrun : readPushData (x :: b) = ((readPushDataWithOp (x :: b)).1.1, (readPushDataWithOp (x :: b)).2) := rfl
      rw [hrun] at hsize
      exact ⟨(Prod.mk.inj hsize).1, (Prod.mk.inj hsize).2⟩
    unfold readToken
    rw [hpush, decide_eq_true h0, if_pos rfl]
    generalize readPushDataWithOp (x :: b) = r at hwith
    obtain ⟨⟨size, op⟩, script⟩ := r
    obtain ⟨rfl, rfl⟩ := hwith
    dsimp only
    rw [hdata]
    exact ⟨rfl, rfl⟩
  refine ⟨(readToken (x :: b)).1, ?_, ?_, ?_⟩
  · rw [readToken_op]
    exact hop
  · rw [htoken.1]
    rfl
  · rw [scriptToTokens_cons, htoken.2]

/-- The height a lock is read as. -/
theorem jimmyLock_value (currentBlockHeight : UInt32) (blocks : Nat) :
    scriptNumValue (jimmyLock currentBlockHeight blocks).toBytes =
      ((currentBlockHeight + UInt32.ofNat blocks).toNat : Int) := by
  have hlt := (currentBlockHeight + UInt32.ofNat blocks).toNat_lt
  unfold jimmyLock
  generalize (currentBlockHeight + UInt32.ofNat blocks).toNat = n at hlt
  have hint : (Int64.ofNat n).toInt = n := by
    rw [Int64.toInt_ofNat_of_lt]
    omega
  have hnonneg : 0 ≤ Int64.ofNat n := by
    rw [Int64.le_iff_toInt_le, hint]
    exact Int.natCast_nonneg n
  exact (((encodeScriptNum_iff _).mpr (Or.inl hnonneg)).1).trans hint

theorem length_encodeScriptNum (value : Int64) : (encodeScriptNum value).length ≤ 9 := by
  by_cases h0 : value = 0
  · rw [h0]
    decide
  by_cases hneg : value < 0
  · obtain ⟨result, hlen, -, hencoded⟩ := encodeScriptNum_neg hneg
    rw [hencoded, List.length_append, hlen]
    decide
  · obtain ⟨init, last, hsplit, -, -, hencoded⟩ := encodeScriptNum_pos h0 hneg
    have hlen := (absBytes_eight value.toUInt64).2.1
    rw [hsplit] at hlen
    rw [hencoded]
    split
    · rw [List.length_append, List.length_singleton]
      omega
    · omega

/-- The two heights as the script reads them. -/
theorem lockHeights_jimmyScript {jimmyPubKey receiverPubKey : Data} (hjimmy : jimmyPubKey.length < 2 ^ 32)
    (hreceiver : receiverPubKey.length < 2 ^ 32) (currentBlockHeight : UInt32) :
    lockHeights (scriptToTokens (some (jimmyScript jimmyPubKey receiverPubKey currentBlockHeight))) =
      [((currentBlockHeight + UInt32.ofNat sixMonths).toNat : Int),
        ((currentBlockHeight + UInt32.ofNat (sixMonths * 3)).toNat : Int)] := by
  have hlock : ∀ blocks, (jimmyLock currentBlockHeight blocks).length < 2 ^ 32 := by
    intro blocks
    have hle : (jimmyLock currentBlockHeight blocks).length ≤ 9 := length_encodeScriptNum _
    omega
  have hop : ∀ {op : Nat} (rest : Bytes), OP_PUSHDATA4 < op → op < 256 →
      scriptToTokens (some (uint8D op ++ rest)) = opToken op :: scriptToTokens (some rest) :=
    fun rest hlow hhigh => scriptToTokens_op hlow hhigh rest
  have hpushOp : ∀ token : ScriptToken, token.op ≤ OP_PUSHDATA4 → token.op ≠ OP_CHECKLOCKTIMEVERIFY := by
    intro token h
    unfold OP_PUSHDATA4 at h
    unfold OP_CHECKLOCKTIMEVERIFY
    omega
  unfold jimmyScript
  simp only [List.append_assoc]
  obtain ⟨first, hfirst, hfirstData, htokens⟩ := scriptToTokens_scriptPush (hlock sixMonths) _
  rw [htokens, hop _ (by decide) (by decide), hop _ (by decide) (by decide)]
  obtain ⟨receiver, hreceiverOp, -, htokens⟩ := scriptToTokens_scriptPush hreceiver _
  rw [htokens, hop _ (by decide) (by decide), hop _ (by decide) (by decide), hop _ (by decide) (by decide),
    hop _ (by decide) (by decide)]
  obtain ⟨second, hsecond, hsecondData, htokens⟩ := scriptToTokens_scriptPush (hlock (sixMonths * 3)) _
  rw [htokens, hop _ (by decide) (by decide), hop _ (by decide) (by decide)]
  obtain ⟨jimmy, hjimmyOp, -, htokens⟩ := scriptToTokens_scriptPush hjimmy _
  rw [htokens, hop _ (by decide) (by decide), ← List.append_nil (uint8D OP_ENDIF), hop _ (by decide) (by decide),
    scriptToTokens_nil]
  rw [lockHeights_lock rfl, lockHeights_other (by decide), lockHeights_other (hpushOp receiver hreceiverOp),
    lockHeights_other (by decide), lockHeights_other (by decide), lockHeights_other (by decide),
    lockHeights_other (by decide), lockHeights_other (hpushOp second hsecond), lockHeights_lock rfl,
    lockHeights_other (by decide), lockHeights_other (hpushOp jimmy hjimmyOp), lockHeights_other (by decide),
    lockHeights_other (by decide), hfirstData, hsecondData, jimmyLock_value, jimmyLock_value]
  rfl

/-- Script numbers decode to what was encoded, and nothing shorter does, unless the value is
    negative and not its own two's complement; the heights of `jimmyScript` are the sums
    as long as the sums fit. -/
theorem scriptNums_iff (value : Int64) (jimmyPubKey receiverPubKey : Data) (currentBlockHeight : UInt32)
    (hjimmy : jimmyPubKey.length < 2 ^ 32) (hreceiver : receiverPubKey.length < 2 ^ 32) :
    (EncodedExactly value ↔ 0 ≤ value ∨ value = Int64.minValue) ∧
      (lockHeights (scriptToTokens (some (jimmyScript jimmyPubKey receiverPubKey currentBlockHeight))) =
          [(currentBlockHeight.toNat + sixMonths : Int), (currentBlockHeight.toNat + 3 * sixMonths : Int)] ↔
        currentBlockHeight.toNat + 3 * sixMonths < 2 ^ 32) := by
  refine ⟨encodeScriptNum_iff value, ?_⟩
  rw [lockHeights_jimmyScript hjimmy hreceiver]
  have hlt := currentBlockHeight.toNat_lt
  have hfirst : (currentBlockHeight + UInt32.ofNat sixMonths).toNat = (currentBlockHeight.toNat + sixMonths) % 2 ^ 32 := by
    rw [UInt32.toNat_add]
    rfl
  have hsecond : (currentBlockHeight + UInt32.ofNat (sixMonths * 3)).toNat =
      (currentBlockHeight.toNat + sixMonths * 3) % 2 ^ 32 := by
    rw [UInt32.toNat_add]
    rfl
  rw [hfirst, hsecond, List.cons.injEq, List.cons.injEq]
  unfold sixMonths
  constructor
  · intro ⟨_, h, _⟩
    omega
  · intro h
    exact ⟨by omega, by omega, rfl⟩

/-- The heights of block 620560. -/
theorem scriptNums_at_620560 :
    EncodedExactly 128 ∧
      lockHeights (scriptToTokens (some (jimmyScript (someKey 1) (someKey 2) 620560))) =
        [((620560 : UInt32).toNat + sixMonths : Int), ((620560 : UInt32).toNat + 3 * sixMonths : Int)] := by
  obtain ⟨hvalue, hheights⟩ := scriptNums_iff 128 (someKey 1) (someKey 2) 620560 (by decide) (by decide)
  exact ⟨hvalue.mpr (Or.inl (by decide)), hheights.mpr (by decide)⟩

/-- The number -1 is written as eight bytes and a sign. -/
theorem not_scriptNums : ¬ ∀ value : Int64, EncodedExactly value := by
  intro h
  have hvalue := (h (-1)).1
  revert hvalue
  decide

end BitcoinSpoon
