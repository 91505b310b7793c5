/-
  BitcoinSpoon.Address.Distance — how far two Bech32 texts are apart
  (`libraries/segwit_addr/segwit_addr.c`).

  The symbols of a text are elements of a field of 32, and the shift register respects its
  multiplication (`polyStep_scale`). A difference that leaves no trace is then a linear
  relation between the traces of single symbols; up to a factor each of these is one point
  (`key_smul`), and `points_apart` has checked that no three of them are on a line. So two
  addresses that are both accepted differ in at least five characters, and not within six in
  a row (`segwit_apart`).
-/

import BitcoinSpoon.Address.Segwit

namespace BitcoinSpoon

open Wire Loop Bech32

namespace Segwit

/-! ## Symbols as field elements -/

/-- Every symbol times the generator, of which the fifth power is its third and one. -/
def scale (x : Nat) : Nat :=
  -- the operations go by their names here, `points_apart` computes faster with them
  (((x.land 0x1EF7BDEF).shiftLeft 1).xor ((x.shiftRight 4).land 0x02108421)).xor (((x.shiftRight 4).land 0x02108421).shiftLeft 3)

/-- `x` or nothing, by a bit of `c`. -/
def part (c t x : Nat) : Nat := ((c.shiftRight t).land 1).mul x

/-- Every symbol times `c`. -/
def smul (c x : Nat) : Nat :=
  ((((part c 0 x).xor (part c 1 (scale x))).xor (part c 2 (scale (scale x)))).xor (part c 3 (scale (scale (scale x))))).xor
    (part c 4 (scale (scale (scale (scale x)))))

theorem smul_eq (c x : Nat) : smul c x = part c 0 x ^^^ part c 1 (scale x) ^^^ part c 2 (scale (scale x)) ^^^
    part c 3 (scale (scale (scale x))) ^^^ part c 4 (scale (scale (scale (scale x)))) := rfl

theorem xorLinear_scale : XorLinear scale :=
  (((xorLinear_shiftLeft 1).comp (xorLinear_and _)).xor ((xorLinear_and _).comp (xorLinear_shiftRight 4))).xor
    ((xorLinear_shiftLeft 3).comp ((xorLinear_and _).comp (xorLinear_shiftRight 4)))

theorem part_eq (c t x : Nat) : part c t x = if c.testBit t then x else 0 := by
  show ((c >>> t) &&& 1) * x = _
  rw [Nat.and_one_is_mod, Nat.shiftRight_eq_div_pow, Nat.testBit_eq_decide_div_mod_eq]
  rcases Nat.mod_two_eq_zero_or_one (c / 2 ^ t) with h | h
  · simp [h]
  · simp [h]

theorem xorLinear_part {f : Nat → Nat} (hf : XorLinear f) (c t : Nat) : XorLinear fun x => part c t (f x) := by
  intro x y
  simp only [part_eq, hf x y]
  split
  · rfl
  · rfl

theorem part_xor (c d t x : Nat) : part (c ^^^ d) t x = part c t x ^^^ part d t x := by
  simp only [part_eq, Nat.testBit_xor]
  cases c.testBit t <;> cases d.testBit t <;> simp

theorem map_part {f : Nat → Nat} (hf : XorLinear f) (c t x : Nat) : f (part c t x) = part c t (f x) := by
  simp only [part_eq]
  split
  · rfl
  · exact hf.zero

theorem xorLinear_smul (c : Nat) : XorLinear (smul c) := by
  have h1 := xorLinear_scale
  have h2 := h1.comp h1
  have h3 := h1.comp h2
  have h4 := h1.comp h3
  exact ((((xorLinear_part xorLinear_id c 0).xor (xorLinear_part h1 c 1)).xor (xorLinear_part h2 c 2)).xor
    (xorLinear_part h3 c 3)).xor (xorLinear_part h4 c 4)

theorem smul_xor (c d x : Nat) : smul (c ^^^ d) x = smul c x ^^^ smul d x := by
  simp only [smul_eq, part_xor]
  ac_rfl

/-- A linear map that respects the generator respects every factor. -/
theorem map_smul {f : Nat → Nat} {m : Nat} (hf : XorLinear f) (hscale : ∀ x < 2 ^ m, f (scale x) = scale (f x))
    (hlt : ∀ x < 2 ^ m, scale x < 2 ^ m) {x : Nat} (hx : x < 2 ^ m) (c : Nat) : f (smul c x) = smul c (f x) := by
  have h1 := hlt x hx
  have h2 := hlt _ h1
  have h3 := hlt _ h2
  rw [smul_eq, smul_eq]
  rw [hf, hf, hf, hf, map_part hf, map_part hf, map_part hf, map_part hf, map_part hf, hscale _ h3, hscale _ h2, hscale _ h1,
    hscale _ hx]

theorem scale_lt : ∀ x < 2 ^ 25, scale x < 2 ^ 25 := xorLinear_scale.lt (by decide)

theorem scale_lt_register : ∀ x < 2 ^ 30, scale x < 2 ^ 30 := xorLinear_scale.lt (by decide)

theorem smul_zero (c : Nat) : smul c 0 = 0 := (xorLinear_smul c).zero

theorem zero_smul (x : Nat) : smul 0 x = 0 := by simp [smul, part]

theorem one_smul (x : Nat) : smul 1 x = x := by simp [smul, part]

theorem xorLinear_smul_left (x : Nat) : XorLinear fun c => smul c x := fun c d => smul_xor c d x

/-- The generator times a factor. -/
theorem scale_smul_left {c x : Nat} (hc : c < 2 ^ 5) (hx : x < 2 ^ 25) : smul (scale c) x = scale (smul c x) := by
  have hbasis : ∀ t < 5, ∀ i < 25, smul (scale (2 ^ t)) (2 ^ i) = scale (smul (2 ^ t) (2 ^ i)) := by decide
  have hfactor : ∀ t < 5, smul (scale (2 ^ t)) x = scale (smul (2 ^ t) x) := fun t ht =>
    (xorLinear_smul _).ext (xorLinear_scale.comp (xorLinear_smul _)) (hbasis t ht) x hx
  exact ((xorLinear_smul_left x).comp xorLinear_scale).ext (xorLinear_scale.comp (xorLinear_smul_left x)) hfactor c hc

theorem scale_smul {c x : Nat} (hx : x < 2 ^ 25) : scale (smul c x) = smul c (scale x) :=
  map_smul xorLinear_scale (fun _ _ => rfl) scale_lt hx c

theorem iterate_lt (k : Nat) {x : Nat} (hx : x < 2 ^ 25) : scale^[k] x < 2 ^ 25 := by
  induction k with
  | zero => exact hx
  | succ k ih =>
    rw [Function.iterate_succ_apply']
    exact scale_lt _ ih

/-- Every factor but 0 is a power of the generator. -/
theorem exists_power : ∀ c < 32, c ≠ 0 → ∃ k < 31, scale^[k] 1 = c := by decide

theorem power_lt (k : Nat) : scale^[k] 1 < 2 ^ 5 := by
  have hlt : ∀ x < 2 ^ 5, scale x < 2 ^ 5 := xorLinear_scale.lt (by decide)
  induction k with
  | zero => decide
  | succ k ih =>
    rw [Function.iterate_succ_apply']
    exact hlt _ ih

theorem smul_power (k : Nat) {x : Nat} (hx : x < 2 ^ 25) : smul (scale^[k] 1) x = scale^[k] x := by
  induction k with
  | zero => exact one_smul x
  | succ k ih => rw [Function.iterate_succ_apply', Function.iterate_succ_apply', scale_smul_left (power_lt k) hx, ih]

theorem iterate_order {x : Nat} (hx : x < 2 ^ 25) : scale^[31] x = x :=
  (xorLinear_scale.iterate 31).ext xorLinear_id (by decide +kernel) x hx

/-! ## Points -/

def sym (v p : Nat) : Nat := (v.shiftRight (Nat.mul 5 p)).land 31

/-- The highest symbol that is not 0. -/
def pivot (v : Nat) : Nat :=
  if sym v 4 ≠ 0 then 4 else if sym v 3 ≠ 0 then 3 else if sym v 2 ≠ 0 then 2 else if sym v 1 ≠ 0 then 1 else 0

/-- The inverses, from 0 on, five bits each. -/
def inv (l : Nat) : Nat := (Nat.shiftRight 0x7ecedf3aa39c322bc656feb8649165eb10ac5020 (Nat.mul 5 l)).land 31

/-- The multiple whose pivot is 1. -/
def key (v : Nat) : Nat := smul (inv (sym v (pivot v))) v

/-- The point without its part along `u`. -/
def proj (u v : Nat) : Nat := v.xor (smul (sym v (pivot u)) u)

theorem xorLinear_sym (p : Nat) : XorLinear fun v => sym v p := (xorLinear_and 31).comp (xorLinear_shiftRight (5 * p))

theorem sym_lt (v p : Nat) : sym v p < 2 ^ 5 := Nat.lt_of_le_of_lt Nat.and_le_right (by decide)

theorem sym_scale {v p : Nat} (hp : p < 5) (hv : v < 2 ^ 25) : sym (scale v) p = scale (sym v p) := by
  have hbasis : ∀ p < 5, ∀ i < 25, sym (scale (2 ^ i)) p = scale (sym (2 ^ i) p) := by decide
  exact ((xorLinear_sym p).comp xorLinear_scale).ext (xorLinear_scale.comp (xorLinear_sym p)) (hbasis p hp) v hv

theorem scale_eq_zero : ∀ c < 32, scale c = 0 ↔ c = 0 := by decide

theorem pivot_lt (v : Nat) : pivot v < 5 := by
  unfold pivot
  split
  · decide
  split
  · decide
  split
  · decide
  split
  · decide
  · decide

theorem pivot_scale {v : Nat} (hv : v < 2 ^ 25) : pivot (scale v) = pivot v := by
  have hzero : ∀ p < 5, sym (scale v) p = 0 ↔ sym v p = 0 := by
    intro p hp
    rw [sym_scale hp hv]
    exact scale_eq_zero _ (sym_lt v p)
  unfold pivot
  simp only [ne_eq, hzero 4 (by decide), hzero 3 (by decide), hzero 2 (by decide), hzero 1 (by decide)]

theorem inv_scale : ∀ l < 32, inv (scale l) < 32 ∧ scale (inv (scale l)) = inv l := by decide

theorem inv_lt (l : Nat) : inv l < 2 ^ 5 := Nat.lt_of_le_of_lt Nat.and_le_right (by decide)

/-- A factor is not seen in the point. -/
theorem key_scale {v : Nat} (hv : v < 2 ^ 25) : key (scale v) = key v := by
  obtain ⟨hlt, hinv⟩ := inv_scale (sym v (pivot v)) (sym_lt v (pivot v))
  unfold key
  rw [pivot_scale hv, sym_scale (pivot_lt v) hv, ← scale_smul hv, ← scale_smul_left hlt hv, hinv]

theorem key_iterate (k : Nat) {v : Nat} (hv : v < 2 ^ 25) : key (scale^[k] v) = key v := by
  induction k with
  | zero => rfl
  | succ k ih => rw [Function.iterate_succ_apply', key_scale (iterate_lt k hv), ih]

theorem key_smul {c v : Nat} (hc : c < 32) (hne : c ≠ 0) (hv : v < 2 ^ 25) : key (smul c v) = key v := by
  obtain ⟨k, -, rfl⟩ := exists_power c hc hne
  rw [smul_power k hv, key_iterate k hv]

/-- What has a point is a multiple of it. -/
theorem exists_multiple {v : Nat} (hv : v < 2 ^ 25) (hne : key v ≠ 0) : ∃ k, scale^[k] (key v) = v := by
  unfold key at hne ⊢
  have hinv : inv (sym v (pivot v)) ≠ 0 := by
    intro hzero
    rw [hzero, zero_smul] at hne
    exact hne rfl
  obtain ⟨k, hk, hpower⟩ := exists_power _ (inv_lt _) hinv
  refine ⟨31 - k, ?_⟩
  rw [← hpower, smul_power k hv, ← Function.iterate_add_apply, Nat.sub_add_cancel (by omega), iterate_order hv]

theorem smul_lt {m : Nat} (hlt : ∀ x < 2 ^ m, scale x < 2 ^ m) (c : Nat) {x : Nat} (hx : x < 2 ^ m) : smul c x < 2 ^ m := by
  have hpart : ∀ t y, y < 2 ^ m → part c t y < 2 ^ m := by
    intro t y hy
    rw [part_eq]
    split
    · exact hy
    · exact Nat.two_pow_pos m
  have h1 := hlt x hx
  have h2 := hlt _ h1
  have h3 := hlt _ h2
  exact Nat.xor_lt_two_pow (Nat.xor_lt_two_pow (Nat.xor_lt_two_pow (Nat.xor_lt_two_pow (hpart 0 x hx) (hpart 1 _ h1))
    (hpart 2 _ h2)) (hpart 3 _ h3)) (hpart 4 _ (hlt _ h3))

theorem xorLinear_proj (u : Nat) : XorLinear (proj u) :=
  xorLinear_id.xor ((xorLinear_smul_left u).comp (xorLinear_sym (pivot u)))

theorem proj_lt {u v : Nat} (hu : u < 2 ^ 25) (hv : v < 2 ^ 25) : proj u v < 2 ^ 25 := Nat.xor_lt_two_pow hv (smul_lt scale_lt _ hu)

theorem proj_scale {u v : Nat} (hu : u < 2 ^ 25) (hv : v < 2 ^ 25) : proj u (scale v) = scale (proj u v) := by
  unfold proj
  rw [sym_scale (pivot_lt u) hv, scale_smul_left (sym_lt v _) hu]
  exact (xorLinear_scale _ _).symm

theorem proj_iterate {u v : Nat} (hu : u < 2 ^ 25) (hv : v < 2 ^ 25) (k : Nat) : proj u (scale^[k] v) = scale^[k] (proj u v) := by
  induction k with
  | zero => rfl
  | succ k ih => rw [Function.iterate_succ_apply', Function.iterate_succ_apply', proj_scale hu (iterate_lt k hv), ih]

theorem proj_self {u : Nat} (hpivot : sym u (pivot u) = 1) : proj u u = 0 := by
  unfold proj
  rw [hpivot, one_smul]
  exact Nat.xor_self u

/-- Points in line with `u` are one point seen from it. -/
theorem key_proj_of_line {u v w a b c : Nat} (hu : u < 2 ^ 25) (hv : v < 2 ^ 25) (hw : w < 2 ^ 25) (hpivot : sym u (pivot u) = 1)
    {i j k : Nat} (ha : a < 32) (hane : a ≠ 0) (hb : b < 32) (hbne : b ≠ 0)
    (hline : smul a (scale^[i] v) ^^^ smul b (scale^[j] w) ^^^ smul c (scale^[k] u) = 0) : key (proj u v) = key (proj u w) := by
  have hproj := congrArg (proj u) hline
  have hmultiple : ∀ (d n : Nat) {x : Nat}, x < 2 ^ 25 → proj u (smul d (scale^[n] x)) = smul d (scale^[n] (proj u x)) := by
    intro d n x hx
    rw [map_smul (xorLinear_proj u) (fun y hy => proj_scale hu hy) scale_lt (iterate_lt n hx), proj_iterate hu hx]
  rw [xorLinear_proj u, xorLinear_proj u, hmultiple a i hv, hmultiple b j hw, hmultiple c k hu, proj_self hpivot,
    (xorLinear_scale.iterate k).zero, smul_zero, Nat.xor_zero, (xorLinear_proj u).zero] at hproj
  have hsame := Nat.xor_eq_zero_iff.mp hproj
  have hkey := congrArg key hsame
  rw [key_smul ha hane (iterate_lt i (proj_lt hu hv)), key_smul hb hbne (iterate_lt j (proj_lt hu hw)),
    key_iterate i (proj_lt hu hv), key_iterate j (proj_lt hu hw)] at hkey
  exact hkey

/-! ## The points of the register -/

/-- No two of the numbers are the same, as they are not up to multiples of 8939. -/
def distinct : Nat → List Nat → Bool
  | _, [] => true
  | seen, v :: vs => !(seen.testBit (v % 8939)) && distinct (seen ||| 1 <<< (v % 8939)) vs

theorem distinct_sound {vs : List Nat} : ∀ {seen : Nat}, distinct seen vs = true →
    (∀ v ∈ vs, seen.testBit (v % 8939) = false) ∧ vs.Pairwise (· ≠ ·) := by
  induction vs with
  | nil =>
    intro seen _
    simp
  | cons v vs ih =>
    intro seen h
    simp only [distinct, Bool.and_eq_true, Bool.not_eq_eq_eq_not, Bool.not_true] at h
    obtain ⟨hv, hrest⟩ := h
    obtain ⟨hseen, hpairs⟩ := ih hrest
    have hbits : ∀ w ∈ vs, seen.testBit (w % 8939) = false ∧ w % 8939 ≠ v % 8939 := by
      intro w hw
      have hbit := hseen w hw
      rw [Nat.testBit_or, Bool.or_eq_false_iff] at hbit
      refine ⟨hbit.1, ?_⟩
      intro heq
      rw [heq] at hbit
      simp at hbit
    constructor
    · intro w hw
      rcases List.mem_cons.mp hw with rfl | hw
      · exact hv
      · exact (hbits w hw).1
    · refine List.pairwise_cons.mpr ⟨?_, hpairs⟩
      rintro w hw rfl
      exact (hbits _ hw).2 rfl

/-- Seen from each of the points, the points behind it are apart. -/
def check : List Nat → Bool
  | [] => true
  | u :: us => sym u (pivot u) == 1 && distinct 0 (us.map fun v => key (proj u v)) && check us

theorem check_sound {us : List Nat} (h : check us = true) :
    ∀ {i j k : Nat} (hij : i < j) (hjk : j < k) (hk : k < us.length),
      sym us[i] (pivot us[i]) = 1 ∧ key (proj us[i] us[k]) ≠ key (proj us[i] us[j]) := by
  induction us with
  | nil =>
    intro i j k hij hjk hk
    simp at hk
  | cons u us ih =>
    intro i j k hij hjk hk
    simp only [check, Bool.and_eq_true, beq_iff_eq] at h
    obtain ⟨⟨hpivot, hdistinct⟩, hrest⟩ := h
    obtain ⟨j, rfl⟩ : ∃ n, j = n + 1 := ⟨j - 1, by omega⟩
    obtain ⟨k, rfl⟩ : ∃ n, k = n + 1 := ⟨k - 1, by omega⟩
    rw [List.length_cons] at hk
    rcases i with - | i
    · refine ⟨hpivot, ?_⟩
      have hpairs := List.pairwise_iff_getElem.mp (distinct_sound hdistinct).2 j k (by rw [List.length_map]; omega)
        (by rw [List.length_map]; omega) (by omega)
      rw [List.getElem_map, List.getElem_map] at hpairs
      exact hpairs.symm
    · exact ih hrest (by omega) (by omega) (by omega)

theorem check_pivot {us : List Nat} (h : check us = true) : ∀ u ∈ us, sym u (pivot u) = 1 := by
  induction us with
  | nil => simp
  | cons u us ih =>
    simp only [check, Bool.and_eq_true, beq_iff_eq] at h
    intro v hv
    rcases List.mem_cons.mp hv with rfl | hv
    · exact h.1.1
    · exact ih h.2 v hv

def polyStep (x : Nat) : Nat := (bech32_polymod_step (BitVec.ofNat 32 x)).toNat

/-- What a symbol 1 leaves, `a` symbols later. -/
def power (a : Nat) : Nat := polyStep^[a] 1

def point (a : Nat) : Nat := key (power a >>> 5)

/-- The next `n` points. -/
def points : Nat → Nat → List Nat
  | 0, _ => []
  | n + 1, x => key (polyStep x >>> 5) :: points n (polyStep x)

theorem xorLinear_polyStep : XorLinear polyStep := by
  intro x y
  unfold polyStep
  have hxor : BitVec.ofNat 32 (x ^^^ y) = BitVec.ofNat 32 x ^^^ BitVec.ofNat 32 y := by
    apply BitVec.eq_of_toNat_eq
    rw [BitVec.toNat_xor, BitVec.toNat_ofNat, BitVec.toNat_ofNat, BitVec.toNat_ofNat, Nat.xor_mod_two_pow]
  rw [hxor, polymod_step_xor, BitVec.toNat_xor]

theorem polyStep_lt (x : Nat) : polyStep x < 2 ^ 30 := isRegister_polymod.lt _

theorem polyStep_scale : ∀ x < 2 ^ 30, polyStep (scale x) = scale (polyStep x) :=
  (xorLinear_polyStep.comp xorLinear_scale).ext (xorLinear_scale.comp xorLinear_polyStep) (by decide)

theorem polyStep_injective {x : Nat} (hx : x < 2 ^ 30) (hzero : polyStep x = 0) : x = 0 := by
  have hvec := isRegister_polymod.injective (BitVec.ofNat 32 x) (by rw [BitVec.toNat_ofNat]; omega)
    (BitVec.eq_of_toNat_eq hzero)
  have := congrArg BitVec.toNat hvec
  rw [BitVec.toNat_ofNat] at this
  simp at this
  omega

theorem iterate_polyStep_lt (n : Nat) {x : Nat} (hx : x < 2 ^ 30) : polyStep^[n] x < 2 ^ 30 := by
  induction n with
  | zero => exact hx
  | succ n ih =>
    rw [Function.iterate_succ_apply']
    exact polyStep_lt _

theorem iterate_polyStep_scale (n : Nat) : ∀ x < 2 ^ 30, polyStep^[n] (scale x) = scale (polyStep^[n] x) := by
  intro x hx
  induction n with
  | zero => rfl
  | succ n ih =>
    rw [Function.iterate_succ_apply', Function.iterate_succ_apply', ih, polyStep_scale _ (iterate_polyStep_lt n hx)]

theorem iterate_polyStep_injective (n : Nat) {x : Nat} (hx : x < 2 ^ 30) (hzero : polyStep^[n] x = 0) : x = 0 := by
  induction n with
  | zero => exact hzero
  | succ n ih =>
    rw [Function.iterate_succ_apply'] at hzero
    exact ih (polyStep_injective (iterate_polyStep_lt n hx) hzero)

/-- A symbol leaves so many times what 1 leaves. -/
theorem iterate_symbol (n k : Nat) (c : Nat) : polyStep^[n] (smul c (power k)) = smul c (power (n + k)) := by
  unfold power
  rw [map_smul (xorLinear_polyStep.iterate n) (iterate_polyStep_scale n) scale_lt_register (iterate_polyStep_lt k (by decide)),
    Function.iterate_add_apply]

theorem smul_power_zero : ∀ c < 32, smul c (power 0) = c := by decide

theorem high_smul (c a : Nat) : smul c (power a) >>> 5 = smul c (power a >>> 5) := by
  have hscale : ∀ x < 2 ^ 30, scale x >>> 5 = scale (x >>> 5) :=
    ((xorLinear_shiftRight 5).comp xorLinear_scale).ext (xorLinear_scale.comp (xorLinear_shiftRight 5)) (by decide)
  exact map_smul (xorLinear_shiftRight 5) hscale scale_lt_register (iterate_polyStep_lt a (by decide)) c

theorem high_lt (a : Nat) : power a >>> 5 < 2 ^ 25 := by
  have h := iterate_polyStep_lt a (x := 1) (by decide)
  unfold power
  rw [Nat.shiftRight_eq_div_pow]
  omega

theorem points_get {n : Nat} : ∀ {a x : Nat}, x = power a → (points n x).length = n ∧
    ∀ i (hi : i < (points n x).length), (points n x)[i] = point (a + i + 1) := by
  induction n with
  | zero =>
    intro a x _
    exact ⟨rfl, fun i hi => absurd hi (by simp [points])⟩
  | succ n ih =>
    intro a x hx
    have hnext : polyStep x = power (a + 1) := by
      rw [hx]
      exact (Function.iterate_succ_apply' polyStep a 1).symm
    obtain ⟨hlength, hget⟩ := ih hnext
    refine ⟨by simp [points, hlength], ?_⟩
    intro i hi
    rcases i with - | i
    · simp only [points, List.getElem_cons_zero, hnext]
      rfl
    · simp only [points, List.length_cons] at hi
      simp only [points, List.getElem_cons_succ]
      rw [hget i (by omega)]
      congr 1
      omega

theorem point_get {a : Nat} (hpos : 0 < a) (ha : a ≤ 87) (h : a - 1 < (points 87 1).length) : (points 87 1)[a - 1] = point a := by
  rw [(points_get (n := 87) (a := 0) (x := 1) rfl).2 (a - 1) h]
  congr 1
  omega

theorem points_length : (points 87 1).length = 87 := (points_get (n := 87) (a := 0) (x := 1) rfl).1

theorem points_apart : check (points 87 1) = true ∧ distinct 0 (points 87 1) = true := by decide +kernel

/-! ## Four symbols leave a trace -/

section Traces

variable {a b c : Nat}

theorem point_pivot (hpos : 0 < a) (ha : a ≤ 87) : sym (point a) (pivot (point a)) = 1 := by
  have hlength := points_length
  rw [← point_get hpos ha (by omega)]
  exact check_pivot points_apart.1 _ (List.getElem_mem _)

theorem point_ne_zero (hpos : 0 < a) (ha : a ≤ 87) : point a ≠ 0 := by
  intro hzero
  have h := point_pivot hpos ha
  rw [hzero] at h
  exact absurd h (by decide)

theorem point_ne (hpos : 0 < b) (hba : b < a) (ha : a ≤ 87) : point b ≠ point a := by
  have hlength := points_length
  rw [← point_get hpos (by omega) (by omega), ← point_get (by omega) ha (by omega)]
  exact List.pairwise_iff_getElem.mp (distinct_sound points_apart.2).2 (b - 1) (a - 1) _ _ (by omega)

theorem proj_ne (hc : 0 < c) (hcb : c < b) (hba : b < a) (ha : a ≤ 87) :
    key (proj (point c) (point a)) ≠ key (proj (point c) (point b)) := by
  have hlength := points_length
  rw [← point_get hc (by omega) (by omega), ← point_get (by omega) (by omega : b ≤ 87) (by omega),
    ← point_get (by omega) ha (by omega)]
  exact (check_sound points_apart.1 (by omega) (by omega) (by omega)).2

theorem key_high {e : Nat} (he : e < 32) (hne : e ≠ 0) : key (smul e (power a >>> 5)) = point a := key_smul he hne (high_lt a)

theorem high_symbol {e : Nat} (he : e < 32) : e >>> 5 = 0 := by
  rw [Nat.shiftRight_eq_div_pow]
  omega

theorem trace_two {d e : Nat} (hpos : 0 < a) (ha : a ≤ 87) (hd : d < 32) (hdne : d ≠ 0) (he : e < 32) :
    smul d (power a) ^^^ e ≠ 0 := by
  intro hzero
  have hhigh := congrArg (· >>> 5) hzero
  simp only [Nat.shiftRight_xor_distrib, high_smul, high_symbol he, Nat.xor_zero] at hhigh
  have hkey := key_high (a := a) hd hdne
  rw [hhigh] at hkey
  exact point_ne_zero hpos ha hkey.symm

theorem trace_three {d e f : Nat} (hpos : 0 < b) (hba : b < a) (ha : a ≤ 87) (hd : d < 32) (hdne : d ≠ 0) (he : e < 32)
    (hene : e ≠ 0) (hf : f < 32) : smul d (power a) ^^^ smul e (power b) ^^^ f ≠ 0 := by
  intro hzero
  have hhigh := congrArg (· >>> 5) hzero
  simp only [Nat.shiftRight_xor_distrib, high_smul, high_symbol hf, Nat.xor_zero] at hhigh
  have hsame := Nat.xor_eq_zero_iff.mp hhigh
  have hkey := congrArg key hsame
  rw [key_high hd hdne, key_high he hene] at hkey
  exact point_ne hpos hba ha hkey.symm

theorem trace_four {d e f g : Nat} (hc : 0 < c) (hcb : c < b) (hba : b < a) (ha : a ≤ 87) (hd : d < 32) (hdne : d ≠ 0)
    (he : e < 32) (hene : e ≠ 0) (hg : g < 32) :
    smul d (power a) ^^^ smul e (power b) ^^^ smul f (power c) ^^^ g ≠ 0 := by
  intro hzero
  have hhigh := congrArg (· >>> 5) hzero
  simp only [Nat.shiftRight_xor_distrib, high_smul, high_symbol hg, Nat.xor_zero] at hhigh
  have hmultiple : ∀ {n : Nat}, 0 < n → n ≤ 87 → ∃ k, scale^[k] (point n) = power n >>> 5 := fun hpos hn =>
    exists_multiple (high_lt _) (point_ne_zero hpos hn)
  obtain ⟨i, hi⟩ := hmultiple (n := a) (by omega) ha
  obtain ⟨j, hj⟩ := hmultiple (n := b) (by omega) (by omega)
  obtain ⟨k, hk⟩ := hmultiple hc (by omega)
  have hpoint : ∀ n, point n < 2 ^ 25 := fun n => smul_lt scale_lt _ (high_lt n)
  rw [← hi, ← hj, ← hk] at hhigh
  exact proj_ne hc hcb hba ha (key_proj_of_line (hpoint c) (hpoint a) (hpoint b) (point_pivot hc (by omega)) hd hdne he hene hhigh)

end Traces

/-! ## The trace of a difference -/

/-- The symbols that are not 0, and how many come behind each of them. -/
def terms : List Nat → List (Nat × Nat)
  | [] => []
  | v :: vs => if v = 0 then terms vs else (vs.length, v) :: terms vs

def trace (ts : List (Nat × Nat)) : Nat := ts.foldr (fun t rest => smul t.2 (power t.1) ^^^ rest) 0

theorem terms_length (vs : List Nat) : (terms vs).length = vs.countP (· != 0) := by
  induction vs with
  | nil => rfl
  | cons v vs ih =>
    unfold terms
    split
    · rename_i hzero
      rw [ih, List.countP_cons_of_neg (by simpa using hzero)]
    · rename_i hne
      rw [List.length_cons, ih, List.countP_cons_of_pos (by simpa using hne)]

theorem terms_mem {vs : List Nat} : ∀ t ∈ terms vs, t.1 < vs.length ∧ t.2 ∈ vs ∧ t.2 ≠ 0 := by
  induction vs with
  | nil => simp [terms]
  | cons v vs ih =>
    intro t ht
    have hmore : ∀ t ∈ terms vs, t.1 < (v :: vs).length ∧ t.2 ∈ v :: vs ∧ t.2 ≠ 0 := by
      intro t ht
      obtain ⟨hlt, hmem, hne⟩ := ih t ht
      exact ⟨Nat.lt_succ_of_lt hlt, List.mem_cons_of_mem _ hmem, hne⟩
    unfold terms at ht
    split at ht
    · exact hmore t ht
    · rename_i hne
      rcases List.mem_cons.mp ht with rfl | ht
      · exact ⟨Nat.lt_succ_self _, List.mem_cons_self, hne⟩
      · exact hmore t ht

theorem terms_pairwise (vs : List Nat) : (terms vs).Pairwise fun t u => u.1 < t.1 := by
  induction vs with
  | nil => exact List.Pairwise.nil
  | cons v vs ih =>
    unfold terms
    split
    · exact ih
    · exact List.pairwise_cons.mpr ⟨fun t ht => (terms_mem t ht).1, ih⟩

theorem terms_nil {vs : List Nat} (h : terms vs = []) : ∀ v ∈ vs, v = 0 := by
  have hcount := terms_length vs
  rw [h, List.length_nil] at hcount
  intro v hv
  simpa using List.countP_eq_zero.mp hcount.symm v hv

theorem feed_zeros_toNat (n : Nat) (s : BitVec 32) :
    (feed bech32_polymod_step s (List.replicate n 0#32)).toNat = polyStep^[n] s.toNat := by
  induction n generalizing s with
  | zero => rfl
  | succ n ih =>
    rw [List.replicate_succ, Function.iterate_succ_apply]
    have h := ih (bech32_polymod_step s)
    rw [show (bech32_polymod_step s).toNat = polyStep s.toNat by rw [polyStep, BitVec.ofNat_toNat, BitVec.setWidth_eq]] at h
    rw [← h, ← BitVec.xor_zero (x := bech32_polymod_step s)]
    rfl

theorem polymod_terms {vs : List Nat} (hvs : ∀ v ∈ vs, v < 32) : (polymod 0#32 vs).toNat = trace (terms vs) := by
  induction vs with
  | nil => rfl
  | cons v vs ih =>
    have hv := hvs v List.mem_cons_self
    have hstart : polymod 0#32 (v :: vs) = polymod (BitVec.ofNat 32 v) vs := by
      show feed bech32_polymod_step (bech32_polymod_step 0#32 ^^^ BitVec.ofNat 32 v) _ = _
      rw [step_zero polymod_step_xor, BitVec.zero_xor]
      rfl
    have hsplit := feed_split polymod_step_xor (BitVec.ofNat 32 v) (vs.map (BitVec.ofNat 32))
    have htoNat : (BitVec.ofNat 32 v).toNat = v := by
      rw [BitVec.toNat_ofNat]
      omega
    have hsymbol : polyStep^[vs.length] v = smul v (power vs.length) := by
      have h := iterate_symbol vs.length 0 v
      rw [smul_power_zero v hv] at h
      exact h
    rw [hstart, polymod, hsplit, BitVec.toNat_xor, List.length_map, feed_zeros_toNat, htoNat, hsymbol]
    change smul v (power vs.length) ^^^ (polymod 0#32 vs).toNat = _
    rw [ih fun u hu => hvs u (List.mem_cons_of_mem _ hu), terms]
    split
    · rename_i hzero
      rw [hzero, zero_smul, Nat.zero_xor]
    · rfl

theorem trace_shift (ts : List (Nat × Nat)) {n : Nat} (h : ∀ t ∈ ts, n ≤ t.1) :
    trace ts = polyStep^[n] (trace (ts.map fun t => (t.1 - n, t.2))) ∧ trace (ts.map fun t => (t.1 - n, t.2)) < 2 ^ 30 := by
  induction ts with
  | nil => exact ⟨((xorLinear_polyStep.iterate n).zero).symm, Nat.two_pow_pos 30⟩
  | cons t ts ih =>
    obtain ⟨heq, hlt⟩ := ih fun u hu => h u (List.mem_cons_of_mem _ hu)
    have ht := h t List.mem_cons_self
    constructor
    · show smul t.2 (power t.1) ^^^ trace ts = polyStep^[n] (smul t.2 (power (t.1 - n)) ^^^ trace _)
      rw [xorLinear_polyStep.iterate n, iterate_symbol, Nat.add_sub_cancel' ht, ← heq]
    · exact Nat.xor_lt_two_pow (smul_lt scale_lt_register _ (iterate_polyStep_lt _ (by decide))) hlt

/-- Up to four symbols leave a trace; the last of them is moved to the end. -/
theorem trace_ne_zero {ts : List (Nat × Nat)} (hne : ts ≠ []) (hfew : ts.length ≤ 4) (hpairs : ts.Pairwise fun t u => u.1 < t.1)
    (hts : ∀ t ∈ ts, t.1 ≤ 87 ∧ t.2 < 32 ∧ t.2 ≠ 0) : trace ts ≠ 0 := by
  intro hzero
  rcases ts with - | ⟨t, - | ⟨u, - | ⟨v, - | ⟨w, - | ⟨x, ts⟩⟩⟩⟩⟩
  · exact hne rfl
  · obtain ⟨heq, hlt⟩ := trace_shift [t] (n := t.1) (by simp)
    have hinner := iterate_polyStep_injective t.1 hlt (heq ▸ hzero)
    obtain ⟨-, hsmall, hvalue⟩ := hts t (by simp)
    simp only [trace, List.map_cons, List.map_nil, List.foldr_cons, List.foldr_nil, Nat.sub_self, Nat.xor_zero] at hinner
    rw [smul_power_zero _ hsmall] at hinner
    exact hvalue hinner
  · simp only [List.pairwise_cons, List.mem_cons, List.not_mem_nil, or_false, forall_eq] at hpairs
    obtain ⟨heq, hlt⟩ := trace_shift [t, u] (n := u.1) (by simp; omega)
    have hinner := iterate_polyStep_injective u.1 hlt (heq ▸ hzero)
    obtain ⟨ht, htsmall, htvalue⟩ := hts t (by simp)
    obtain ⟨-, husmall, -⟩ := hts u (by simp)
    simp only [trace, List.map_cons, List.map_nil, List.foldr_cons, List.foldr_nil, Nat.sub_self, Nat.xor_zero] at hinner
    rw [smul_power_zero _ husmall] at hinner
    exact trace_two (by omega) (by omega) htsmall htvalue husmall hinner
  · simp only [List.pairwise_cons, List.mem_cons, List.not_mem_nil, or_false, forall_eq, forall_eq_or_imp] at hpairs
    obtain ⟨heq, hlt⟩ := trace_shift [t, u, v] (n := v.1) (by simp; omega)
    have hinner := iterate_polyStep_injective v.1 hlt (heq ▸ hzero)
    obtain ⟨ht, htsmall, htvalue⟩ := hts t (by simp)
    obtain ⟨-, husmall, huvalue⟩ := hts u (by simp)
    obtain ⟨-, hvsmall, -⟩ := hts v (by simp)
    simp only [trace, List.map_cons, List.map_nil, List.foldr_cons, List.foldr_nil, Nat.sub_self, Nat.xor_zero] at hinner
    rw [smul_power_zero _ hvsmall, ← Nat.xor_assoc] at hinner
    exact trace_three (by omega) (by omega : u.1 - v.1 < t.1 - v.1) (by omega) htsmall htvalue husmall huvalue hvsmall hinner
  · simp only [List.pairwise_cons, List.mem_cons, List.not_mem_nil, or_false, forall_eq, forall_eq_or_imp] at hpairs
    obtain ⟨heq, hlt⟩ := trace_shift [t, u, v, w] (n := w.1) (by simp; omega)
    have hinner := iterate_polyStep_injective w.1 hlt (heq ▸ hzero)
    obtain ⟨ht, htsmall, htvalue⟩ := hts t (by simp)
    obtain ⟨-, husmall, huvalue⟩ := hts u (by simp)
    obtain ⟨-, hwsmall, -⟩ := hts w (by simp)
    simp only [trace, List.map_cons, List.map_nil, List.foldr_cons, List.foldr_nil, Nat.sub_self, Nat.xor_zero] at hinner
    rw [smul_power_zero _ hwsmall, ← Nat.xor_assoc, ← Nat.xor_assoc] at hinner
    exact trace_four (by omega) (by omega : v.1 - w.1 < u.1 - w.1) (by omega : u.1 - w.1 < t.1 - w.1) (by omega) htsmall htvalue
      husmall huvalue hwsmall hinner
  · simp only [List.length_cons] at hfew
    omega

/-- A difference of at most four symbols that leaves no trace is none. -/
theorem zero_of_few {vs : List Nat} (hvs : ∀ v ∈ vs, v < 32) (hlength : vs.length ≤ 88) (hfew : vs.countP (· != 0) ≤ 4)
    (hzero : polymod 0#32 vs = 0#32) : ∀ v ∈ vs, v = 0 := by
  apply terms_nil
  by_contra hne
  apply trace_ne_zero hne (by rw [terms_length]; exact hfew) (terms_pairwise vs)
  · intro t ht
    obtain ⟨hlt, hmem, hnonzero⟩ := terms_mem t ht
    exact ⟨by omega, hvs _ hmem, hnonzero⟩
  · rw [← polymod_terms hvs, hzero]
    rfl

/-! ## Two texts -/

/-- At most four characters are different, or only such within six in a row. -/
def Close (s t : Bytes) : Prop :=
  (s.zip t).countP (fun p => p.1 != p.2) ≤ 4 ∨ ∃ i, ∀ j, s[j]? ≠ t[j]? → i ≤ j ∧ j < i + 6

/-- The exclusive or of the symbols. -/
def difference (us vs : List Nat) : List Nat := List.zipWith (· ^^^ ·) us vs

theorem difference_length {us vs : List Nat} (hlength : us.length = vs.length) : (difference us vs).length = us.length := by
  unfold difference
  rw [List.length_zipWith]
  omega

theorem difference_get {us vs : List Nat} {i : Nat} (hi : i < us.length) (hj : i < vs.length) :
    (difference us vs)[i]? = some (us[i] ^^^ vs[i]) := by
  unfold difference
  rw [List.getElem?_zipWith, List.getElem?_eq_getElem hi, List.getElem?_eq_getElem hj]

theorem of_difference {us vs : List Nat} {i v : Nat} (h : (difference us vs)[i]? = some v) :
    ∃ u w, us[i]? = some u ∧ vs[i]? = some w ∧ v = u ^^^ w := by
  unfold difference at h
  rw [List.getElem?_zipWith] at h
  cases hu : us[i]? with
  | none => simp [hu] at h
  | some u =>
    cases hw : vs[i]? with
    | none => simp [hu, hw] at h
    | some w => exact ⟨u, w, rfl, rfl, by simpa [hu, hw] using h.symm⟩

theorem difference_lt {us vs : List Nat} (hus : ∀ v ∈ us, v < 32) (hvs : ∀ v ∈ vs, v < 32) : ∀ v ∈ difference us vs, v < 32 := by
  intro v hv
  obtain ⟨i, hi⟩ := List.getElem?_of_mem hv
  obtain ⟨u, w, hu, hw, rfl⟩ := of_difference hi
  exact Nat.xor_lt_two_pow (n := 5) (hus u (List.mem_of_getElem? hu)) (hvs w (List.mem_of_getElem? hw))

theorem difference_zero {us vs : List Nat} (hlength : us.length = vs.length) (h : ∀ v ∈ difference us vs, v = 0) : us = vs := by
  apply List.ext_getElem hlength
  intro i hi hj
  have hzero := h (us[i] ^^^ vs[i]) (List.mem_of_getElem? (difference_get hi hj))
  exact Nat.xor_eq_zero_iff.mp hzero

theorem count_difference {us vs : List Nat} (hus : ∀ v ∈ us, v < 32) (hvs : ∀ v ∈ vs, v < 32) :
    (difference us vs).countP (· != 0) = ((us.map charOf).zip (vs.map charOf)).countP fun p => p.1 != p.2 := by
  induction us generalizing vs with
  | nil => rfl
  | cons u us ih =>
    cases vs with
    | nil => rfl
    | cons v vs =>
      have hrest := ih (fun w hw => hus w (List.mem_cons_of_mem _ hw)) fun w hw => hvs w (List.mem_cons_of_mem _ hw)
      have hsame : (u ^^^ v != 0) = (charOf u != charOf v) := by
        rw [Bool.eq_iff_iff, bne_iff_ne, bne_iff_ne, ne_eq, ne_eq, Nat.xor_eq_zero_iff]
        exact not_congr ⟨congrArg charOf, charOf_inj (hus u List.mem_cons_self) (hvs v List.mem_cons_self)⟩
      unfold difference at hrest ⊢
      rw [List.zipWith_cons_cons, List.map_cons, List.map_cons, List.zip_cons_cons, List.countP_cons, List.countP_cons, hrest, hsame]

theorem zip_self_count (h : Bytes) : (h.zip h).countP (fun p => p.1 != p.2) = 0 := by
  rw [List.countP_eq_zero]
  intro p hp
  obtain ⟨i, hi, rfl⟩ := List.getElem_of_mem hp
  simp

theorem polymod_difference {head us vs : List Nat} (hlength : us.length = vs.length)
    (hsame : polymod 1#32 (head ++ us) = polymod 1#32 (head ++ vs)) : polymod 0#32 (difference us vs) = 0#32 := by
  rw [polymod_append, polymod_append] at hsame
  have hzero := (feed_eq_iff polymod_step_xor (by rw [List.length_map, List.length_map, hlength])).mp hsame
  have hmap : List.zipWith (· ^^^ ·) (us.map (BitVec.ofNat 32)) (vs.map (BitVec.ofNat 32)) =
      (difference us vs).map (BitVec.ofNat 32) := by
    unfold difference
    rw [List.map_zipWith, List.zipWith_map]
    congr 1
    funext u v
    apply BitVec.eq_of_toNat_eq
    rw [BitVec.toNat_xor, BitVec.toNat_ofNat, BitVec.toNat_ofNat, BitVec.toNat_ofNat, Nat.xor_mod_two_pow]
  rw [hmap] at hzero
  exact hzero

/-- A difference within six symbols in a row that leaves no trace is none. -/
theorem zero_of_window {ds : List Nat} (hds : ∀ v ∈ ds, v < 32) {m : Nat} (hzero : polymod 0#32 ds = 0#32)
    (hbefore : ∀ v ∈ ds.take m, v = 0) (hafter : ∀ v ∈ ds.drop (m + 6), v = 0) : ∀ v ∈ ds, v = 0 := by
  have hparts : ds = ds.take m ++ (ds.drop m).take 6 ++ ds.drop (m + 6) := by
    rw [← List.drop_drop, List.append_assoc, List.take_append_drop, List.take_append_drop]
  have hwindow : ∀ v ∈ (ds.drop m).take 6, v < 32 := fun v hv => hds v (List.mem_of_mem_drop (List.mem_of_mem_take hv))
  have hb := List.eq_replicate_of_mem hbefore
  have ha := List.eq_replicate_of_mem hafter
  unfold polymod at hzero
  rw [hparts, List.map_append, List.map_append, hb, ha, List.map_replicate, List.map_replicate] at hzero
  have hnone := isRegister_polymod.zero_of_burst (symbols_lt hwindow) (by rw [List.length_map, List.length_take]; omega) hzero
  have hmiddle : ∀ v ∈ (ds.drop m).take 6, v = 0 := by
    intro v hv
    have hbit := List.eq_of_mem_replicate (hnone ▸ List.mem_map_of_mem hv)
    have hnat := congrArg BitVec.toNat hbit
    have hsmall := hwindow v hv
    rw [BitVec.toNat_ofNat, BitVec.toNat_ofNat] at hnat
    omega
  intro v hv
  rw [hparts] at hv
  rcases List.mem_append.mp hv with hv | hv
  · rcases List.mem_append.mp hv with hv | hv
    · exact hbefore v hv
    · exact hmiddle v hv
  · exact hafter v hv

/-- The symbols of two texts with the same beginning that leave the same remainder. -/
theorem symbols_apart {head us vs : List Nat} {h : Bytes} (hlength : us.length = vs.length) (hshort : us.length ≤ 88)
    (hus : ∀ v ∈ us, v < 32) (hvs : ∀ v ∈ vs, v < 32) (hsame : polymod 1#32 (head ++ us) = polymod 1#32 (head ++ vs))
    (hclose : Close (h ++ us.map charOf) (h ++ vs.map charOf)) : us = vs := by
  have hzero := polymod_difference hlength hsame
  have hds := difference_lt hus hvs
  have hdlength := difference_length hlength
  apply difference_zero hlength
  rcases hclose with hfew | ⟨i, hwindow⟩
  · apply zero_of_few hds (by omega) _ hzero
    rw [List.zip_append rfl, List.countP_append, zip_self_count, Nat.zero_add] at hfew
    rw [count_difference hus hvs]
    exact hfew
  · have hinside : ∀ j (v : Nat), (difference us vs)[j]? = some v → v ≠ 0 → i ≤ h.length + j ∧ h.length + j < i + 6 := by
      intro j v hj hne
      obtain ⟨u, w, hu, hw, rfl⟩ := of_difference hj
      apply hwindow
      rw [List.getElem?_append_right (Nat.le_add_right _ _), List.getElem?_append_right (Nat.le_add_right _ _),
        Nat.add_sub_cancel_left, List.getElem?_map, List.getElem?_map, hu, hw]
      intro hchars
      have huw := charOf_inj (hus u (List.mem_of_getElem? hu)) (hvs w (List.mem_of_getElem? hw)) (by simpa using hchars)
      exact hne (Nat.xor_eq_zero_iff.mpr huw)
    apply zero_of_window hds (m := i - h.length) hzero
    · intro v hv
      by_contra hne
      obtain ⟨j, hj⟩ := List.getElem?_of_mem hv
      rw [List.getElem?_take] at hj
      split at hj
      · obtain ⟨hlow, hhigh⟩ := hinside j v hj hne
        omega
      · cases hj
    · intro v hv
      by_contra hne
      obtain ⟨j, hj⟩ := List.getElem?_of_mem hv
      rw [List.getElem?_drop] at hj
      obtain ⟨hlow, hhigh⟩ := hinside _ v hj hne
      omega

/-- What an accepted address is made of. -/
theorem of_decode {addr hrp witprog : Bytes} {witver : Nat} (h : segwit_addr_decode addr = .ok (hrp, witver, witprog)) :
    ∃ symbols : List Nat, lower addr = hrp ++ separator :: symbols.map charOf ∧ hrp ≠ [] ∧ (∀ v ∈ symbols, v < 32) ∧
      hrp.length + 1 + symbols.length ≤ 90 ∧ polymod 1#32 (hrpSymbols hrp ++ symbols) = 1#32 := by
  obtain ⟨-, hne, hencode⟩ := segwit_decode_iff.mp h
  obtain ⟨-, -, -, -, data, hsymbols, hbech⟩ := segwit_encode_iff.mp hencode
  obtain ⟨-, hlength, hdata, htext⟩ := encode_iff.mp hbech
  refine ⟨_, htext, hne, ?_, ?_, ?_⟩
  · intro v hv
    rcases List.mem_append.mp hv with hv | hv
    · exact hdata v hv
    · exact checksumSymbols_lt _ v hv
  · rw [List.length_append, show (checksumSymbols _).length = 6 from rfl]
    omega
  · rw [← List.append_assoc]
    exact (checksum_iff (hrpSymbols_append_lt hrp hdata) (checksumSymbols_lt _) rfl).mpr rfl

/-- Two accepted addresses of one human-readable part and length that are close are the same,
    but for the case of their letters. -/
theorem segwit_apart {addr typed hrp witprog witprog' : Bytes} {witver witver' : Nat}
    (haddr : segwit_addr_decode addr = .ok (hrp, witver, witprog)) (htyped : segwit_addr_decode typed = .ok (hrp, witver', witprog'))
    (hlength : addr.length = typed.length) (hclose : Close (lower addr) (lower typed)) : lower addr = lower typed := by
  obtain ⟨us, haddr_eq, hne, hus, hlong, hpoly⟩ := of_decode haddr
  obtain ⟨vs, htyped_eq, -, hvs, -, hpoly'⟩ := of_decode htyped
  have hpos := List.length_pos_iff.mpr hne
  have hlu : us.length = vs.length := by
    have hu := congrArg List.length haddr_eq
    have hv := congrArg List.length htyped_eq
    simp only [lower, List.length_map, List.length_append, List.length_cons] at hu hv
    omega
  rw [haddr_eq, htyped_eq, List.append_cons, List.append_cons _ separator (vs.map charOf)] at hclose
  have hsame := symbols_apart hlu (by omega) hus hvs (hpoly.trans hpoly'.symm) hclose
  rw [haddr_eq, htyped_eq, hsame]

/-- Two accepted addresses of one human-readable part and length that are not the same differ in
    at least five characters, and not within six in a row. -/
theorem accepted_apart {addr typed hrp witprog witprog' : Bytes} {witver witver' : Nat}
    (haddr : segwit_addr_decode addr = .ok (hrp, witver, witprog)) (htyped : segwit_addr_decode typed = .ok (hrp, witver', witprog'))
    (hlength : addr.length = typed.length) (hne : lower addr ≠ lower typed) :
    5 ≤ ((lower addr).zip (lower typed)).countP (fun p => p.1 != p.2) ∧
      ∀ i, ∃ j, (lower addr)[j]? ≠ (lower typed)[j]? ∧ (j < i ∨ i + 6 ≤ j) := by
  have hfar := fun hclose => hne (segwit_apart haddr htyped hlength hclose)
  constructor
  · by_contra hfew
    exact hfar (.inl (by omega))
  · intro i
    by_contra hnone
    apply hfar
    refine .inr ⟨i, fun j hj => ?_⟩
    by_contra houtside
    exact hnone ⟨j, hj, by omega⟩

/-- "bc1pqqqq4yr79j" and "bc1pqqqsq9txsp", of version 1 and two bytes. -/
theorem accepted_apart_bytes : 5 ≤ ((lower [0x62, 0x63, 0x31, 0x70, 0x71, 0x71, 0x71, 0x71, 0x34, 0x79, 0x72, 0x37, 0x39, 0x6a]).zip (lower [0x62, 0x63, 0x31, 0x70, 0x71, 0x71, 0x71, 0x73, 0x71, 0x39, 0x74, 0x78, 0x73, 0x70])).countP (fun p => p.1 != p.2) :=
  (@accepted_apart [0x62, 0x63, 0x31, 0x70, 0x71, 0x71, 0x71, 0x71, 0x34, 0x79, 0x72, 0x37, 0x39, 0x6a] [0x62, 0x63, 0x31, 0x70, 0x71, 0x71, 0x71, 0x73, 0x71, 0x39, 0x74, 0x78, 0x73, 0x70] [0x62, 0x63] [0, 0] [0, 1] 1 1 (by decide +kernel) (by decide +kernel) rfl (by decide +kernel)).1

end Segwit

end BitcoinSpoon
