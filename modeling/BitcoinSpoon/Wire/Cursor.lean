/-
  BitcoinSpoon.Wire.Cursor — readers that walk a byte string with a clamping cursor.

  A reader is a state transformer on the bytes between the cursor and the end. It is
  total: a field that does not fit in what is left moves the cursor to the end and
  reads as a default. Nothing here names a program; a format is described by

  - `Reads r p a`: on `p` followed by anything, `r` returns `a` and stops after `p`;
  - `Grammar r P`: `P a p` says that `p` is a complete encoding of `a`; `r` reads every
    complete encoding exactly, and whatever it is given it either consumed a complete
    encoding of what it returned or ran to the end of the bytes.

  Both compose along `>>=` and `many`, so the grammar of a record is read off the text
  of its reader. Two consequences carry the users' proofs: a reader with `Reads` laws
  makes its encoder self-delimiting (`Reads.append_inj`, `Reads.flatMap_inj`), and a
  clamping reader leaves bytes over exactly when a proper prefix of its input is a
  complete encoding (`Grammar.leftover_iff`). `Tight` compares a grammar with an encoder
  that writes the shortest form of each field: where the two agree on a whole record they
  agree on every field.
-/

import Mathlib.Data.List.Forall2
import Mathlib.Data.Nat.Bitwise

namespace BitcoinSpoon.Wire

abbrev Bytes := List UInt8

instance : LawfulBEq Bytes := inferInstance

/-! ## Little-endian numbers -/

def leBytes : Nat → Nat → Bytes
  | 0, _ => []
  | k + 1, n => UInt8.ofNat n :: leBytes k (n / 256)

def leNat : Bytes → Nat
  | [] => 0
  | b :: bs => b.toNat + 256 * leNat bs

@[simp] theorem leBytes_length (k n : Nat) : (leBytes k n).length = k := by
  induction k generalizing n with
  | zero => rfl
  | succ k ih => simp [leBytes, ih]

theorem leNat_lt (b : Bytes) : leNat b < 256 ^ b.length := by
  induction b with
  | nil => simp [leNat]
  | cons x b ih =>
    have := x.toNat_lt
    simp only [leNat, List.length_cons, Nat.pow_succ]
    omega

theorem leNat_leBytes (k n : Nat) (h : n < 256 ^ k) : leNat (leBytes k n) = n := by
  induction k generalizing n with
  | zero => simp only [Nat.pow_zero] at h; simp only [leBytes, leNat]; omega
  | succ k ih =>
    have hq : n / 256 < 256 ^ k := by rw [Nat.pow_succ] at h; omega
    simp only [leBytes, leNat, ih _ hq, UInt8.toNat_ofNat']
    omega

theorem leBytes_leNat (b : Bytes) : leBytes b.length (leNat b) = b := by
  induction b with
  | nil => rfl
  | cons x b ih =>
    have hx := x.toNat_lt
    have hd : (x.toNat + 256 * leNat b) / 256 = leNat b := by omega
    have hm : UInt8.ofNat (x.toNat + 256 * leNat b) = x := by
      apply UInt8.toNat_inj.mp
      rw [UInt8.toNat_ofNat']
      omega
    simp only [List.length_cons, leBytes, leNat, hd, hm, ih]

theorem leBytes_inj {k m n : Nat} (hm : m < 256 ^ k) (hn : n < 256 ^ k) (h : leBytes k m = leBytes k n) : m = n := by
  rw [← leNat_leBytes k m hm, h, leNat_leBytes k n hn]

/-! ## Readers -/

abbrev Reader (α : Type) := StateM Bytes α

variable {α β : Type}

@[simp] theorem bind_run (r : Reader α) (f : α → Reader β) (b : Bytes) : (r >>= f) b = f (r b).1 (r b).2 := rfl
@[simp] theorem pure_run (a : α) (b : Bytes) : (pure a : Reader α) b = (a, b) := rfl

/-- A fixed-width number; past the end it is 0 and the cursor is at the end. -/
def readLE (k : Nat) : Reader Nat := fun b => if k ≤ b.length then (leNat (b.take k), b.drop k) else (0, [])

/-- `n` raw bytes; past the end there are none and the cursor is at the end. -/
def readRaw (n : Nat) : Reader (Option Bytes) :=
  fun b => if n ≤ b.length then (some (b.take n), b.drop n) else (none, [])

def many (r : Reader α) : Nat → Reader (List α)
  | 0 => pure []
  | n + 1 => do
    let a ← r
    let as ← many r n
    pure (a :: as)

theorem many_length (r : Reader α) (n : Nat) (b : Bytes) : (many r n b).1.length = n := by
  induction n generalizing b with
  | zero => rfl
  | succ n ih => rw [many, bind_run, bind_run, pure_run, List.length_cons, ih]

/-! ## Exact reads -/

def Reads (r : Reader α) (p : Bytes) (a : α) : Prop := ∀ rest, r (p ++ rest) = (a, rest)

theorem Reads.pure (a : α) : Reads (pure a) [] a := fun _ => rfl

theorem Reads.bind {r : Reader α} {f : α → Reader β} {p q : Bytes} {a : α} {c : β} (hr : Reads r p a)
    (hf : Reads (f a) q c) : Reads (r >>= f) (p ++ q) c := by
  intro rest
  rw [bind_run, List.append_assoc, hr, hf]

theorem Reads.bind_pure {r : Reader α} {p : Bytes} {a : α} (hr : Reads r p a) (f : α → β) :
    Reads (r >>= fun x => Pure.pure (f x)) p (f a) := by
  intro rest
  rw [bind_run, hr, pure_run]

theorem Reads.readLE {k n : Nat} (h : n < 256 ^ k) : Reads (readLE k) (leBytes k n) n := by
  intro rest
  have hk : k ≤ (leBytes k n ++ rest).length := by simp
  have ht : (leBytes k n ++ rest).take k = leBytes k n := List.take_left' (leBytes_length k n)
  have hd : (leBytes k n ++ rest).drop k = rest := List.drop_left' (leBytes_length k n)
  simp only [Wire.readLE, hk, if_true, ht, hd, leNat_leBytes k n h]

theorem Reads.readRaw (p : Bytes) : Reads (readRaw p.length) p (some p) := by
  intro rest
  simp [Wire.readRaw]

theorem Reads.many {r : Reader β} {enc : α → Bytes} {f : α → β} {as : List α} (h : ∀ a ∈ as, Reads r (enc a) (f a)) :
    Reads (many r as.length) (as.flatMap enc) (as.map f) := by
  induction as with
  | nil => exact Reads.pure []
  | cons a as ih =>
    have ht := ih fun x hx => h x (List.mem_cons_of_mem _ hx)
    rw [List.length_cons, List.flatMap_cons, List.map_cons, Wire.many]
    exact (h a List.mem_cons_self).bind (ht.bind_pure _)

/-- What a reader reads exactly is self-delimiting. -/
theorem Reads.append_inj {r : Reader α} {p q s t : Bytes} {a c : α} (hp : Reads r p a) (hq : Reads r q c)
    (h : p ++ s = q ++ t) : a = c ∧ s = t := by
  have := (hp s).symm.trans ((congrArg r h).trans (hq t))
  exact ⟨congrArg Prod.fst this, congrArg Prod.snd this⟩

/-- A concatenation of self-delimiting, non-empty records determines the records. -/
theorem Reads.flatMap_inj {r : Reader β} {enc : α → Bytes} {f : α → β} {as cs : List α} (hne : ∀ a, enc a ≠ [])
    (ha : ∀ a ∈ as, Reads r (enc a) (f a)) (hc : ∀ c ∈ cs, Reads r (enc c) (f c))
    (h : as.flatMap enc = cs.flatMap enc) : as.map f = cs.map f := by
  induction as generalizing cs with
  | nil =>
    cases cs with
    | nil => rfl
    | cons c cs =>
      rw [List.flatMap_nil, List.flatMap_cons] at h
      exact absurd (List.append_eq_nil_iff.mp h.symm).1 (hne c)
  | cons a as ih =>
    cases cs with
    | nil =>
      rw [List.flatMap_nil, List.flatMap_cons] at h
      exact absurd (List.append_eq_nil_iff.mp h).1 (hne a)
    | cons c cs =>
      rw [List.flatMap_cons, List.flatMap_cons] at h
      obtain ⟨hac, ht⟩ := (ha a List.mem_cons_self).append_inj (hc c List.mem_cons_self) h
      have := ih (fun x hx => ha x (List.mem_cons_of_mem _ hx)) (fun x hx => hc x (List.mem_cons_of_mem _ hx)) ht
      rw [List.map_cons, List.map_cons, hac, this]

/-! ## Grammars of clamping readers -/

structure Grammar (r : Reader α) (P : α → Bytes → Prop) : Prop where
  reads : ∀ {a p}, P a p → Reads r p a
  /-- Otherwise the reader ran to the end. -/
  clamps : ∀ b, (r b).2 = [] ∨ ∃ p, P (r b).1 p ∧ b = p ++ (r b).2

theorem Grammar.nil {r : Reader α} {P : α → Bytes → Prop} (h : Grammar r P) : (r []).2 = [] := by
  rcases h.clamps [] with h | ⟨p, _, hp⟩
  · exact h
  · exact (List.append_eq_nil_iff.mp hp.symm).2

theorem Grammar.pure (a : α) : Grammar (pure a : Reader α) (fun x p => x = a ∧ p = []) where
  reads := by rintro x p ⟨rfl, rfl⟩; exact Reads.pure x
  clamps b := Or.inr ⟨[], ⟨rfl, rfl⟩, rfl⟩

theorem Grammar.bind {r : Reader α} {f : α → Reader β} {P : α → Bytes → Prop} {Q : α → β → Bytes → Prop}
    (hr : Grammar r P) (hf : ∀ a, Grammar (f a) (Q a)) :
    Grammar (r >>= f) (fun c s => ∃ a p q, P a p ∧ Q a c q ∧ s = p ++ q) where
  reads := by
    rintro c s ⟨a, p, q, hp, hq, rfl⟩
    exact (hr.reads hp).bind ((hf a).reads hq)
  clamps b := by
    rw [bind_run]
    rcases hr.clamps b with h | ⟨p, hp, hb⟩
    · left; rw [h]; exact (hf _).nil
    · rcases (hf (r b).1).clamps (r b).2 with h | ⟨q, hq, hb'⟩
      · exact Or.inl h
      · refine Or.inr ⟨p ++ q, ⟨_, p, q, hp, hq, rfl⟩, ?_⟩
        rw [List.append_assoc, ← hb']; exact hb

theorem Grammar.mono {r : Reader α} {P Q : α → Bytes → Prop} (h : Grammar r P) (hpq : ∀ a p, P a p ↔ Q a p) :
    Grammar r Q where
  reads hq := h.reads ((hpq _ _).mpr hq)
  clamps b := (h.clamps b).imp_right fun ⟨p, hp, hb⟩ => ⟨p, (hpq _ _).mp hp, hb⟩

theorem Grammar.readLE (k : Nat) : Grammar (readLE k) (fun n p => p.length = k ∧ n = leNat p) where
  reads := by
    rintro n p ⟨rfl, rfl⟩ rest
    simp [Wire.readLE]
  clamps b := by
    unfold Wire.readLE
    split
    · rename_i h
      exact Or.inr ⟨b.take k, ⟨List.length_take_of_le h, rfl⟩, (List.take_append_drop k b).symm⟩
    · exact Or.inl rfl

theorem Grammar.readRaw (n : Nat) : Grammar (readRaw n) (fun d p => p.length = n ∧ d = some p) where
  reads := by
    rintro d p ⟨rfl, rfl⟩
    exact Reads.readRaw p
  clamps b := by
    unfold Wire.readRaw
    split
    · rename_i h
      exact Or.inr ⟨b.take n, ⟨List.length_take_of_le h, rfl⟩, (List.take_append_drop n b).symm⟩
    · exact Or.inl rfl

theorem Grammar.many {r : Reader α} {P : α → Bytes → Prop} (h : Grammar r P) (n : Nat) :
    Grammar (many r n) (fun as p => ∃ ps : List Bytes, List.Forall₂ P as ps ∧ as.length = n ∧ p = ps.flatten) := by
  induction n with
  | zero =>
    refine (Grammar.pure []).mono fun as p => ⟨?_, ?_⟩
    · rintro ⟨rfl, rfl⟩; exact ⟨[], .nil, rfl, rfl⟩
    · rintro ⟨ps, hps, hl, rfl⟩
      obtain rfl := List.eq_nil_of_length_eq_zero hl
      cases hps; exact ⟨rfl, rfl⟩
  | succ n ih =>
    refine (h.bind fun a => ih.bind fun as => Grammar.pure (a :: as)).mono fun as p => ⟨?_, ?_⟩
    · rintro ⟨a, p, q, hp, ⟨as, q, s, ⟨ps, hps, rfl, rfl⟩, ⟨rfl, rfl⟩, rfl⟩, rfl⟩
      exact ⟨p :: ps, .cons hp hps, rfl, by simp⟩
    · rintro ⟨ps, hps, hl, rfl⟩
      cases hps with
      | nil => cases hl
      | cons hp hps =>
        exact ⟨_, _, _, hp, ⟨_, _, [], ⟨_, hps, by simpa using hl, rfl⟩, ⟨rfl, rfl⟩, rfl⟩, by simp⟩

/-- A clamping reader stops short of the end exactly when a proper prefix of its input
    is complete. -/
theorem Grammar.leftover_iff {r : Reader α} {P : α → Bytes → Prop} (h : Grammar r P) (b : Bytes) :
    (r b).2 ≠ [] ↔ ∃ a p rest, P a p ∧ rest ≠ [] ∧ b = p ++ rest := by
  constructor
  · intro hb
    rcases h.clamps b with h0 | ⟨p, hp, hb'⟩
    · exact absurd h0 hb
    · exact ⟨_, p, _, hp, hb, hb'⟩
  · rintro ⟨a, p, rest, hp, hne, rfl⟩
    rw [h.reads hp]; exact hne

/-! ## Encoders that write the shortest form -/

/-- `enc` writes no more than `P` allows, and `Q` is the part of `P` that it writes. -/
structure Tight (enc : α → Bytes) (P Q : α → Bytes → Prop) : Prop where
  length_le : ∀ {a p}, P a p → (enc a).length ≤ p.length
  canonical : ∀ {a p}, P a p → enc a = p → Q a p
  writes : ∀ {a p}, Q a p → enc a = p

/-- Two concatenations with no part growing agree part by part. -/
theorem append_eq_of_length_le {a b p q : Bytes} (ha : a.length ≤ p.length) (hb : b.length ≤ q.length)
    (h : a ++ b = p ++ q) : a = p ∧ b = q := by
  have hl := congrArg List.length h
  rw [List.length_append, List.length_append] at hl
  exact List.append_inj h (by omega)

theorem Tight.flatMap_length_le {enc : α → Bytes} {P Q : α → Bytes → Prop} (h : Tight enc P Q) {as : List α}
    {ps : List Bytes} (hp : List.Forall₂ P as ps) : (as.flatMap enc).length ≤ ps.flatten.length := by
  induction hp with
  | nil => exact Nat.le_refl _
  | cons ha _ ih =>
    rw [List.flatMap_cons, List.flatten_cons, List.length_append, List.length_append]
    exact Nat.add_le_add (h.length_le ha) ih

theorem Tight.flatMap_canonical {enc : α → Bytes} {P Q : α → Bytes → Prop} (h : Tight enc P Q) {as : List α}
    {ps : List Bytes} (hp : List.Forall₂ P as ps) (heq : as.flatMap enc = ps.flatten) : List.Forall₂ Q as ps := by
  induction hp with
  | nil => exact .nil
  | cons ha hps ih =>
    rw [List.flatMap_cons, List.flatten_cons] at heq
    obtain ⟨h1, h2⟩ := append_eq_of_length_le (h.length_le ha) (h.flatMap_length_le hps) heq
    exact .cons (h.canonical ha h1) (ih h2)

theorem Tight.flatMap_writes {enc : α → Bytes} {P Q : α → Bytes → Prop} (h : Tight enc P Q) {as : List α}
    {ps : List Bytes} (hq : List.Forall₂ Q as ps) : as.flatMap enc = ps.flatten := by
  induction hq with
  | nil => rfl
  | cons ha _ ih => rw [List.flatMap_cons, List.flatten_cons, h.writes ha, ih]

end BitcoinSpoon.Wire
