/-
  BitcoinSpoon.Hd.Path — what a derivation path means (`ckdIndicesFromPath`, `hdWallet`,
  `code/BTCUtil.c`; `StringComponents`, `code/Data.c`).

  The text of a list of components is read back as their child indices, so a path derives
  as the fold of `childKeyDerivation` over them, and paths compose. One text is left out of
  the three that name no component: `""`, `m` and `/` derive nothing, `m/` has one empty
  component, which is the number 0 (`hdWallet_path_iff`).
-/

import BitcoinSpoon.Tracker.Scan
import BitcoinSpoon.Hd.Commute

namespace BitcoinSpoon

open Wire

/-! ## Components -/

structure PathComponent where
  index : Nat
  hardened : Bool
  index_lt : index < 2 ^ 31

namespace PathComponent

/-- What `childKeyDerivation` is called with. -/
def childIndex (x : PathComponent) : Nat := if x.hardened then x.index + 2 ^ 31 else x.index

/-- A decimal number, and an apostrophe when it is hardened. -/
def text (x : PathComponent) : Bytes := decimal x.index ++ if x.hardened then [0x27] else []

end PathComponent

inductive PathStart where
  | relative
  | slash
  | master
  deriving DecidableEq, Repr

def PathStart.text : PathStart → Bytes
  | relative => []
  | slash => [0x2f]
  | master => [0x6d, 0x2f]

/-- The components joined by `/`. -/
def componentsText (components : List PathComponent) : Bytes := [0x2f].intercalate (components.map (·.text))

def pathText (start : PathStart) (components : List PathComponent) : Bytes := start.text ++ componentsText components

/-! ## Decimal numbers -/

theorem isdigit_iff (x : UInt8) : isdigit x = true ↔ 0x30 ≤ x ∧ x ≤ 0x39 := by
  unfold isdigit
  rw [Bool.and_eq_true, decide_eq_true_iff, decide_eq_true_iff]

theorem digit_toNat {digit : Char} (h : digit.isDigit = true) : 48 ≤ digit.toNat ∧ digit.toNat ≤ 57 := by
  simp only [Char.isDigit, Bool.and_eq_true, decide_eq_true_eq] at h
  exact ⟨h.1, h.2⟩

/-- A digit is its byte. -/
theorem digit_byte {digit : Char} (h : digit.isDigit = true) : (UInt8.ofNat digit.toNat).toNat = digit.toNat :=
  UInt8.toNat_ofNat_of_lt' (Nat.lt_of_le_of_lt (digit_toNat h).2 (by decide))

theorem isDigit_of_mem {i : Nat} {digit : Char} (h : digit ∈ Nat.toDigits 10 i) : digit.isDigit = true :=
  Nat.isDigit_of_mem_toDigits (by decide) (by decide) h

theorem decimal_isdigit {i : Nat} {x : UInt8} (h : x ∈ decimal i) : isdigit x = true := by
  obtain ⟨digit, hdigit, rfl⟩ := List.mem_map.mp h
  have hisDigit := isDigit_of_mem hdigit
  rw [isdigit_iff, UInt8.le_iff_toNat_le, UInt8.le_iff_toNat_le, digit_byte hisDigit]
  exact digit_toNat hisDigit

theorem decimal_ne_nil (i : Nat) : decimal i ≠ [] := by
  intro h
  have hlen := @Nat.length_toDigits_pos 10 i
  rw [List.map_eq_nil_iff.mp h] at hlen
  exact absurd hlen (by decide)

/-- The digits are read back one by one. -/
theorem foldl_digits (digits : List Char) (hdigits : ∀ digit ∈ digits, digit.isDigit = true) (n : Nat) :
    (digits.map fun digit => UInt8.ofNat digit.toNat).foldl (fun (n : Int) x => n * 10 + (x.toNat - 0x30)) n =
      Nat.ofDigitChars 10 digits n := by
  induction digits generalizing n with
  | nil => rw [Nat.ofDigitChars_nil]; rfl
  | cons digit digits ih =>
    have hisDigit := hdigits digit List.mem_cons_self
    have hrange := digit_toNat hisDigit
    have hone : (n : Int) * 10 + ((UInt8.ofNat digit.toNat).toNat - 0x30) = ((10 * n + (digit.toNat - 48) : Nat) : Int) := by
      rw [digit_byte hisDigit]
      omega
    rw [List.map_cons, List.foldl_cons, hone, ih fun x hx => hdigits x (List.mem_cons_of_mem digit hx)]
    rw [Nat.ofDigitChars_cons]
    rfl

theorem foldl_decimal (i : Nat) : (decimal i).foldl (fun (n : Int) x => n * 10 + (x.toNat - 0x30)) 0 = i := by
  have h := foldl_digits (Nat.toDigits 10 i) (fun _ hdigit => isDigit_of_mem hdigit) 0
  rw [Nat.ofDigitChars_ten_toDigits] at h
  exact h

/-! ## One component -/

namespace PathComponent

variable (x : PathComponent)

theorem text_cons : ∃ digit rest, x.text = digit :: rest ∧ isdigit digit = true := by
  obtain ⟨digit, rest, h⟩ := List.exists_cons_of_ne_nil (decimal_ne_nil x.index)
  refine ⟨digit, rest ++ if x.hardened then [0x27] else [], ?_, ?_⟩
  · rw [text, h, List.cons_append]
  · exact decimal_isdigit (h ▸ List.mem_cons_self : digit ∈ decimal x.index)

theorem mem_text {y : UInt8} (h : y ∈ x.text) : isdigit y = true ∨ y = 0x27 := by
  rw [text, List.mem_append] at h
  cases h with
  | inl h => exact .inl (decimal_isdigit h)
  | inr h =>
    split at h
    · exact .inr (List.mem_singleton.mp h)
    · cases h

theorem strtoll_text : strtoll x.text = x.index := by
  obtain ⟨digit, rest, htext, hdigit⟩ := x.text_cons
  have hrange := (isdigit_iff digit).mp hdigit
  have hspace : x.text.dropWhile isspace = x.text := by
    rw [htext, List.dropWhile_cons_of_neg]
    simp only [isspace, Bool.or_eq_true, Bool.and_eq_true, decide_eq_true_iff, not_or, not_and]
    rw [UInt8.le_iff_toNat_le, UInt8.le_iff_toNat_le] at hrange
    rw [← UInt8.toNat_inj, UInt8.le_iff_toNat_le, UInt8.le_iff_toNat_le]
    have h1 : (0x30 : UInt8).toNat = 48 := rfl
    have h2 : (0x20 : UInt8).toNat = 32 := rfl
    have h3 : (0x0d : UInt8).toNat = 13 := rfl
    omega
  have hvalue : (x.text.takeWhile isdigit) = decimal x.index := by
    rw [text, List.takeWhile_append_of_pos fun y hy => decimal_isdigit hy]
    cases x.hardened
    · simp
    · simp [isdigit]
  have hlt := x.index_lt
  unfold strtoll
  dsimp only
  rw [hspace]
  split
  · rename_i digits h
    rw [htext] at h
    rw [(List.cons.inj h).1] at hdigit
    exact absurd hdigit (by decide)
  · rename_i digits h
    rw [htext] at h
    rw [(List.cons.inj h).1] at hdigit
    exact absurd hdigit (by decide)
  · rw [hvalue, foldl_decimal]
    omega

theorem componentIndex_text : componentIndex x.text = x.childIndex := by
  have hlt := x.index_lt
  have hlow : ((x.index : Int) % 2 ^ 32).toNat = x.index := by omega
  have hmark : 0x27 ∈ x.text ↔ x.hardened = true := by
    constructor
    · intro h
      rw [text, List.mem_append] at h
      cases h with
      | inl h => exact absurd (decimal_isdigit h) (by decide)
      | inr h =>
        by_contra hsoft
        rw [if_neg hsoft] at h
        cases h
    · intro h
      rw [text, if_pos h]
      exact List.mem_append_right _ List.mem_cons_self
  unfold componentIndex childIndex
  dsimp only
  rw [strtoll_text, hlow]
  by_cases hhard : x.hardened = true
  · rw [if_pos (hmark.mpr hhard), if_pos hhard]
    exact Nat.or_two_pow_eq_add_of_lt hlt
  · rw [if_neg fun h => hhard (hmark.mp h), if_neg hhard]

end PathComponent

/-! ## Splitting -/

section

variable {separator : UInt8}

/-- The scan runs over a part and keeps it on the left. -/
theorem stringComponentsFrom_append {part : Bytes} (h : separator ∉ part) (left rest : Bytes) :
    stringComponentsFrom separator left (part ++ rest) = stringComponentsFrom separator (left ++ part) rest := by
  induction part generalizing left with
  | nil => rw [List.nil_append, List.append_nil]
  | cons x part ih =>
    have hx : x ≠ separator := fun hx => h (hx ▸ List.mem_cons_self)
    rw [List.cons_append, stringComponentsFrom.eq_def]
    dsimp only
    rw [if_neg hx, ih fun hmem => h (List.mem_cons_of_mem x hmem), List.append_assoc, List.singleton_append]

theorem stringComponentsFrom_last {part : Bytes} (h : separator ∉ part) (left : Bytes) :
    stringComponentsFrom separator left part = [left ++ part] := by
  have hscan := stringComponentsFrom_append h left []
  rw [List.append_nil] at hscan
  exact hscan

theorem intercalate_cons_flatMap (part : Bytes) (parts : List Bytes) :
    [separator].intercalate (part :: parts) = part ++ parts.flatMap (separator :: ·) := by
  induction parts generalizing part with
  | nil => rw [List.intercalate_singleton, List.flatMap_nil, List.append_nil]
  | cons next parts ih =>
    rw [List.intercalate_cons_cons, ih, List.flatMap_cons, List.append_assoc, List.singleton_append, List.cons_append]

/-- The byte behind a separator is not looked at; a part that is not empty starts there. -/
theorem stringComponentsFrom_parts {parts : List Bytes} (hparts : ∀ part ∈ parts, part ≠ [] ∧ separator ∉ part)
    {rest : Bytes} (hrest : separator ∉ rest) (left : Bytes) :
    stringComponentsFrom separator left (rest ++ parts.flatMap (separator :: ·)) = (left ++ rest) :: parts := by
  induction parts generalizing left rest with
  | nil => rw [List.flatMap_nil, List.append_nil, stringComponentsFrom_last hrest]
  | cons next parts ih =>
    obtain ⟨hnext, hfree⟩ := hparts next List.mem_cons_self
    obtain ⟨y, ys, rfl⟩ := List.exists_cons_of_ne_nil hnext
    have htail := ih (fun part hmem => hparts part (List.mem_cons_of_mem _ hmem))
      (fun hmem => hfree (List.mem_cons_of_mem y hmem)) [y]
    rw [List.flatMap_cons, stringComponentsFrom_append hrest, List.cons_append, List.cons_append, stringComponentsFrom,
      if_pos rfl]
    exact congrArg ((left ++ rest) :: ·) htail

theorem stringComponents_intercalate {parts : List Bytes} (hne : parts ≠ [])
    (hparts : ∀ part ∈ parts, part ≠ [] ∧ separator ∉ part) :
    stringComponents ([separator].intercalate parts) separator = parts := by
  obtain ⟨part, parts, rfl⟩ := List.exists_cons_of_ne_nil hne
  rw [intercalate_cons_flatMap]
  exact stringComponentsFrom_parts (fun part hmem => hparts part (List.mem_cons_of_mem _ hmem))
    (hparts part List.mem_cons_self).2 []

end

/-! ## Texts -/

variable {components : List PathComponent}

theorem componentsText_cons (x : PathComponent) (components : List PathComponent) :
    ∃ digit rest, componentsText (x :: components) = digit :: rest ∧ isdigit digit = true := by
  obtain ⟨digit, rest, htext, hdigit⟩ := x.text_cons
  unfold componentsText
  rw [List.map_cons, intercalate_cons_flatMap, htext]
  exact ⟨digit, _, rfl, hdigit⟩

/-- No text has a capital letter. -/
theorem tolower_text (start : PathStart) (components : List PathComponent) :
    (pathText start components).map tolower = pathText start components := by
  have hstart : ∀ y ∈ start.text, tolower y = y := by cases start <;> decide +kernel
  have hmark : ∀ n : Fin 256, isdigit (UInt8.ofNat n) = true → tolower (UInt8.ofNat n) = UInt8.ofNat n := by
    decide +kernel
  have hdigit : ∀ y, isdigit y = true → tolower y = y := by
    intro y hy
    have hn := hmark ⟨y.toNat, y.toNat_lt⟩
    rw [UInt8.ofNat_toNat] at hn
    exact hn hy
  have hbody : ∀ y ∈ componentsText components, tolower y = y := by
    intro y hy
    cases components with
    | nil => cases hy
    | cons x components =>
      have htext : ∀ x : PathComponent, ∀ y ∈ x.text, tolower y = y := by
        intro x y hy
        cases x.mem_text hy with
        | inl h => exact hdigit y h
        | inr h => rw [h]; decide
      unfold componentsText at hy
      rw [List.map_cons, intercalate_cons_flatMap, List.mem_append, List.mem_flatMap] at hy
      cases hy with
      | inl hy => exact htext x y hy
      | inr hy =>
        obtain ⟨part, hpart, hy⟩ := hy
        obtain ⟨x, _, rfl⟩ := List.mem_map.mp hpart
        cases List.mem_cons.mp hy with
        | inl hy => rw [hy]; decide
        | inr hy => exact htext x y hy
  refine (List.map_congr_left fun y hy => ?_).trans (List.map_id _)
  cases List.mem_append.mp hy with
  | inl hy => exact hstart y hy
  | inr hy => exact hbody y hy

theorem components_read (hne : components ≠ []) :
    (stringComponents (componentsText components) 0x2f).map componentIndex = components.map (·.childIndex) := by
  have hparts : ∀ part ∈ components.map (·.text), part ≠ [] ∧ 0x2f ∉ part := by
    intro part hpart
    obtain ⟨x, _, rfl⟩ := List.mem_map.mp hpart
    obtain ⟨digit, rest, htext, _⟩ := x.text_cons
    refine ⟨fun hnil => List.cons_ne_nil digit rest (htext.symm.trans hnil), fun hmem => ?_⟩
    cases x.mem_text hmem with
    | inl h => exact absurd h (by decide)
    | inr h => exact absurd h (by decide)
  unfold componentsText
  rw [stringComponents_intercalate (fun h => hne (List.map_eq_nil_iff.mp h)) hparts, List.map_map]
  exact List.map_congr_left fun x _ => x.componentIndex_text

/-- Whatever the text starts with is trimmed. -/
theorem ckdIndices_text (start : PathStart) (hne : components ≠ []) :
    ckdIndicesFromPath (pathText start components) = components.map (·.childIndex) := by
  obtain ⟨x, components, rfl⟩ := List.exists_cons_of_ne_nil hne
  obtain ⟨digit, rest, htext, hdigit⟩ := componentsText_cons x components
  have hslash : digit ≠ 0x2f := fun h => absurd (h ▸ hdigit) (by decide)
  have hm : digit ≠ 0x6d := fun h => absurd (h ▸ hdigit) (by decide)
  unfold ckdIndicesFromPath
  rw [tolower_text, ← components_read hne]
  dsimp only
  cases start with
  | relative =>
    simp [pathText, PathStart.text, htext, hslash, hm]
  | slash =>
    simp [pathText, PathStart.text, htext]
  | master =>
    simp [pathText, PathStart.text, htext]

/-! ## Derivation -/

variable {c : HdCrypto}

theorem descend_ne {r : HdRecord} {b : Bytes} (h : r.Carries b) (p : Bytes) (index : Nat) (child : HdNode) :
    (r.descend c p index child).sealed c ≠ b := by
  intro hb
  have hr := h.unique (hb ▸ carries_sealed c (r.descend c p index child))
  have hdepth : r.depth + 1 = r.depth := congrArg HdRecord.depth hr
  have hnat := congrArg UInt8.toNat hdepth
  rw [UInt8.toNat_add] at hnat
  have hlt := r.depth.toNat_lt
  have hone : (1 : UInt8).toNat = 1 := rfl
  omega

/-- A child is one level deeper. -/
theorem childKeyDerivation_ne {b : Bytes} (h : b.length = 82) {index : Nat} (hi : index < 2 ^ 32) :
    childKeyDerivation c (some b) index ≠ some (some b) := by
  obtain ⟨r, hr⟩ := exists_carries h
  by_cases hpriv : r.IsPrivate
  · cases hp : r.pubKey c with
    | none =>
      rw [childKeyDerivation_crash hr hp]
      exact (Option.some_ne_none _).symm
    | some p =>
      rw [childKeyDerivation_private hr hp hpriv hi]
      intro heq
      obtain ⟨found, _, hfound⟩ := Option.map_eq_some_iff.mp heq
      exact descend_ne hr _ _ _ (Option.some.inj hfound)
  · rw [childKeyDerivation_public hr hpriv]
    intro heq
    obtain ⟨found, _, hfound⟩ := Option.map_eq_some_iff.mp (Option.some.inj heq)
    exact descend_ne hr _ _ _ hfound

/-- `m/`: one component, and it is empty. -/
theorem ckdIndices_master : ckdIndicesFromPath (pathText .master []) = [0] := by decide

variable (c) in
/-- The fold over the components. -/
def derivePath (w : Data) (components : List PathComponent) : Option Data :=
  components.foldlM (fun w x => childKeyDerivation c w x.childIndex) w

theorem hdWallet_text {start : PathStart} (h : ¬ (start = .master ∧ components = [])) (w : Data) :
    hdWallet c w (pathText start components) = derivePath c w components := by
  unfold hdWallet derivePath
  by_cases hne : components = []
  · subst hne
    have hnone : ckdIndicesFromPath (pathText start []) = [] := by
      cases start with
      | relative => decide
      | slash => decide
      | master => exact absurd ⟨rfl, rfl⟩ h
    rw [hnone]
    rfl
  · rw [ckdIndices_text start hne, List.foldlM_map]

theorem derivePath_append (w : Data) (p q : List PathComponent) :
    derivePath c w (p ++ q) = (derivePath c w p).bind fun w => derivePath c w q :=
  List.foldlM_append

variable (c) in
/-- The text derives the fold over its components, and a path after it the fold over both. -/
def PathDerives (w : Data) (start : PathStart) (p : List PathComponent) : Prop :=
  hdWallet c w (pathText start p) = derivePath c w p ∧
    ∀ start' q, ¬ (start' = .master ∧ q = []) →
      ((hdWallet c w (pathText start p)).bind fun w => hdWallet c w (pathText start' q)) =
        hdWallet c w (pathText start (p ++ q))

theorem pathText_append (start : PathStart) {p q : List PathComponent} (hp : p ≠ []) (hq : q ≠ []) :
    pathText start (p ++ q) = pathText start p ++ 0x2f :: pathText .relative q := by
  obtain ⟨x, p, rfl⟩ := List.exists_cons_of_ne_nil hp
  obtain ⟨y, q, rfl⟩ := List.exists_cons_of_ne_nil hq
  have hbody : componentsText (x :: p ++ y :: q) = componentsText (x :: p) ++ 0x2f :: componentsText (y :: q) := by
    unfold componentsText
    rw [List.cons_append, List.map_cons, List.map_append, intercalate_cons_flatMap, List.flatMap_append, List.map_cons,
      List.map_cons, intercalate_cons_flatMap, intercalate_cons_flatMap, List.flatMap_cons]
    simp only [List.append_assoc, List.cons_append]
  show start.text ++ componentsText (x :: p ++ y :: q) = start.text ++ componentsText (x :: p) ++ 0x2f :: componentsText (y :: q)
  rw [hbody, List.append_assoc]

/-- Every text of every path, except `m/`. -/
theorem hdWallet_path_iff (c : HdCrypto) {b : Bytes} (h : b.length = 82) :
    (∀ start p, PathDerives c (some b) start p ↔ ¬ (start = .master ∧ p = [])) ∧
      (∀ start p q, p ≠ [] → q ≠ [] → pathText start (p ++ q) = pathText start p ++ 0x2f :: pathText .relative q) ∧
        ∀ path, path = [] ∨ path = [0x6d] ∨ path = [0x2f] → hdWallet c (some b) path = some (some b) := by
  refine ⟨fun start p => ⟨?_, fun hstart => ⟨hdWallet_text hstart _, ?_⟩⟩, fun start _ _ hp hq => pathText_append start hp hq, ?_⟩
  · rintro ⟨hderives, _⟩ ⟨rfl, rfl⟩
    unfold hdWallet at hderives
    rw [ckdIndices_master] at hderives
    have hchild : childKeyDerivation c (some b) 0 = some (some b) := by
      rw [List.foldlM_cons] at hderives
      simpa [derivePath] using hderives
    exact childKeyDerivation_ne h (by decide) hchild
  · intro start' q hstart'
    have hboth : ¬ (start = .master ∧ p ++ q = []) := fun hboth => hstart ⟨hboth.1, (List.append_eq_nil_iff.mp hboth.2).1⟩
    rw [hdWallet_text hstart, hdWallet_text hboth, derivePath_append]
    exact Option.bind_congr fun w _ => hdWallet_text hstart' w
  · intro path hpath
    have hnone : ckdIndicesFromPath path = [] := by
      rcases hpath with rfl | rfl | rfl <;> decide
    unfold hdWallet
    rw [hnone]
    rfl

theorem hdWallet_path_one :
    ((masterRecord 1).sealed logCrypto).length = 82 ∧
      PathDerives logCrypto (some ((masterRecord 1).sealed logCrypto)) .slash [⟨0, false, by decide⟩, ⟨2147483647, true, by decide⟩] :=
  have hlen := (carries_sealed logCrypto (masterRecord 1)).length
  ⟨hlen, ((hdWallet_path_iff logCrypto hlen).1 .slash _).mpr (by decide)⟩

/-- `m/` derives the child 0 of the key, not the key. -/
theorem not_hdWallet_path :
    ¬ ∀ start p, hdWallet logCrypto (some ((masterRecord 1).sealed logCrypto)) (pathText start p) =
      derivePath logCrypto (some ((masterRecord 1).sealed logCrypto)) p := by
  intro h
  have hmaster := h .master []
  unfold hdWallet at hmaster
  rw [ckdIndices_master, List.foldlM_cons] at hmaster
  have hchild : childKeyDerivation logCrypto (some ((masterRecord 1).sealed logCrypto)) 0 =
      some (some ((masterRecord 1).sealed logCrypto)) := by
    simpa [derivePath] using hmaster
  exact childKeyDerivation_ne (carries_sealed logCrypto (masterRecord 1)).length (by decide) hchild

end BitcoinSpoon
