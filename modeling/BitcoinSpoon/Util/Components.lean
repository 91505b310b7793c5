/-
  BitcoinSpoon.Util.Components — splitting a string at a separator (`StringComponents`,
  `code/Data.c`).

  The loop walks over the last component and puts what is behind a separator in its place.
  It then sets its index to 0 and counts on, so the first byte of every remainder is never
  compared: of two separators in a row the second stays in a component. Without such a
  pair the components are what they should be (`stringComponents_iff`).
-/

import BitcoinSpoon.Hd.Wallet

namespace BitcoinSpoon.Strings

open Wire

/-- The characters before the NUL. -/
structure CString where
  chars : Bytes
  noNul : 0 ∉ chars

/-- A `String` counts its NUL. -/
def CString.string (s : CString) : Bytes := s.chars ++ [0]

/-- The loop, `last` being the last of the components and `i` the index in it. It ends within
    as many rounds as there are bytes from `i` on, and one. -/
def componentsScan (separator : UInt8) : Nat → List Bytes → Bytes → Nat → Option (List Bytes)
  | 0, _, _, _ => none
  | rounds + 1, result, last, i =>
    if i < last.length then
      if last.getD i 0 = separator then
        let left := (dataCopyDataPart last 0 (i + 1)).set i 0
        -- `i = 0`, and the loop's `i++`
        componentsScan separator rounds (result ++ [left]) (dataCopyDataPart last (i + 1) (last.length - 1 - i)) 1
      else componentsScan separator rounds result last (i + 1)
    else some (result ++ [last])

def stringComponents (string : Bytes) (separator : UInt8) : Option (List Bytes) :=
  componentsScan separator (string.length + 1) [] string 0

/-- What a split is. -/
structure IsSplit (s : CString) (separator : UInt8) (components : List Bytes) (parts : List Bytes) : Prop where
  terminated : components = parts.map (· ++ [0])
  noNul : ∀ part ∈ parts, 0 ∉ part
  free : ∀ part ∈ parts, separator ∉ part
  count : parts.length = s.chars.count separator + 1
  joined : [separator].intercalate parts = s.chars

def Splits (s : CString) (separator : UInt8) : Prop :=
  ∃ components, stringComponents s.string separator = some components ∧ ∃ parts, IsSplit s separator components parts

variable {separator : UInt8}

/-! ## The loop -/

theorem scan_hit (rounds : Nat) (result : List Bytes) (left rest : Bytes) :
    componentsScan separator (rounds + 1) result (left ++ separator :: rest) left.length =
      componentsScan separator rounds (result ++ [left ++ [0]]) rest 1 := by
  have hlt : left.length < (left ++ separator :: rest).length := by simp
  have hhit : (left ++ separator :: rest).getD left.length 0 = separator := by simp
  have hleft : (dataCopyDataPart (left ++ separator :: rest) 0 (left.length + 1)).set left.length 0 = left ++ [0] := by
    rw [dataCopyDataPart, List.drop_zero, List.take_append, List.take_of_length_le (Nat.le_succ _)]
    simp
  have hright : dataCopyDataPart (left ++ separator :: rest) (left.length + 1)
      ((left ++ separator :: rest).length - 1 - left.length) = rest := by
    rw [dataCopyDataPart, List.drop_append, List.drop_of_length_le (Nat.le_succ _)]
    simp
  rw [componentsScan, if_pos hlt, if_pos hhit]
  dsimp only
  rw [hleft, hright]

theorem scan_pass {x : UInt8} (hx : x ≠ separator) (rounds : Nat) (result : List Bytes) (left rest : Bytes) :
    componentsScan separator (rounds + 1) result (left ++ x :: rest) left.length =
      componentsScan separator rounds result (left ++ [x] ++ rest) (left ++ [x]).length := by
  have hlt : left.length < (left ++ x :: rest).length := by simp
  have hget : (left ++ x :: rest).getD left.length 0 = x := by simp
  rw [componentsScan, if_pos hlt, hget, if_neg hx, List.length_append, List.append_assoc]
  rfl

theorem scan_end (rounds : Nat) (result : List Bytes) (last : Bytes) :
    componentsScan separator (rounds + 1) result last last.length = some (result ++ [last]) := by
  rw [componentsScan, if_neg (Nat.lt_irrefl _)]

/-- The loop is the scan of the characters, each component with its NUL. -/
theorem scan_eq (hseparator : separator ≠ 0) (rest left : Bytes) (rounds : Nat) (result : List Bytes)
    (hrounds : rest.length + 2 ≤ rounds) :
    componentsScan separator rounds result (left ++ (rest ++ [0])) left.length =
      some (result ++ (stringComponentsFrom separator left rest).map (· ++ [0])) := by
  induction left, rest using stringComponentsFrom.induct separator generalizing rounds result with
  | case1 left =>
    obtain ⟨rounds, rfl⟩ := Nat.exists_eq_add_of_le' hrounds
    show componentsScan separator (rounds + 2) result (left ++ 0 :: []) left.length = _
    rw [scan_pass hseparator.symm, List.append_nil, scan_end, stringComponentsFrom]
    rfl
  | case2 left =>
    obtain ⟨rounds, rfl⟩ := Nat.exists_eq_add_of_le' hrounds
    show componentsScan separator (rounds + 3) result (left ++ separator :: [0]) left.length = _
    have hend := @scan_end separator (rounds + 1) (result ++ [left ++ [0]]) [0]
    rw [scan_hit]
    refine hend.trans ?_
    rw [stringComponentsFrom, if_pos rfl, List.append_assoc]
    rfl
  | case3 left y rest ih =>
    obtain ⟨rounds, rfl⟩ := Nat.exists_eq_add_of_le' hrounds
    have htail := ih (rounds + (rest.length + 3)) (result ++ [left ++ [0]]) (by omega)
    show componentsScan separator (rounds + (rest.length + 3) + 1) result (left ++ separator :: (y :: (rest ++ [0]))) left.length = _
    rw [scan_hit]
    refine htail.trans ?_
    rw [stringComponentsFrom, if_pos rfl, List.append_assoc]
    rfl
  | case4 left x rest hx ih =>
    obtain ⟨rounds, rfl⟩ := Nat.exists_eq_add_of_le' hrounds
    have htail := ih (rounds + (rest.length + 2)) result (by omega)
    show componentsScan separator (rounds + (rest.length + 2) + 1) result (left ++ x :: (rest ++ [0])) left.length = _
    rw [scan_pass hx, htail]
    conv_rhs => rw [stringComponentsFrom.eq_def]
    dsimp only
    rw [if_neg hx]

theorem stringComponents_eq (hseparator : separator ≠ 0) (s : CString) :
    stringComponents s.string separator = some ((BitcoinSpoon.stringComponents s.chars separator).map (· ++ [0])) :=
  scan_eq hseparator s.chars [] _ [] (by simp [CString.string])

/-- The NUL is the separator: what is behind it is a component of length 0. -/
theorem scan_nul {chars : Bytes} (hchars : 0 ∉ chars) (left : Bytes) (rounds : Nat) (hrounds : chars.length + 2 ≤ rounds) :
    componentsScan 0 rounds [] (left ++ (chars ++ [0])) left.length = some [left ++ (chars ++ [0]), []] := by
  induction chars generalizing left rounds with
  | nil =>
    obtain ⟨rounds, rfl⟩ := Nat.exists_eq_add_of_le' hrounds
    show componentsScan 0 (rounds + 2) [] (left ++ 0 :: []) left.length = _
    rw [scan_hit]
    rfl
  | cons x chars ih =>
    obtain ⟨rounds, rfl⟩ := Nat.exists_eq_add_of_le' hrounds
    have hx : x ≠ 0 := fun hx => hchars (hx ▸ List.mem_cons_self)
    have htail := ih (fun hmem => hchars (List.mem_cons_of_mem x hmem)) (left ++ [x]) (rounds + (chars.length + 2)) (by simp)
    show componentsScan 0 (rounds + (chars.length + 2) + 1) [] (left ++ x :: (chars ++ [0])) left.length = _
    rw [scan_pass hx, htail, List.append_assoc]
    rfl

/-! ## The components -/

/-- What stands on the left begins one of the components. -/
theorem components_left (left rest : Bytes) : ∃ part ∈ stringComponentsFrom separator left rest, left <+: part := by
  induction left, rest using stringComponentsFrom.induct separator with
  | case1 left => exact ⟨left, by simp [stringComponentsFrom], List.prefix_refl left⟩
  | case2 left => exact ⟨left, by simp [stringComponentsFrom], List.prefix_refl left⟩
  | case3 left y rest ih => exact ⟨left, by simp [stringComponentsFrom], List.prefix_refl left⟩
  | case4 left x rest hx ih =>
    obtain ⟨part, hpart, hprefix⟩ := ih
    rw [stringComponentsFrom.eq_def]
    dsimp only
    rw [if_neg hx]
    exact ⟨part, hpart, (List.prefix_append left [x]).trans hprefix⟩

theorem components_ne_nil (left rest : Bytes) : stringComponentsFrom separator left rest ≠ [] := by
  obtain ⟨part, hpart, -⟩ := @components_left separator left rest
  exact List.ne_nil_of_mem hpart

theorem intercalate_cons {part : Bytes} {parts : List Bytes} (h : parts ≠ []) :
    [separator].intercalate (part :: parts) = part ++ separator :: [separator].intercalate parts := by
  rw [List.intercalate_cons_of_ne_nil h, List.append_assoc]
  rfl

/-- Nothing is lost, pair or no pair. -/
theorem components_joined (left rest : Bytes) :
    [separator].intercalate (stringComponentsFrom separator left rest) = left ++ rest := by
  induction left, rest using stringComponentsFrom.induct separator with
  | case1 left => simp [stringComponentsFrom]
  | case2 left =>
    rw [stringComponentsFrom, if_pos rfl, intercalate_cons (List.cons_ne_nil _ _)]
    rfl
  | case3 left y rest ih =>
    rw [stringComponentsFrom, if_pos rfl, intercalate_cons (components_ne_nil _ _), ih]
    rfl
  | case4 left x rest hx ih =>
    rw [stringComponentsFrom.eq_def]
    dsimp only
    rw [if_neg hx, ih, List.append_assoc]
    rfl

/-- No two separators stand side by side. -/
def Apart (separator : UInt8) (chars : Bytes) : Prop := ¬ [separator, separator] <:+: chars

theorem Apart.tail {x : UInt8} {rest : Bytes} (h : Apart separator (x :: rest)) : Apart separator rest :=
  fun hwithin => h (hwithin.trans (List.suffix_cons x rest).isInfix)

theorem components_free {left rest : Bytes} (hleft : separator ∉ left) (h : Apart separator rest) :
    ∀ part ∈ stringComponentsFrom separator left rest, separator ∉ part := by
  induction left, rest using stringComponentsFrom.induct separator with
  | case1 left => simpa [stringComponentsFrom] using hleft
  | case2 left => simpa [stringComponentsFrom] using hleft
  | case3 left y rest ih =>
    have hy : separator ≠ y := by
      rintro rfl
      exact h (List.prefix_append [separator, separator] rest).isInfix
    rw [stringComponentsFrom, if_pos rfl]
    rintro part hpart
    rcases List.mem_cons.1 hpart with rfl | hpart
    · exact hleft
    · exact ih (by simpa using hy) h.tail.tail part hpart
  | case4 left x rest hx ih =>
    rw [stringComponentsFrom.eq_def]
    dsimp only
    rw [if_neg hx]
    exact ih (by simpa using ⟨hleft, Ne.symm hx⟩) h.tail

/-- The second separator of a pair stays. -/
theorem components_pair {left rest : Bytes} (h : ¬ Apart separator rest) :
    ∃ part ∈ stringComponentsFrom separator left rest, separator ∈ part := by
  induction left, rest using stringComponentsFrom.induct separator with
  | case1 left => exact absurd (fun hwithin => by simp at hwithin) h
  | case2 left =>
    refine absurd (fun hwithin => ?_) h
    have hlength := hwithin.length_le
    simp at hlength
  | case3 left y rest ih =>
    rw [stringComponentsFrom, if_pos rfl]
    by_cases hy : y = separator
    · subst hy
      obtain ⟨part, hpart, hprefix⟩ := @components_left y [y] rest
      exact ⟨part, List.mem_cons_of_mem _ hpart, hprefix.subset List.mem_cons_self⟩
    · obtain ⟨part, hpart, hmem⟩ := ih fun hrest => h fun hwithin => by
        rcases List.infix_cons_iff.1 hwithin with hprefix | hwithin
        · exact hy (List.cons_prefix_cons.1 (List.cons_prefix_cons.1 hprefix).2).1.symm
        · rcases List.infix_cons_iff.1 hwithin with hprefix | hwithin
          · exact hy (List.cons_prefix_cons.1 hprefix).1.symm
          · exact hrest hwithin
      exact ⟨part, List.mem_cons_of_mem _ hpart, hmem⟩
  | case4 left x rest hx ih =>
    rw [stringComponentsFrom.eq_def]
    dsimp only
    rw [if_neg hx]
    refine ih fun hrest => h fun hwithin => ?_
    rcases List.infix_cons_iff.1 hwithin with hprefix | hwithin
    · exact hx (List.cons_prefix_cons.1 hprefix).1.symm
    · exact hrest hwithin

theorem mem_intercalate {parts : List Bytes} {part : Bytes} (hpart : part ∈ parts) {x : UInt8} (hx : x ∈ part) :
    x ∈ [separator].intercalate parts := by
  induction parts with
  | nil => cases hpart
  | cons first parts ih =>
    by_cases hparts : parts = []
    · rw [hparts] at hpart ⊢
      rwa [List.intercalate_singleton, ← List.mem_singleton.1 hpart]
    · rw [intercalate_cons hparts, List.mem_append, List.mem_cons]
      rcases List.mem_cons.1 hpart with rfl | hpart
      · exact .inl hx
      · exact .inr (.inr (ih hpart))

/-- Free parts are one more than the separators between them. -/
theorem count_intercalate {parts : List Bytes} (hne : parts ≠ []) (hfree : ∀ part ∈ parts, separator ∉ part) :
    parts.length = ([separator].intercalate parts).count separator + 1 := by
  induction parts with
  | nil => exact absurd rfl hne
  | cons part parts ih =>
    have hpart : part.count separator = 0 := List.count_eq_zero_of_not_mem (hfree part List.mem_cons_self)
    by_cases hparts : parts = []
    · rw [hparts, List.intercalate_singleton, hpart]
      rfl
    · have htail := ih hparts fun next hnext => hfree next (List.mem_cons_of_mem part hnext)
      rw [intercalate_cons hparts, List.count_append, hpart, List.count_cons_self, List.length_cons, htail]
      omega

/-! ## The whole call -/

theorem map_terminated_inj {parts parts' : List Bytes} (h : parts.map (· ++ [0]) = parts'.map (· ++ [(0 : UInt8)])) : parts = parts' :=
  List.map_injective_iff.2 (fun _ _ h => List.append_cancel_right h) h

/-- The separator is a character and no two of them stand side by side. -/
theorem stringComponents_iff (s : CString) (separator : UInt8) :
    Splits s separator ↔ separator ≠ 0 ∧ ¬ [separator, separator] <:+: s.chars := by
  by_cases hseparator : separator = 0
  · subst hseparator
    refine iff_of_false ?_ fun h => h.1 rfl
    rintro ⟨components, hcall, parts, hsplit⟩
    have hnul := scan_nul s.noNul [] (s.string.length + 1) (by simp [CString.string])
    obtain rfl := Option.some.inj (hcall.symm.trans hnul)
    have hempty : [] ∈ parts.map (· ++ [(0 : UInt8)]) := hsplit.terminated ▸ List.mem_cons_of_mem _ List.mem_cons_self
    obtain ⟨part, -, hpart⟩ := List.mem_map.1 hempty
    simp at hpart
  · unfold Splits
    rw [stringComponents_eq hseparator]
    constructor
    · rintro ⟨components, hcall, parts, hsplit⟩
      obtain rfl := Option.some.inj hcall
      have hparts := map_terminated_inj hsplit.terminated
      refine ⟨hseparator, fun hpair => ?_⟩
      obtain ⟨part, hpart, hmem⟩ := @components_pair separator [] s.chars (not_not.2 hpair)
      exact hsplit.free part (hparts ▸ hpart) hmem
    · rintro ⟨-, hapart⟩
      have hjoined : [separator].intercalate (BitcoinSpoon.stringComponents s.chars separator) = s.chars :=
        components_joined [] s.chars
      have hfree : ∀ part ∈ BitcoinSpoon.stringComponents s.chars separator, separator ∉ part :=
        components_free List.not_mem_nil hapart
      refine ⟨_, rfl, _, rfl, fun part hpart hnul => s.noNul ?_, hfree, ?_, hjoined⟩
      · rw [← hjoined]
        exact mem_intercalate hpart hnul
      · have hcount := count_intercalate (components_ne_nil [] s.chars) hfree
        exact hcount.trans (congrArg (fun chars => chars.count separator + 1) hjoined)

/-- "//" -/
theorem not_stringComponents : ¬ ∀ (s : CString) (separator : UInt8), Splits s separator := by
  intro h
  obtain ⟨components, hcall, parts, hsplit⟩ := h ⟨[0x2f, 0x2f], by decide⟩ 0x2f
  have hrun : stringComponents [0x2f, 0x2f, 0] 0x2f = some [[0], [0x2f, 0]] := by decide
  obtain rfl := Option.some.inj (hcall.symm.trans hrun)
  have hmem : [0x2f, 0] ∈ parts.map (· ++ [(0 : UInt8)]) := hsplit.terminated ▸ List.mem_cons_of_mem _ List.mem_cons_self
  obtain ⟨part, hpart, heq⟩ := List.mem_map.1 hmem
  have hslash : part = [0x2f] := List.append_cancel_right (heq.trans (List.singleton_append).symm)
  exact hsplit.free part hpart (by rw [hslash]; exact List.mem_cons_self)

end BitcoinSpoon.Strings
