/-
  BitcoinSpoon.Transaction.Stack — what finalizing does to a witness stack.

  Sorting takes signatures out of the stack key by key; what it returns has the old length
  only when nothing was left out, and then it is a permutation (`sortedStack_perm`). The
  extra elements of CHECKMULTISIG are put between the others, which all stay
  (`mem_correctedStack`). A key takes every other one of the signatures it accepts that stand
  next to each other. A key that accepts new signatures and finds no two of them side by
  side does not see in which order the others came in (`sortByKeys_congr`), every signature
  is taken when the keys leave none over (`length_sortByKeys`), and sorting changes nothing
  when each key finds one in front and none behind (`sortByKeys_inFront`). A stack that took
  its empty elements takes no more, and one that takes none is left as it is.
-/

import Mathlib.Data.List.Chain
import Mathlib.Data.List.Perm.Subperm
import BitcoinSpoon.Transaction.Finalize
import BitcoinSpoon.Util.Pushes

namespace BitcoinSpoon

open Wire

/-! ## Sorting -/

section

variable {accepts : Data → Bool}

theorem takeVerified_perm (accepts : Data → Bool) (signatures : Datas) :
    ((takeVerified accepts signatures).1 ++ (takeVerified accepts signatures).2).Perm signatures := by
  fun_induction takeVerified accepts signatures with
  | case1 => exact List.Perm.refl _
  | case2 => exact List.Perm.refl _
  | case3 => exact List.Perm.refl _
  | case4 sig next rest haccepts taken left heq ih =>
    rw [heq] at ih
    have hmove : (sig :: taken ++ next :: left).Perm (sig :: next :: (taken ++ left)) :=
      List.Perm.cons sig List.perm_middle
    exact hmove.trans ((ih.cons next).cons sig)
  | case5 sig next rest haccepts taken left heq ih =>
    rw [heq] at ih
    exact List.perm_middle.trans (ih.cons sig)

/-- What a key takes: of those it accepts that stand next to each other every other one, the
    first included; `front` of them stand in front. -/
def takenBy (accepts : Data → Bool) : Nat → Datas → Datas
  | _, [] => []
  | front, sig :: rest =>
    if accepts sig then
      if front % 2 = 0 then sig :: takenBy accepts (front + 1) rest else takenBy accepts (front + 1) rest
    else takenBy accepts 0 rest

/-- What it leaves. -/
def leftBy (accepts : Data → Bool) : Nat → Datas → Datas
  | _, [] => []
  | front, sig :: rest =>
    if accepts sig then
      if front % 2 = 0 then leftBy accepts (front + 1) rest else sig :: leftBy accepts (front + 1) rest
    else sig :: leftBy accepts 0 rest

theorem takenBy_add_two (front : Nat) (signatures : Datas) :
    takenBy accepts (front + 2) signatures = takenBy accepts front signatures := by
  induction signatures generalizing front with
  | nil => rfl
  | cons sig rest ih => rw [takenBy, takenBy, show front + 2 + 1 = front + 1 + 2 from rfl, ih, Nat.add_mod_right]

theorem leftBy_add_two (front : Nat) (signatures : Datas) :
    leftBy accepts (front + 2) signatures = leftBy accepts front signatures := by
  induction signatures generalizing front with
  | nil => rfl
  | cons sig rest ih => rw [leftBy, leftBy, show front + 2 + 1 = front + 1 + 2 from rfl, ih, Nat.add_mod_right]

/-- The index that advances once more after a signature was taken. -/
theorem takeVerified_eq (accepts : Data → Bool) (signatures : Datas) :
    takeVerified accepts signatures = (takenBy accepts 0 signatures, leftBy accepts 0 signatures) := by
  fun_induction takeVerified accepts signatures with
  | case1 => rfl
  | case2 sig haccepts => simp [takenBy, leftBy, haccepts]
  | case3 sig haccepts => simp [takenBy, leftBy, haccepts]
  | case4 sig next rest haccepts taken left heq ih =>
    obtain ⟨rfl, rfl⟩ := Prod.mk.inj (heq.symm.trans ih)
    rw [takenBy, leftBy, if_pos haccepts, if_pos haccepts, if_pos (by decide), if_pos (by decide), takenBy, leftBy]
    by_cases hnext : accepts next = true
    · rw [if_pos hnext, if_pos hnext, if_neg (by decide), if_neg (by decide), takenBy_add_two, leftBy_add_two]
    · rw [if_neg hnext, if_neg hnext]
  | case5 sig next rest haccepts taken left heq ih =>
    obtain ⟨htaken, hleft⟩ := Prod.mk.inj (heq.symm.trans ih)
    rw [takenBy.eq_2 accepts 0 sig, leftBy.eq_2 accepts 0 sig, if_neg haccepts, if_neg haccepts, htaken, hleft]

/-- No two that are accepted stand next to each other. -/
def Apart (accepts : Data → Bool) (signatures : Datas) : Prop :=
  signatures.IsChain fun a b => ¬ (accepts a = true ∧ accepts b = true)

instance (accepts : Data → Bool) (signatures : Datas) : Decidable (Apart accepts signatures) :=
  inferInstanceAs (Decidable (signatures.IsChain fun a b => ¬ (accepts a = true ∧ accepts b = true)))

/-- Then skipping the next one skips nothing. -/
theorem takeVerified_apart {signatures : Datas} (h : Apart accepts signatures) :
    takeVerified accepts signatures = (signatures.filter accepts, signatures.filter fun sig => !accepts sig) := by
  fun_induction takeVerified accepts signatures with
  | case1 => rfl
  | case2 sig haccepts => simp [haccepts]
  | case3 sig haccepts => simp [haccepts]
  | case4 sig next rest haccepts taken left heq ih =>
    obtain ⟨hboth, hrest⟩ := List.isChain_cons_cons.mp h
    have hnext : ¬ accepts next = true := fun hnext => hboth ⟨haccepts, hnext⟩
    rw [heq] at ih
    obtain ⟨rfl, rfl⟩ := Prod.mk.inj (ih hrest.tail)
    simp [haccepts, hnext]
  | case5 sig next rest haccepts taken left heq ih =>
    rw [heq] at ih
    obtain ⟨rfl, rfl⟩ := Prod.mk.inj (ih (List.isChain_cons_cons.mp h).2)
    have hrefused : (!accepts sig) = true := by simpa using haccepts
    rw [List.filter_cons_of_neg (l := next :: rest) haccepts, List.filter_cons_of_pos (l := next :: rest) hrefused]

theorem apart_of_one {signatures : Datas} (h : (signatures.filter accepts).length ≤ 1) : Apart accepts signatures := by
  induction signatures with
  | nil => exact List.IsChain.nil
  | cons sig rest ih =>
    by_cases hsig : accepts sig = true
    · rw [List.filter_cons_of_pos hsig, List.length_cons] at h
      have hnil : rest.filter accepts = [] := List.eq_nil_of_length_eq_zero (by omega)
      refine List.isChain_cons.mpr ⟨fun next hnext hboth => ?_, ih (by rw [hnil]; exact Nat.zero_le 1)⟩
      exact List.filter_eq_nil_iff.mp hnil next (List.mem_of_head? hnext) hboth.2
    · rw [List.filter_cons_of_neg hsig] at h
      exact List.isChain_cons.mpr ⟨fun _ _ hboth => hsig hboth.1, ih h⟩

theorem takeVerified_none {signatures : Datas} (h : ∀ sig ∈ signatures, accepts sig = false) :
    takeVerified accepts signatures = ([], signatures) := by
  have hnil : signatures.filter accepts = [] := by
    rw [List.filter_eq_nil_iff]
    intro sig hsig
    simp [h sig hsig]
  rw [takeVerified_apart (apart_of_one (by rw [hnil]; exact Nat.zero_le 1)), hnil]
  congr 1
  rw [List.filter_eq_self]
  intro sig hsig
  simp [h sig hsig]

/-- The first one that is accepted is taken. -/
theorem takeVerified_eq_nil {signatures : Datas} (h : (takeVerified accepts signatures).1 = []) :
    ∀ sig ∈ signatures, accepts sig = false := by
  fun_induction takeVerified accepts signatures with
  | case1 => simp
  | case2 sig haccepts => cases h
  | case3 sig haccepts => simpa using haccepts
  | case4 sig next rest haccepts taken left heq ih => cases h
  | case5 sig next rest haccepts taken left heq ih =>
    rw [heq] at ih
    intro s hs
    rcases List.mem_cons.mp hs with rfl | hs
    · simpa using haccepts
    · exact ih h s hs

theorem mem_takeVerified {signatures : Datas} {sig : Data} (h : sig ∈ (takeVerified accepts signatures).1) :
    accepts sig = true ∧ sig ∈ signatures := by
  refine ⟨?_, (takeVerified_perm accepts signatures).mem_iff.mp (List.mem_append_left _ h)⟩
  fun_induction takeVerified accepts signatures with
  | case1 => cases h
  | case2 s haccepts => rwa [List.mem_singleton.mp h]
  | case3 => cases h
  | case4 s next rest haccepts taken left heq ih =>
    rw [heq] at ih
    rcases List.mem_cons.mp h with rfl | h
    · exact haccepts
    · exact ih h
  | case5 s next rest haccepts taken left heq ih =>
    rw [heq] at ih
    exact ih h

/-- New signatures that are not accepted stay behind the others. -/
theorem takeVerified_append {old new : Datas} (h : new.filter accepts = []) :
    takeVerified accepts (old ++ new) = ((takeVerified accepts old).1, (takeVerified accepts old).2 ++ new) := by
  have hrefused : ∀ sig ∈ new, accepts sig = false := by
    intro sig hsig
    simpa using List.filter_eq_nil_iff.mp h sig hsig
  have hnew := takeVerified_none hrefused
  fun_induction takeVerified accepts old with
  | case1 => exact hnew
  | case2 sig haccepts =>
    cases new with
    | nil => simp [takeVerified, haccepts]
    | cons n rest =>
      have hrest := takeVerified_none fun s hs => hrefused s (List.mem_cons_of_mem n hs)
      simp [takeVerified, haccepts, hrest]
  | case3 sig haccepts =>
    cases new with
    | nil => simp [takeVerified, haccepts]
    | cons n rest => simp [takeVerified, haccepts, hnew]
  | case4 sig next rest haccepts taken left heq ih =>
    rw [heq] at ih
    rw [List.cons_append, List.cons_append, takeVerified, if_pos haccepts, ih]
    rfl
  | case5 sig next rest haccepts taken left heq ih =>
    rw [heq] at ih
    rw [List.cons_append] at ih
    rw [List.cons_append, List.cons_append, takeVerified, if_neg haccepts, ih]
    rfl

end

section

variable {accepts : Data → Data → Bool}

theorem sortByKeys_subperm (keys signatures : Datas) : (sortByKeys accepts keys signatures).Subperm signatures := by
  induction keys generalizing signatures with
  | nil => exact List.nil_subperm
  | cons pub pubs ih =>
    have htake := takeVerified_perm (accepts pub) signatures
    have hrest := (List.subperm_append_left (takeVerified (accepts pub) signatures).1).mpr
      (ih (takeVerified (accepts pub) signatures).2)
    exact hrest.trans htake.subperm

/-- The keys, one after the other, see no difference between two orders of new signatures
    behind the old ones: a key accepts none of the new, or it finds no two it accepts side by
    side and accepts the new ones in the same order. -/
def SortedAlike (accepts : Data → Data → Bool) : Datas → Datas → Datas → Datas → Prop
  | [], _, _, _ => True
  | pub :: pubs, old, new, new' =>
    new.filter (accepts pub) = [] ∧ SortedAlike accepts pubs (leftBy (accepts pub) 0 old) new new' ∨
      (Apart (accepts pub) (old ++ new) ∧ Apart (accepts pub) (old ++ new') ∧
        new.filter (accepts pub) = new'.filter (accepts pub)) ∧
      SortedAlike accepts pubs (old.filter fun sig => !accepts pub sig) (new.filter fun sig => !accepts pub sig)
        (new'.filter fun sig => !accepts pub sig)

instance decidableSortedAlike (accepts : Data → Data → Bool) :
    (keys old new new' : Datas) → Decidable (SortedAlike accepts keys old new new')
  | [], _, _, _ => isTrue trivial
  | pub :: pubs, old, new, new' =>
    let _ := decidableSortedAlike accepts pubs (leftBy (accepts pub) 0 old) new new'
    let _ := decidableSortedAlike accepts pubs (old.filter fun sig => !accepts pub sig) (new.filter fun sig => !accepts pub sig)
      (new'.filter fun sig => !accepts pub sig)
    inferInstanceAs (Decidable (_ ∧ _ ∨ (_ ∧ _ ∧ _) ∧ _))

theorem sortByKeys_congr {keys old new new' : Datas} (hperm : new.Perm new') (h : SortedAlike accepts keys old new new') :
    sortByKeys accepts keys (old ++ new) = sortByKeys accepts keys (old ++ new') := by
  induction keys generalizing old new new' with
  | nil => rfl
  | cons pub pubs ih =>
    rw [sortByKeys, sortByKeys]
    rcases h with ⟨hnone, hrest⟩ | ⟨⟨hapart, hapart', hsame⟩, hrest⟩
    · have hnone' : new'.filter (accepts pub) = [] := (hnone ▸ hperm.filter (accepts pub)).nil_eq.symm
      rw [takeVerified_append hnone, takeVerified_append hnone', takeVerified_eq]
      dsimp only
      rw [ih hperm hrest]
    · rw [takeVerified_apart hapart, takeVerified_apart hapart']
      dsimp only
      rw [List.filter_append, List.filter_append, List.filter_append, List.filter_append, hsame,
        ih (hperm.filter fun sig => !accepts pub sig) hrest]

/-- What the keys take, one after the other. -/
def takenInTurn (accepts : Data → Data → Bool) : Datas → Datas → Datas
  | [], _ => []
  | pub :: pubs, signatures =>
    takenBy (accepts pub) 0 signatures ++ takenInTurn accepts pubs (leftBy (accepts pub) 0 signatures)

/-- What they leave over. -/
def leftOver (accepts : Data → Data → Bool) (keys signatures : Datas) : Datas :=
  keys.foldl (fun left pub => leftBy (accepts pub) 0 left) signatures

theorem sortByKeys_eq (keys signatures : Datas) : sortByKeys accepts keys signatures = takenInTurn accepts keys signatures := by
  induction keys generalizing signatures with
  | nil => rfl
  | cons pub pubs ih =>
    rw [sortByKeys, takenInTurn, takeVerified_eq]
    dsimp only
    rw [ih]

/-- Every signature is taken or left over. -/
theorem length_sortByKeys (keys signatures : Datas) :
    (sortByKeys accepts keys signatures).length + (leftOver accepts keys signatures).length = signatures.length := by
  unfold leftOver
  induction keys generalizing signatures with
  | nil => exact Nat.zero_add _
  | cons pub pubs ih =>
    have hsplit := (takeVerified_perm (accepts pub) signatures).length_eq
    have hrest := ih (leftBy (accepts pub) 0 signatures)
    rw [takeVerified_eq, List.length_append] at hsplit
    rw [sortByKeys, takeVerified_eq, List.foldl_cons, List.length_append]
    dsimp only at hsplit ⊢
    omega

end

/-! ## Sorting what is sorted -/

section

variable {accepts : Data → Data → Bool}

/-- The signatures stand in the order in which the keys take them. -/
def InKeyOrder (accepts : Data → Data → Bool) (keys signatures : Datas) : Prop :=
  sortByKeys accepts keys signatures = signatures

/-- Each key in turn accepts the signature in front of those that are left and none behind the
    second, or none at all; at the end nothing is left. -/
def InFront (accepts : Data → Data → Bool) : Datas → Datas → Prop
  | [], signatures => signatures = []
  | _ :: pubs, [] => InFront accepts pubs []
  | pub :: pubs, sig :: rest =>
    if accepts pub sig then (∀ other ∈ rest.tail, accepts pub other = false) ∧ InFront accepts pubs rest
    else (∀ other ∈ rest, accepts pub other = false) ∧ InFront accepts pubs (sig :: rest)

instance decidableInFront (accepts : Data → Data → Bool) : (keys signatures : Datas) → Decidable (InFront accepts keys signatures)
  | [], signatures => inferInstanceAs (Decidable (signatures = []))
  | _ :: pubs, [] => decidableInFront accepts pubs []
  | pub :: pubs, sig :: rest =>
    let _ := decidableInFront accepts pubs rest
    let _ := decidableInFront accepts pubs (sig :: rest)
    inferInstanceAs (Decidable (if accepts pub sig then (∀ other ∈ rest.tail, accepts pub other = false) ∧ _
      else (∀ other ∈ rest, accepts pub other = false) ∧ _))

theorem takeVerified_front {accepts : Data → Bool} {sig : Data} {rest : Datas} (hsig : accepts sig = true)
    (hrest : ∀ other ∈ rest.tail, accepts other = false) : takeVerified accepts (sig :: rest) = ([sig], rest) := by
  cases rest with
  | nil => simp [takeVerified, hsig]
  | cons next rest =>
    rw [List.tail_cons] at hrest
    rw [takeVerified, if_pos hsig, takeVerified_none hrest]

theorem sortByKeys_inFront {keys signatures : Datas} (h : InFront accepts keys signatures) :
    InKeyOrder accepts keys signatures := by
  unfold InKeyOrder
  induction keys generalizing signatures with
  | nil => exact h.symm
  | cons pub pubs ih =>
    cases signatures with
    | nil => exact ih h
    | cons sig rest =>
      rw [InFront] at h
      split at h
      · rename_i hsig
        rw [sortByKeys, takeVerified_front hsig h.1]
        exact congrArg (sig :: ·) (ih h.2)
      · rename_i hsig
        have hnone : ∀ other ∈ sig :: rest, accepts pub other = false := by
          intro other hother
          rcases List.mem_cons.mp hother with rfl | hother
          · simpa using hsig
          · exact h.1 other hother
        rw [sortByKeys, takeVerified_none hnone]
        exact ih h.2

/-- Where no signature stands twice there is no other way. -/
theorem inFront_of_inKeyOrder {keys signatures : Datas} (hnodup : signatures.Nodup) (h : InKeyOrder accepts keys signatures) :
    InFront accepts keys signatures := by
  unfold InKeyOrder at h
  induction keys generalizing signatures with
  | nil => exact h.symm
  | cons pub pubs ih =>
    cases signatures with
    | nil => exact ih List.nodup_nil h
    | cons sig rest =>
      rw [InFront]
      rw [sortByKeys] at h
      dsimp only at h
      rcases hfirst : (takeVerified (accepts pub) (sig :: rest)).1 with - | ⟨first, taken⟩
      · have hnone := takeVerified_eq_nil hfirst
        rw [takeVerified_none hnone] at h
        rw [if_neg (by simp [hnone sig List.mem_cons_self])]
        exact ⟨fun other hother => hnone other (List.mem_cons_of_mem _ hother), ih hnodup h⟩
      -- the key takes the front one, since what it takes stands in front of the others
      obtain rfl : first = sig := by
        rw [hfirst, List.cons_append] at h
        exact (List.cons.inj h).1
      have hsig : accepts pub first = true := (mem_takeVerified (by rw [hfirst]; exact List.mem_cons_self)).1
      have hbehind : ∀ other ∈ rest.tail, accepts pub other = false := by
        cases rest with
        | nil => simp
        | cons next rest =>
          -- one it takes from behind would stand in the place of the second as well
          rw [takeVerified, if_pos hsig] at h
          dsimp only at h
          rw [List.tail_cons]
          apply takeVerified_eq_nil
          by_contra hsome
          obtain ⟨other, others, hother⟩ := List.exists_cons_of_ne_nil hsome
          rw [hother] at h
          obtain rfl : other = next := (List.cons.inj (List.cons.inj h).2).1
          have hmem := (mem_takeVerified (by rw [hother]; exact List.mem_cons_self)).2
          exact (List.nodup_cons.mp (List.nodup_cons.mp hnodup).2).1 hmem
      rw [takeVerified_front hsig hbehind] at h
      rw [if_pos hsig]
      exact ⟨hbehind, ih (List.nodup_cons.mp hnodup).2 (List.cons.inj h).2⟩

/-- A key that is offered one signature it accepts takes that one and leaves the others. -/
theorem sortByKeys_cons {pub : Data} {pubs signatures : Datas} (h : (signatures.filter (accepts pub)).length ≤ 1) :
    sortByKeys accepts (pub :: pubs) signatures =
      signatures.filter (accepts pub) ++ sortByKeys accepts pubs (signatures.filter fun sig => !accepts pub sig) := by
  rw [sortByKeys, takeVerified_apart (apart_of_one h)]

end

variable {c : Crypto} {tx : Transaction} {i : Nat}

/-- A stack that keeps its length when it is sorted keeps its signatures and its script. -/
theorem sortedStack_perm {stack : Datas} (hne : stack ≠ []) (hlen : (sortedStack c tx i stack).length = stack.length) :
    (sortedStack c tx i stack).Perm stack := by
  have hsplit := dropLast_concat_datasLast hne
  unfold sortedStack at hlen ⊢
  dsimp only at hlen ⊢
  generalize hs : sortByKeys (fun pub sig =>
    verify c sig (transactionWitnessDigest c (tx.setScriptData i (datasLast stack)) i) pub)
    (allPubKeys (datasLast stack)) stack.dropLast = sorted at hlen ⊢
  have hsub : sorted.Subperm stack.dropLast := hs ▸ sortByKeys_subperm _ _
  have hle : stack.dropLast.length ≤ sorted.length := by
    rw [List.length_append, List.length_singleton] at hlen
    rw [List.length_dropLast]
    omega
  have hperm := (hsub.perm_of_length_le hle).append_right [datasLast stack]
  rwa [hsplit] at hperm

theorem mem_sortedInput {x y : TransactionInput} (h : sortedInput c tx i x = some y) {sig : Data}
    (hsig : sig ∈ x.witnessStack) : sig ∈ y.witnessStack := by
  unfold sortedInput at h
  split at h
  · rename_i hlong
    split at h
    · rename_i hlen
      obtain rfl := Option.some.inj h
      have hne : x.witnessStack ≠ [] := by
        intro hnil
        rw [hnil] at hlong
        cases hlong
      exact (sortedStack_perm hne hlen).mem_iff.mpr hsig
    · cases h
  · split at h
    · cases h
    · obtain rfl := Option.some.inj h
      exact hsig

/-! ## The extra elements -/

/-- The number of stack elements a CHECKSIG or CHECKMULTISIG takes. -/
def signaturesOf (token : ScriptToken) : Nat := if isCheckMultisig token.op then token.neededSigs.toNat else 1

theorem mem_allCheckSigs {script : Data} {token : ScriptToken} (h : token ∈ allCheckSigs script) :
    isCheckMultisig token.op = true ∨ token.neededSigs = 1 := by
  unfold allCheckSigs at h
  generalize scriptToTokens script = tokens at h
  refine Loop.foldl_inv (fun array : ScriptTokens => ∀ token ∈ array,
    isCheckMultisig token.op = true ∨ token.neededSigs = 1) ?_ ?_ token h
  · intro token h
    cases h
  intro j _ array ih token h
  have hsig : ∀ token : ScriptToken,
      token ∈ (if checkSigPubKeys tokens j ≠ [] then checkSigEntry tokens j :: array else array) →
        isCheckMultisig token.op = true ∨ token.neededSigs = 1 := by
    intro token h
    split at h
    · rcases List.mem_cons.mp h with rfl | h
      · exact Or.inr rfl
      · exact ih token h
    · exact ih token h
  dsimp only at h
  split at h
  · rename_i hcount
    rcases List.mem_cons.mp h with rfl | h
    · left
      simp only [hasPubKeyCount, Bool.and_eq_true] at hcount
      exact hcount.1.1.1.1
    · exact hsig token h
  · exact hsig token h

theorem neededSigs_sum_le {tokens : ScriptTokens}
    (h : ∀ token ∈ tokens, isCheckMultisig token.op = true ∨ token.neededSigs = 1) :
    (tokens.map (·.neededSigs)).sum ≤ ((tokens.map signaturesOf).sum : Nat) := by
  induction tokens with
  | nil => simp
  | cons token tokens ih =>
    have hrest := ih fun t ht => h t (List.mem_cons_of_mem _ ht)
    have htoken : token.neededSigs ≤ (signaturesOf token : Int) := by
      unfold signaturesOf
      rcases h token List.mem_cons_self with hop | hone
      · rw [if_pos hop]
        exact Int.self_le_toNat _
      · split <;> omega
    simp only [List.map_cons, List.sum_cons]
    omega

/-- Every element that is walked over is placed. -/
theorem mem_placeSignatures {stack placed : Datas} {tokens : ScriptTokens} {index : Nat}
    (h : placeSignatures stack tokens index = some placed) {sig : Data}
    (hsig : sig ∈ (stack.drop index).take (tokens.map signaturesOf).sum) : sig ∈ placed := by
  induction tokens generalizing index placed with
  | nil => simp at hsig
  | cons token tokens ih =>
    rw [List.map_cons, List.sum_cons, List.take_add, List.mem_append, List.drop_drop] at hsig
    rw [placeSignatures] at h
    dsimp only at h
    split at h
    · rename_i hop
      split at h
      · obtain ⟨rest, hrest, rfl⟩ := Option.map_eq_some_iff.mp h
        rw [signaturesOf, if_pos hop] at hsig
        rcases hsig with hsig | hsig
        · simp [hsig]
        · have := ih hrest hsig
          simp [this]
      · cases h
    · rename_i hop
      split at h
      · rename_i hlt
        obtain ⟨rest, hrest, rfl⟩ := Option.map_eq_some_iff.mp h
        rw [signaturesOf, if_neg hop] at hsig
        rcases hsig with hsig | hsig
        · have hget : (stack.drop index).take 1 = [stack.getD index none] := by
            rw [List.getD_eq_getElem?_getD, List.getElem?_eq_getElem hlt, List.drop_eq_getElem_cons hlt]
            rfl
          rw [hget, List.mem_singleton] at hsig
          rw [hsig]
          exact List.mem_cons_self
        · exact List.mem_cons_of_mem _ (ih hrest hsig)
      · cases h

theorem mem_correctedStack {stack corrected : Datas} (h : correctedStack stack = some corrected) {sig : Data}
    (hsig : sig ∈ stack) : sig ∈ corrected := by
  unfold correctedStack correctMultisigSignaturesInStack at h
  split at h
  · dsimp only at h
    split at h
    · obtain rfl := Option.some.inj h
      exact hsig
    · rename_i hlong hneeded
      obtain ⟨placed, hplaced, rfl⟩ := Option.map_eq_some_iff.mp h
      have hne : stack ≠ [] := List.ne_nil_of_mem hsig
      rw [← dropLast_concat_datasLast hne, List.mem_append] at hsig
      rcases hsig with hsig | hsig
      · have htokens : ∀ t ∈ allCheckSigs (datasLast stack), isCheckMultisig t.op = true ∨ t.neededSigs = 1 :=
          fun t ht => mem_allCheckSigs ht
        have hsum := neededSigs_sum_le htokens
        apply List.mem_append_left
        apply mem_placeSignatures hplaced
        rw [List.drop_zero]
        apply (List.take_subset_take_left stack _) 
        · rwa [← List.dropLast_eq_take]
        · omega
      · exact List.mem_append_right _ hsig
  · obtain rfl := Option.some.inj h
    exact hsig

/-- No element is lost by finalizing. -/
theorem mem_finalInput {x y : TransactionInput} (h : finalInput c tx i x = some y) {sig : Data}
    (hsig : sig ∈ x.witnessStack) : sig ∈ y.witnessStack := by
  have haside : ∀ {f : TransactionInput → Option TransactionInput} {x y : TransactionInput},
      (∀ x y, f x = some y → sig ∈ x.witnessStack → sig ∈ y.witnessStack) →
      withScriptSigAside f x = some y → sig ∈ x.witnessStack → sig ∈ y.witnessStack := by
    intro f x y hf h hsig
    obtain ⟨z, hz, h⟩ := Option.map_eq_some_iff.mp h
    have hclear : (clearScriptSig x).witnessStack = x.witnessStack := by
      unfold clearScriptSig
      split <;> rfl
    have hrestored : (restoredBy (stashed x) z).witnessStack = z.witnessStack := by
      unfold restoredBy
      split <;> rfl
    rw [← h, hrestored]
    exact hf _ z hz (hclear.symm ▸ hsig)
  obtain ⟨z, hz, h⟩ := Option.bind_eq_some_iff.mp h
  have hsorted := haside (fun x y hxy => mem_sortedInput hxy) hz hsig
  refine haside ?_ h hsorted
  intro x y hxy hsig
  obtain ⟨witnessStack, scriptData, hstack, -, rfl⟩ := correctInput_eq_some_iff.mp hxy
  exact mem_correctedStack hstack hsig

/-! ## The extra elements, a second time -/

/-- An empty element goes in: the stack holds as many signatures as its script needs, and
    the script has a CHECKMULTISIG. -/
def TakesEmpty (stack : Datas) : Prop :=
  (stack.length : Int) - 1 = ((allCheckSigs (datasLast stack)).map (·.neededSigs)).sum ∧
    ∃ token ∈ allCheckSigs (datasLast stack), isCheckMultisig token.op = true

instance (stack : Datas) : Decidable (TakesEmpty stack) := by
  unfold TakesEmpty
  infer_instance

/-- The placing reads no element behind the stack. -/
def ReadsInside (stack : Datas) : Prop :=
  (stack.length : Int) - 1 = ((allCheckSigs (datasLast stack)).map (·.neededSigs)).sum →
    ((allCheckSigs (datasLast stack)).map signaturesOf).sum ≤ stack.length

instance (stack : Datas) : Decidable (ReadsInside stack) := by
  unfold ReadsInside
  infer_instance

theorem placeSignatures_isSome (stack : Datas) {tokens : ScriptTokens} {index : Nat} (hindex : index ≤ stack.length) :
    (placeSignatures stack tokens index).isSome ↔ index + (tokens.map signaturesOf).sum ≤ stack.length := by
  induction tokens generalizing index with
  | nil => simpa [placeSignatures] using hindex
  | cons token tokens ih =>
    rw [placeSignatures, List.map_cons, List.sum_cons, signaturesOf]
    dsimp only
    by_cases hop : isCheckMultisig token.op = true
    · rw [if_pos hop, if_pos hop]
      by_cases hle : index + token.neededSigs.toNat ≤ stack.length
      · rw [if_pos hle, Option.isSome_map, ih hle]
        omega
      · rw [if_neg hle]
        simp only [Option.isSome_none, Bool.false_eq_true, false_iff]
        omega
    · rw [if_neg hop, if_neg hop]
      by_cases hlt : index < stack.length
      · rw [if_pos hlt, Option.isSome_map, ih hlt]
        omega
      · rw [if_neg hlt]
        simp only [Option.isSome_none, Bool.false_eq_true, false_iff]
        omega

theorem placeSignatures_length {stack placed : Datas} {tokens : ScriptTokens} {index : Nat}
    (h : placeSignatures stack tokens index = some placed) :
    placed.length = (tokens.map signaturesOf).sum + tokens.countP (isCheckMultisig ·.op) := by
  induction tokens generalizing index placed with
  | nil =>
    obtain rfl := Option.some.inj h
    rfl
  | cons token tokens ih =>
    rw [placeSignatures] at h
    dsimp only at h
    rw [List.map_cons, List.sum_cons, List.countP_cons, signaturesOf]
    split at h
    · rename_i hop
      split at h
      · rename_i hle
        obtain ⟨rest, hrest, rfl⟩ := Option.map_eq_some_iff.mp h
        have htake : ((stack.drop index).take token.neededSigs.toNat).length = token.neededSigs.toNat := by
          rw [List.length_take, List.length_drop]
          omega
        rw [List.cons_append, List.length_cons, List.length_append, htake, ih hrest, if_pos hop, if_pos hop]
        omega
      · cases h
    · rename_i hop
      split at h
      · obtain ⟨rest, hrest, rfl⟩ := Option.map_eq_some_iff.mp h
        rw [List.length_cons, ih hrest, if_neg hop, if_neg hop]
        omega
      · cases h

/-- Without a CHECKMULTISIG the elements are put where they were. -/
theorem placeSignatures_plain {stack : Datas} {tokens : ScriptTokens} {index : Nat}
    (hplain : ∀ token ∈ tokens, isCheckMultisig token.op = false) (hle : index + tokens.length ≤ stack.length) :
    placeSignatures stack tokens index = some ((stack.drop index).take tokens.length) := by
  induction tokens generalizing index with
  | nil => simp [placeSignatures]
  | cons token tokens ih =>
    rw [List.length_cons] at hle
    have hop : ¬ isCheckMultisig token.op = true := by simp [hplain token List.mem_cons_self]
    have hlt : index < stack.length := by omega
    rw [placeSignatures, if_neg hop, if_pos hlt, ih (fun t ht => hplain t (List.mem_cons_of_mem _ ht)) (by omega),
      List.drop_eq_getElem_cons hlt, List.length_cons, List.take_succ_cons, Option.map_some,
      List.getD_eq_getElem?_getD, List.getElem?_eq_getElem hlt]
    rfl

/-- Every CHECKMULTISIG gets its empty element. -/
theorem empty_mem_placeSignatures {stack placed : Datas} {tokens : ScriptTokens} {index : Nat}
    (h : placeSignatures stack tokens index = some placed) (hmulti : ∃ token ∈ tokens, isCheckMultisig token.op = true) :
    some [] ∈ placed := by
  induction tokens generalizing index placed with
  | nil =>
    obtain ⟨token, htoken, -⟩ := hmulti
    cases htoken
  | cons token tokens ih =>
    rw [placeSignatures] at h
    dsimp only at h
    split at h
    · split at h
      · obtain ⟨rest, hrest, rfl⟩ := Option.map_eq_some_iff.mp h
        exact List.mem_cons_self
      · cases h
    · rename_i hop
      split at h
      · obtain ⟨rest, hrest, rfl⟩ := Option.map_eq_some_iff.mp h
        apply List.mem_cons_of_mem
        apply ih hrest
        obtain ⟨t, ht, htop⟩ := hmulti
        rcases List.mem_cons.mp ht with rfl | ht
        · exact absurd htop hop
        · exact ⟨t, ht, htop⟩
      · cases h

/-- Nothing else comes in. -/
theorem mem_of_mem_placeSignatures {stack placed : Datas} {tokens : ScriptTokens} {index : Nat}
    (h : placeSignatures stack tokens index = some placed) {sig : Data} (hsig : sig ∈ placed) :
    sig ∈ stack ∨ sig = some [] := by
  induction tokens generalizing index placed with
  | nil =>
    obtain rfl := Option.some.inj h
    cases hsig
  | cons token tokens ih =>
    rw [placeSignatures] at h
    dsimp only at h
    split at h
    · split at h
      · obtain ⟨rest, hrest, rfl⟩ := Option.map_eq_some_iff.mp h
        rw [List.cons_append, List.mem_cons, List.mem_append] at hsig
        rcases hsig with hsig | hsig | hsig
        · exact Or.inr hsig
        · exact Or.inl (List.mem_of_mem_drop (List.mem_of_mem_take hsig))
        · exact ih hrest hsig
      · cases h
    · split at h
      · rename_i hlt
        obtain ⟨rest, hrest, rfl⟩ := Option.map_eq_some_iff.mp h
        rcases List.mem_cons.mp hsig with rfl | hsig
        · left
          rw [List.getD_eq_getElem?_getD, List.getElem?_eq_getElem hlt]
          exact List.getElem_mem hlt
        · exact ih hrest hsig
      · cases h

/-- The length of the stack and its script decide. -/
theorem takesEmpty_congr {a b : Datas} (hlen : a.length = b.length)
    (hlast : (datasLast a).toBytes = (datasLast b).toBytes) : TakesEmpty a ↔ TakesEmpty b := by
  unfold TakesEmpty
  rw [hlen, allCheckSigs_congr hlast]

theorem readsInside_congr {a b : Datas} (hlen : a.length = b.length)
    (hlast : (datasLast a).toBytes = (datasLast b).toBytes) : ReadsInside a ↔ ReadsInside b := by
  unfold ReadsInside
  rw [hlen, allCheckSigs_congr hlast]

section

variable {stack placed : Datas}

theorem correctMultisigSignaturesInStack_isSome (stack : Datas) :
    (correctMultisigSignaturesInStack stack).isSome ↔ ReadsInside stack := by
  unfold correctMultisigSignaturesInStack ReadsInside
  dsimp only
  split
  · rename_i hneeded
    simp [hneeded]
  · rename_i hneeded
    rw [Option.isSome_map, placeSignatures_isSome stack (Nat.zero_le _), Nat.zero_add]
    simp [not_not.mp hneeded]

/-- A stack that takes no empty element is left as it is. -/
theorem correctMultisigSignaturesInStack_of_not_takes (hne : stack ≠ []) (h : ¬ TakesEmpty stack) :
    correctMultisigSignaturesInStack stack = some stack := by
  unfold TakesEmpty at h
  unfold correctMultisigSignaturesInStack
  dsimp only
  split
  · rfl
  · rename_i hneeded
    have hneeded := not_not.mp hneeded
    have hplain : ∀ token ∈ allCheckSigs (datasLast stack), isCheckMultisig token.op = false := by
      intro token htoken
      by_contra hop
      exact h ⟨hneeded, token, htoken, by simpa using hop⟩
    have hones : (allCheckSigs (datasLast stack)).map (·.neededSigs) =
        List.replicate (allCheckSigs (datasLast stack)).length 1 := by
      rw [List.eq_replicate_iff, List.length_map]
      refine ⟨rfl, fun n hn => ?_⟩
      obtain ⟨token, htoken, rfl⟩ := List.mem_map.mp hn
      rcases mem_allCheckSigs htoken with hop | hone
      · rw [hplain token htoken] at hop
        cases hop
      · exact hone
    rw [hones, List.sum_replicate_int] at hneeded
    have hlen : (allCheckSigs (datasLast stack)).length = stack.length - 1 := by
      omega
    rw [placeSignatures_plain hplain (by omega), Option.map_some, List.drop_zero, hlen, ← List.dropLast_eq_take,
      dropLast_concat_datasLast hne]

/-- One that takes some gets longer, holds one in front of its script, and takes no more. -/
theorem correctMultisigSignaturesInStack_of_takes (h : TakesEmpty stack)
    (hplaced : correctMultisigSignaturesInStack stack = some placed) :
    stack.length < placed.length ∧ some [] ∈ placed.dropLast ∧ datasLast placed = datasLast stack ∧
      (placed.length : Int) - 1 ≠ ((allCheckSigs (datasLast stack)).map (·.neededSigs)).sum := by
  obtain ⟨hneeded, hmulti⟩ := h
  unfold correctMultisigSignaturesInStack at hplaced
  dsimp only at hplaced
  rw [if_neg (not_not.mpr hneeded)] at hplaced
  obtain ⟨init, hinit, rfl⟩ := Option.map_eq_some_iff.mp hplaced
  have hlen := placeSignatures_length hinit
  have hcount : 0 < (allCheckSigs (datasLast stack)).countP (isCheckMultisig ·.op) := by
    rw [List.countP_pos_iff]
    exact hmulti
  have hsum := neededSigs_sum_le fun t (ht : t ∈ allCheckSigs (datasLast stack)) => mem_allCheckSigs ht
  rw [List.length_append, List.length_singleton, List.dropLast_concat, datasLast_concat]
  refine ⟨by omega, empty_mem_placeSignatures hinit hmulti, rfl, by omega⟩

theorem mem_of_mem_corrected (hne : stack ≠ []) (h : correctMultisigSignaturesInStack stack = some placed) {sig : Data}
    (hsig : sig ∈ placed) : sig ∈ stack ∨ sig = some [] := by
  unfold correctMultisigSignaturesInStack at h
  dsimp only at h
  split at h
  · obtain rfl := Option.some.inj h
    exact Or.inl hsig
  · obtain ⟨init, hinit, rfl⟩ := Option.map_eq_some_iff.mp h
    rcases List.mem_append.mp hsig with hsig | hsig
    · exact mem_of_mem_placeSignatures hinit hsig
    · left
      rw [List.mem_singleton.mp hsig, ← dropLast_concat_datasLast hne]
      simp

end

end BitcoinSpoon
