/-
  BitcoinSpoon.Transaction.AddScripts — the order of the scripts (`TransactionAddScripts`,
  `code/Transaction.c`).

  Every visit of a script is made to all inputs, so an input sees one list of visits: the
  scripts in their order, then those that no input took yet, again. What an input holds in
  the end is a matter of the list as a set, its `Placed`, as long as the witness script
  of a nested input is visited after its redeem script at least once. A script that another
  input takes first is never visited again, and an input that holds another redeem script
  takes a witness script only before its own one comes: the two ways in which the order
  does count (`transactionAddScripts_iff`).
-/

import BitcoinSpoon.Transaction.Again
import BitcoinSpoon.Transaction.Remote
import BitcoinSpoon.Transaction.RoundTrip

namespace BitcoinSpoon

open Wire

section

variable (c : Crypto)

/-! ## What a script is to an input -/

/-- The redeem script the funding output names. -/
def Redeems (script : Data) (input : TransactionInput) : Prop :=
  transactionInputType input = .payToScriptHash ∧ input.fundingOutput.script.toBytes = p2shPubScriptWithScript c script

/-- The witness script the last push of the script sig names. -/
def Opens (script : Data) (input : TransactionInput) : Prop :=
  transactionInputType input = .payToScriptHash ∧
    (datasLast (transactionInputScriptStack input)).toBytes = nestedP2wshScript c script

/-- The witness script the funding output names. -/
def Funds (script : Data) (input : TransactionInput) : Prop :=
  transactionInputType input = .payToScriptWitness ∧ input.fundingOutput.script.toBytes = p2wshPubScriptWithScript c script

instance (script : Data) (input : TransactionInput) : Decidable (Redeems c script input) := inferInstanceAs (Decidable (_ ∧ _))

instance (script : Data) (input : TransactionInput) : Decidable (Opens c script input) := inferInstanceAs (Decidable (_ ∧ _))

instance (script : Data) (input : TransactionInput) : Decidable (Funds c script input) := inferInstanceAs (Decidable (_ ∧ _))

/-- The input takes the script. -/
def Takes (script : Data) (input : TransactionInput) : Prop :=
  Redeems c script input ∨ Opens c script input ∨ Funds c script input

instance (script : Data) (input : TransactionInput) : Decidable (Takes c script input) := inferInstanceAs (Decidable (_ ∨ _))

/-- The input with the script as its redeem script, if that is what it is. -/
def redeemedBy (script : Data) (input : TransactionInput) : TransactionInput :=
  if Redeems c script input then { input with scriptData := some (scriptPush script) } else input

/-- The script becomes the witness. -/
def Unlocks (script : Data) (input : TransactionInput) : Prop := Opens c script (redeemedBy c script input) ∨ Funds c script input

/-- A visit of a script. -/
def visit (input : TransactionInput) (script : Data) : TransactionInput := (addScriptToInput c script input).1

/-- The visits of a list of scripts. -/
def visits (input : TransactionInput) (scripts : Datas) : TransactionInput := scripts.foldl (visit c) input

end

def stackBytes (input : TransactionInput) : List Bytes := input.witnessStack.map Data.toBytes

variable {c : Crypto} {input : TransactionInput} {script : Data} {scripts : Datas}

/-! ## One visit -/

@[simp] theorem redeemedBy_type : transactionInputType (redeemedBy c script input) = transactionInputType input := by
  unfold redeemedBy
  split <;> rfl

theorem redeemedBy_witnessStack : (redeemedBy c script input).witnessStack = input.witnessStack := by
  unfold redeemedBy
  split <;> rfl

theorem not_funds_of_scriptHash (h : transactionInputType input = .payToScriptHash) : ¬ Funds c script input := by
  intro hpays
  rw [Funds, h] at hpays
  cases hpays.1

/-- What a visit leaves, and whether the input was affected. -/
structure Visited (c : Crypto) (script : Data) (before after : TransactionInput) (affected : Nat) : Prop where
  core : after.core = before.core
  scriptData : after.scriptData = (redeemedBy c script before).scriptData
  unlocked : Unlocks c script before → after.witnessStack = [script]
  kept : ¬ Unlocks c script before → after.witnessStack = before.witnessStack
  affected : affected ≠ 0 ↔ Takes c script before

/-- A pay-to-script-hash input, redeemed or not. -/
theorem visited_scriptHash (htype : transactionInputType input = .payToScriptHash) (redeemed : Nat)
    (hredeemed : redeemed ≠ 0 ↔ Redeems c script input) :
    let (input', affected) :=
      if dataEqual (datasLast (transactionInputScriptStack (redeemedBy c script input))) (some (nestedP2wshScript c script)) then
        ({ redeemedBy c script input with witnessStack := [script] }, redeemed + 1)
      else (redeemedBy c script input, redeemed)
    Visited c script input input' affected := by
  have hpays : ¬ Funds c script input := not_funds_of_scriptHash htype
  have hcore : (redeemedBy c script input).core = input.core := by
    unfold redeemedBy
    split <;> rfl
  have hopens : dataEqual (datasLast (transactionInputScriptStack (redeemedBy c script input)))
      (some (nestedP2wshScript c script)) = true ↔ Opens c script (redeemedBy c script input) := by
    rw [dataEqual_iff, Opens, redeemedBy_type, htype, toBytes_some]
    exact ⟨fun h => ⟨rfl, h⟩, fun h => h.2⟩
  -- an input that is not redeemed is the one its script sig is read of
  have htakes : Takes c script input ↔ redeemed ≠ 0 ∨ Opens c script (redeemedBy c script input) := by
    unfold Takes
    rw [hredeemed]
    by_cases hred : Redeems c script input
    · exact ⟨fun _ => .inl hred, fun _ => .inl hred⟩
    · rw [redeemedBy, if_neg hred]
      exact ⟨fun h => h.imp_right fun h => h.resolve_right hpays, fun h => h.imp_right .inl⟩
  by_cases h : Opens c script (redeemedBy c script input)
  · rw [if_pos (hopens.mpr h)]
    exact ⟨hcore, rfl, fun _ => rfl, fun hnot => absurd (.inl h) hnot, by simp [htakes, h]⟩
  · rw [if_neg fun hd => h (hopens.mp hd)]
    refine ⟨hcore, rfl, fun hun => absurd (hun.resolve_right hpays) h, fun _ => redeemedBy_witnessStack, ?_⟩
    rw [htakes]
    exact ⟨.inl, fun hor => hor.resolve_right h⟩

theorem addScriptToInput_visited (c : Crypto) (script : Data) (input : TransactionInput) :
    Visited c script input (addScriptToInput c script input).1 (addScriptToInput c script input).2 := by
  unfold addScriptToInput
  split
  · rename_i htype
    by_cases hr : dataEqual input.fundingOutput.script (some (p2shPubScriptWithScript c script)) = true
    · have hred : Redeems c script input := ⟨htype, dataEqual_iff.mp hr⟩
      have hspec := visited_scriptHash htype 1 ⟨fun _ => hred, fun _ => Nat.one_ne_zero⟩
      rw [redeemedBy, if_pos hred] at hspec
      rw [if_pos hr]
      dsimp only at hspec ⊢
      exact hspec
    · have hred : ¬ Redeems c script input := fun h => hr (dataEqual_iff.mpr h.2)
      have hspec := visited_scriptHash htype 0 ⟨fun h => absurd rfl h, fun h => absurd h hred⟩
      rw [redeemedBy, if_neg hred] at hspec
      rw [if_neg hr]
      dsimp only at hspec ⊢
      exact hspec
  · rename_i htype
    have hred : ¬ Redeems c script input := fun h => by rw [Redeems, htype] at h; cases h.1
    have hopens : ¬ Opens c script input := fun h => by rw [Opens, htype] at h; cases h.1
    have hby : redeemedBy c script input = input := if_neg hred
    by_cases hp : dataEqual input.fundingOutput.script (some (p2wshPubScriptWithScript c script)) = true
    · have hpays : Funds c script input := ⟨htype, dataEqual_iff.mp hp⟩
      rw [if_pos hp]
      exact ⟨rfl, by rw [hby], fun _ => rfl, fun hnot => absurd (.inr hpays) hnot, fun _ => .inr (.inr hpays), fun _ => Nat.one_ne_zero⟩
    · have hpays : ¬ Funds c script input := fun h => hp (dataEqual_iff.mpr h.2)
      rw [if_neg hp]
      refine ⟨rfl, by rw [hby], fun hun => ?_, fun _ => rfl, fun h => absurd rfl h, fun htakes => ?_⟩
      · rw [Unlocks, hby] at hun
        exact absurd hun (not_or.mpr ⟨hopens, hpays⟩)
      · exact absurd htakes (not_or.mpr ⟨hred, not_or.mpr ⟨hopens, hpays⟩⟩)
  · rename_i hhash hwitness
    have hred : ¬ Redeems c script input := fun h => hhash h.1
    have hopens : ¬ Opens c script input := fun h => hhash h.1
    have hpays : ¬ Funds c script input := fun h => hwitness h.1
    have hby : redeemedBy c script input = input := if_neg hred
    refine ⟨rfl, by rw [hby], fun hun => ?_, fun _ => rfl, fun h => absurd rfl h, fun htakes => ?_⟩
    · rw [Unlocks, hby] at hun
      exact absurd hun (not_or.mpr ⟨hopens, hpays⟩)
    · exact absurd htakes (not_or.mpr ⟨hred, not_or.mpr ⟨hopens, hpays⟩⟩)

/-! ## The visits of the loop -/

open Classical in
variable (c) in
/-- The scripts that no input took when they were visited. -/
noncomputable def untaken : List TransactionInput → Datas → Datas
  | _, [] => []
  | inputs, script :: rest =>
    let later := untaken (inputs.map fun input => visit c input script) rest
    if ∀ input ∈ inputs, ¬ Takes c script input then script :: later else later

variable (c) in
/-- All visits: a round, and those of what it left, unless it left everything. -/
noncomputable def allVisits : Nat → List TransactionInput → Datas → Datas
  | 0, _, _ => []
  | rounds + 1, inputs, scripts =>
    if (untaken c inputs scripts).length = scripts.length then scripts
    else scripts ++ allVisits rounds (inputs.map fun input => visits c input scripts) (untaken c inputs scripts)

variable {inputs : List TransactionInput} {tx : Transaction} {rounds : Nat}

theorem affectedBy_addScript : affectedBy (addScriptToInput c script) tx = [] ↔ ∀ input ∈ tx.inputs, ¬ Takes c script input := by
  unfold affectedBy
  rw [List.filter_eq_nil_iff]
  constructor
  · intro h input hinput htakes
    obtain ⟨i, hi, rfl⟩ := List.mem_iff_getElem.mp hinput
    refine h i (List.mem_range.mpr hi) ?_
    rw [decide_eq_true_iff, List.getD_eq_getElem _ _ hi]
    exact (addScriptToInput_visited c script _).affected.mpr htakes
  · intro h i hi
    have hlt := List.mem_range.mp hi
    rw [decide_eq_true_iff, List.getD_eq_getElem _ _ hlt]
    exact fun hne => h _ (List.getElem_mem hlt) ((addScriptToInput_visited c script _).affected.mp hne)

theorem visits_cons (input : TransactionInput) (script : Data) (rest : Datas) :
    visits c input (script :: rest) = visits c (visit c input script) rest := rfl

theorem visits_append (input : TransactionInput) (a b : Datas) : visits c input (a ++ b) = visits c (visits c input a) b :=
  List.foldl_append

theorem visits_concat (input : TransactionInput) (a : Datas) (script : Data) :
    visits c input (a ++ [script]) = visit c (visits c input a) script := by
  rw [visits_append]
  rfl

theorem addScriptsRound_eq (tx : Transaction) (scripts : Datas) :
    (addScriptsRound c tx scripts).1 = { tx with inputs := tx.inputs.map fun input => visits c input scripts } ∧
      (addScriptsRound c tx scripts).2.1 = untaken c tx.inputs scripts := by
  induction scripts generalizing tx with
  | nil =>
    refine ⟨?_, rfl⟩
    have hid : (tx.inputs.map fun input => visits c input []) = tx.inputs := List.map_id _
    rw [hid]
    rfl
  | cons script rest ih =>
    obtain ⟨htx, hleft⟩ := ih (transactionAddScript c tx script).1
    have hinputs : (transactionAddScript c tx script).1.inputs = tx.inputs.map fun input => visit c input script := rfl
    rw [hinputs, List.map_map] at htx
    rw [hinputs] at hleft
    have hnone := @affectedBy_addScript c script tx
    unfold addScriptsRound
    dsimp only
    by_cases h : affectedBy (addScriptToInput c script) tx = []
    · rw [show (transactionAddScript c tx script).2 = affectedBy (addScriptToInput c script) tx from rfl, if_pos h]
      refine ⟨htx, ?_⟩
      rw [untaken, if_pos (hnone.mp h)]
      exact congrArg (script :: ·) hleft
    · rw [show (transactionAddScript c tx script).2 = affectedBy (addScriptToInput c script) tx from rfl, if_neg h]
      refine ⟨htx, ?_⟩
      rw [untaken, if_neg fun hall => h (hnone.mpr hall)]
      exact hleft

theorem addScriptsFrom_inputs (rounds : Nat) (tx : Transaction) (scripts : Datas) :
    (addScriptsFrom c rounds tx scripts).1 =
      { tx with inputs := tx.inputs.map fun input => visits c input (allVisits c rounds tx.inputs scripts) } := by
  induction rounds generalizing tx scripts with
  | zero =>
    have hid : (tx.inputs.map fun input => visits c input []) = tx.inputs := List.map_id _
    rw [allVisits, hid]
    rfl
  | succ rounds ih =>
    obtain ⟨htx, hleft⟩ := @addScriptsRound_eq c tx scripts
    unfold addScriptsFrom
    dsimp only
    rw [hleft, allVisits]
    by_cases h : (untaken c tx.inputs scripts).length = scripts.length
    · rw [if_pos h, if_pos h]
      exact htx
    · rw [if_neg h, if_neg h]
      dsimp only
      rw [ih, htx]
      dsimp only
      rw [List.map_map]
      refine congrArg (fun inputs => { tx with inputs := inputs }) (List.map_congr_left fun input _ => ?_)
      exact (visits_append input _ _).symm

theorem untaken_sublist (inputs : List TransactionInput) (scripts : Datas) : (untaken c inputs scripts).Sublist scripts := by
  induction scripts generalizing inputs with
  | nil => exact List.Sublist.refl _
  | cons script rest ih =>
    rw [untaken]
    split
    · exact (ih _).cons_cons script
    · exact (ih _).cons script

/-- A script that is taken by no input when it is visited is left. -/
theorem mem_untaken {a b : Datas} (h : ∀ input ∈ inputs, ¬ Takes c script (visits c input a)) :
    script ∈ untaken c inputs (a ++ script :: b) := by
  induction a generalizing inputs with
  | nil =>
    have hnow : ∀ input ∈ inputs, ¬ Takes c script input := h
    rw [List.nil_append, untaken, if_pos hnow]
    exact List.mem_cons_self
  | cons first a ih =>
    have hrest := @ih (inputs.map fun input => visit c input first) (by
      intro input hinput
      obtain ⟨input', hinput', rfl⟩ := List.mem_map.mp hinput
      exact h input' hinput')
    rw [List.cons_append, untaken]
    split
    · exact List.mem_cons_of_mem _ hrest
    · exact hrest

/-- One that is taken is not, if no other of its kind comes later. -/
theorem of_mem_untaken (h : script ∈ untaken c inputs scripts) :
    ∃ a b, scripts = a ++ script :: b ∧ ∀ input ∈ inputs, ¬ Takes c script (visits c input a) := by
  induction scripts generalizing inputs with
  | nil => cases h
  | cons first rest ih =>
    rw [untaken] at h
    have hlater : script ∈ untaken c (inputs.map fun input => visit c input first) rest →
        ∃ a b, first :: rest = a ++ script :: b ∧ ∀ input ∈ inputs, ¬ Takes c script (visits c input a) := by
      intro hmem
      obtain ⟨a, b, hsplit, hnone⟩ := ih hmem
      exact ⟨first :: a, b, by rw [hsplit]; rfl, fun input hinput => hnone _ (List.mem_map_of_mem hinput)⟩
    split at h
    · rename_i hnone
      cases List.mem_cons.mp h with
      | inl heq => exact ⟨[], rest, by rw [heq]; rfl, fun input hinput => heq ▸ hnone input hinput⟩
      | inr h => exact hlater h
    · exact hlater h

theorem allVisits_subset (rounds : Nat) (inputs : List TransactionInput) (scripts : Datas) :
    allVisits c rounds inputs scripts ⊆ scripts := by
  induction rounds generalizing inputs scripts with
  | zero => exact List.nil_subset _
  | succ rounds ih =>
    rw [allVisits]
    split
    · exact List.Subset.refl _
    · exact List.append_subset.mpr ⟨List.Subset.refl _, fun x hx => (untaken_sublist inputs scripts).subset (ih _ _ hx)⟩

/-- The first round visits everything, and the next one what it left, if it left less. -/
theorem allVisits_eq (rounds : Nat) (inputs : List TransactionInput) (scripts : Datas) :
    ∃ more, allVisits c (rounds + 1) inputs scripts = scripts ++ more ∧ more ⊆ untaken c inputs scripts ∧
      (0 < rounds → (untaken c inputs scripts).length ≠ scripts.length → untaken c inputs scripts ⊆ more) := by
  rw [allVisits]
  by_cases h : (untaken c inputs scripts).length = scripts.length
  · rw [if_pos h]
    exact ⟨[], (List.append_nil _).symm, List.nil_subset _, fun _ hne => absurd h hne⟩
  · rw [if_neg h]
    refine ⟨_, rfl, allVisits_subset _ _ _, fun hpos _ => ?_⟩
    obtain ⟨rounds, rfl⟩ : ∃ r, rounds = r + 1 := ⟨rounds - 1, by omega⟩
    rw [allVisits]
    split
    · exact List.Subset.refl _
    · exact List.subset_append_left _ _

/-- More rounds than there are scripts change nothing. -/
theorem addScriptsFrom_eq {scripts : Datas} (h : scripts.length < rounds) (tx : Transaction) :
    addScriptsFrom c rounds tx scripts = addScriptsFrom c (scripts.length + 1) tx scripts := by
  have hall : ∀ rounds rounds' (tx : Transaction) (scripts : Datas), scripts.length < rounds → scripts.length < rounds' →
      addScriptsFrom c rounds tx scripts = addScriptsFrom c rounds' tx scripts := by
    intro rounds
    induction rounds with
    | zero => exact fun _ _ _ h => absurd h (Nat.not_lt_zero _)
    | succ rounds ih =>
      intro rounds' tx scripts h h'
      obtain ⟨rounds', rfl⟩ : ∃ r, rounds' = r + 1 := ⟨rounds' - 1, by omega⟩
      obtain ⟨_, hleft⟩ := @addScriptsRound_eq c tx scripts
      have hle := (@untaken_sublist c tx.inputs scripts).length_le
      unfold addScriptsFrom
      dsimp only
      rw [hleft]
      by_cases heq : (untaken c tx.inputs scripts).length = scripts.length
      · rw [if_pos heq, if_pos heq]
      · rw [if_neg heq, if_neg heq, ih rounds' _ _ (by omega) (by omega)]
  exact hall rounds _ tx scripts h (Nat.lt_succ_self _)

/-! ## What an input holds -/

/-- The visits change neither what the input spends nor its place. -/
theorem visits_core (input : TransactionInput) (scripts : Datas) : (visits c input scripts).core = input.core := by
  induction scripts generalizing input with
  | nil => rfl
  | cons script rest ih => rw [visits_cons, ih, visit, (addScriptToInput_visited c script input).core]

theorem redeems_visits {a : Datas} : Redeems c script (visits c input a) ↔ Redeems c script input := by
  have hcore := visits_core (c := c) input a
  rw [Redeems, Redeems, inputType_of_core hcore, (fields_of_core hcore).1]

theorem funds_visits {a : Datas} : Funds c script (visits c input a) ↔ Funds c script input := by
  have hcore := visits_core (c := c) input a
  rw [Funds, Funds, inputType_of_core hcore, (fields_of_core hcore).1]

theorem opens_congr {x y : TransactionInput} (htype : transactionInputType x = transactionInputType y)
    (hdata : x.scriptData = y.scriptData) : Opens c script x ↔ Opens c script y := by
  rw [Opens, Opens, htype, transactionInputScriptStack, transactionInputScriptStack, hdata]

/-- A visited script is compared with the script sig that it leaves. -/
theorem unlocks_visits {a : Datas} :
    Unlocks c script (visits c input a) ↔ Opens c script (visits c input (a ++ [script])) ∨ Funds c script input := by
  have hvisited := addScriptToInput_visited c script (visits c input a)
  have htype : transactionInputType (redeemedBy c script (visits c input a)) =
      transactionInputType (visits c input (a ++ [script])) := by
    rw [redeemedBy_type, visits_concat]
    exact (inputType_of_core hvisited.core).symm
  have hdata : (redeemedBy c script (visits c input a)).scriptData = (visits c input (a ++ [script])).scriptData := by
    rw [visits_concat]
    exact hvisited.scriptData.symm
  rw [Unlocks, funds_visits, opens_congr htype hdata]

variable (c) in
/-- Of the listed scripts no two have the same hash, and none names itself. -/
structure NoCollisions (scripts : Datas) : Prop where
  present : none ∉ scripts
  redeem : ∀ a ∈ scripts, ∀ b ∈ scripts, p2shPubScriptWithScript c a = p2shPubScriptWithScript c b → a = b
  witness : ∀ a ∈ scripts, ∀ b ∈ scripts, nestedP2wshScript c a = nestedP2wshScript c b → a = b
  fixpoint : ∀ a ∈ scripts, nestedP2wshScript c a ≠ a.toBytes

theorem NoCollisions.same {R S : Data} (h : NoCollisions c scripts) (hR : R ∈ scripts) (hS : S ∈ scripts)
    (hredeem : Redeems c R input) (hredeem' : Redeems c S input) : S = R :=
  h.redeem S hS R hR (hredeem'.2.symm.trans hredeem.2)

section

variable {v : Datas} {R : Data}

theorem scriptData_unredeemed (h : ∀ S ∈ v, ¬ Redeems c S input) : (visits c input v).scriptData = input.scriptData := by
  induction v using List.reverseRecOn with
  | nil => rfl
  | append_singleton v S ih =>
    have hS : ¬ Redeems c S (visits c input v) := fun hr => h S (by simp) (redeems_visits.mp hr)
    rw [visits_concat, visit, (addScriptToInput_visited c S _).scriptData, redeemedBy, if_neg hS]
    exact ih fun S hmem => h S (by simp [hmem])

theorem scriptData_redeemed (hcollisions : NoCollisions c scripts) (hv : v ⊆ scripts) (hR : R ∈ v) (hredeem : Redeems c R input) :
    (visits c input v).scriptData = some (scriptPush R) := by
  induction v using List.reverseRecOn with
  | nil => cases hR
  | append_singleton v S ih =>
    have hsub : v ⊆ scripts := fun x hx => hv (List.mem_append_left _ hx)
    rw [visits_concat, visit, (addScriptToInput_visited c S _).scriptData, redeemedBy]
    by_cases hS : Redeems c S (visits c input v)
    · have hsame := hcollisions.same (hv hR) (hv (List.mem_append_right _ List.mem_cons_self)) hredeem (redeems_visits.mp hS)
      rw [if_pos hS, hsame]
    · rw [if_neg hS]
      cases List.mem_append.mp hR with
      | inl hmem => exact ih hsub hmem
      | inr hmem =>
        rw [List.mem_singleton.mp hmem] at hredeem
        exact absurd (redeems_visits.mpr hredeem) hS

/-- The last push of a redeemed input is its redeem script. -/
theorem opens_redeemed (hcollisions : NoCollisions c scripts) (hv : v ⊆ scripts) (hlen : R.length < 2 ^ 32) (hR : R ∈ v)
    (hredeem : Redeems c R input) : Opens c script (visits c input v) ↔ nestedP2wshScript c script = R.toBytes := by
  have hdata := scriptData_redeemed hcollisions hv hR hredeem
  have hstack : transactionInputScriptStack (visits c input v) = [some R.toBytes] :=
    @scriptStack_written (visits c input v) [R] (by simpa using hlen) (by rw [hdata, writePushes, List.flatMap_singleton])
  rw [Opens, hstack, inputType_of_core (visits_core input v), hredeem.1]
  exact ⟨fun h => h.2.symm, fun h => ⟨rfl, h.symm⟩⟩

theorem opens_unredeemed (h : ∀ S ∈ v, ¬ Redeems c S input) : Opens c script (visits c input v) ↔ Opens c script input :=
  opens_congr (inputType_of_core (visits_core input v)) (scriptData_unredeemed h)

/-- The witness is the last script that became one, if any did. -/
theorem stackBytes_visits (input : TransactionInput) (v : Datas) :
    stackBytes (visits c input v) = stackBytes input ∨
      ∃ a S b, v = a ++ S :: b ∧ Unlocks c S (visits c input a) ∧ stackBytes (visits c input v) = [S.toBytes] := by
  induction v using List.reverseRecOn with
  | nil => exact .inl rfl
  | append_singleton v S ih =>
    have hvisited := addScriptToInput_visited c S (visits c input v)
    rw [visits_concat]
    by_cases hS : Unlocks c S (visits c input v)
    · refine .inr ⟨v, S, [], rfl, hS, ?_⟩
      rw [visit, stackBytes, hvisited.unlocked hS]
      rfl
    · have hkept : stackBytes (visit c (visits c input v) S) = stackBytes (visits c input v) :=
        congrArg (List.map Data.toBytes) (hvisited.kept hS)
      rw [hkept]
      cases ih with
      | inl ih => exact .inl ih
      | inr ih =>
        obtain ⟨a, S', b, hsplit, hun, hstack⟩ := ih
        exact .inr ⟨a, S', b ++ [S], by rw [hsplit, List.append_assoc, List.cons_append], hun, hstack⟩

/-- After a script became the witness, the witness is that or one that came later. -/
theorem stackBytes_unlocked {a b : Datas} {W : Data} (h : Unlocks c W (visits c input a)) :
    ∃ a' S b', a ++ W :: b = a' ++ S :: b' ∧ a <+: a' ∧ Unlocks c S (visits c input a') ∧
      stackBytes (visits c input (a ++ W :: b)) = [S.toBytes] := by
  have hsplit : visits c input (a ++ W :: b) = visits c (visits c input (a ++ [W])) b := by
    rw [← visits_append, List.append_assoc, List.singleton_append]
  have hfirst : stackBytes (visits c input (a ++ [W])) = [W.toBytes] := by
    rw [visits_concat, visit, stackBytes, (addScriptToInput_visited c W _).unlocked h]
    rfl
  cases stackBytes_visits (c := c) (visits c input (a ++ [W])) b with
  | inl hsame => exact ⟨a, W, b, rfl, List.prefix_rfl, h, by rw [hsplit, hsame, hfirst]⟩
  | inr hlater =>
    obtain ⟨a', S, b', rfl, hun, hstack⟩ := hlater
    refine ⟨a ++ W :: a', S, b', by simp, List.prefix_append _ _, ?_, by rw [hsplit, hstack]⟩
    rwa [← visits_append, List.append_assoc, List.singleton_append] at hun

end

/-! ## Which scripts become the witness -/

section

variable {a v : Datas} {R S : Data} (hcollisions : NoCollisions c scripts) (hlengths : ∀ S ∈ scripts, S.length < 2 ^ 32)

include hcollisions hlengths

theorem unlocks_redeemed (ha : a ++ [S] ⊆ scripts) (hR : R ∈ a ++ [S]) (hredeem : Redeems c R input) :
    Unlocks c S (visits c input a) ↔ nestedP2wshScript c S = R.toBytes := by
  rw [unlocks_visits, opens_redeemed hcollisions ha (hlengths R (ha hR)) hR hredeem]
  exact or_iff_left (not_funds_of_scriptHash hredeem.1)

omit hcollisions hlengths in
theorem unlocks_unredeemed (h : ∀ R ∈ a ++ [S], ¬ Redeems c R input) :
    Unlocks c S (visits c input a) ↔ Opens c S input ∨ Funds c S input := by
  rw [unlocks_visits, opens_unredeemed h]

/-- The script that became the witness belongs to the redeem script, unless that had not
    come yet. -/
theorem unlocks_nested (ha : a ++ [S] ⊆ scripts) (hR : R ∈ scripts) (hredeem : Redeems c R input)
    (h : Unlocks c S (visits c input a)) :
    nestedP2wshScript c S = R.toBytes ∨ ((∀ T ∈ a ++ [S], ¬ Redeems c T input) ∧ Opens c S input) := by
  by_cases hcame : ∃ T ∈ a ++ [S], Redeems c T input
  · obtain ⟨T, hT, hT'⟩ := hcame
    have hsame := hcollisions.same hR (ha hT) hredeem hT'
    rw [unlocks_redeemed hcollisions hlengths ha hT hT', hsame] at h
    exact .inl h
  · have hnone : ∀ T ∈ a ++ [S], ¬ Redeems c T input := fun T hT hr => hcame ⟨T, hT, hr⟩
    rw [unlocks_unredeemed hnone] at h
    exact .inr ⟨hnone, h.resolve_right (not_funds_of_scriptHash hredeem.1)⟩

end

variable (c) in
/-- The witness script of an input, by the list as a set. -/
def WitnessScript (scripts : Datas) (input : TransactionInput) (S : Data) : Prop :=
  Funds c S input ∨ (∃ R ∈ scripts, Redeems c R input ∧ nestedP2wshScript c S = R.toBytes) ∨
    ((∀ R ∈ scripts, ¬ Redeems c R input) ∧ Opens c S input)

variable (c) in
/-- What the input holds when every script has found its place. -/
structure Placed (scripts : Datas) (before after : TransactionInput) : Prop where
  core : after.core = before.core
  redeemed : ∀ R ∈ scripts, Redeems c R before → after.scriptData = some (scriptPush R)
  unredeemed : (∀ R ∈ scripts, ¬ Redeems c R before) → after.scriptData = before.scriptData
  witness : ∀ S ∈ scripts, WitnessScript c scripts before S → stackBytes after = [S.toBytes]
  unwitnessed : (∀ S ∈ scripts, ¬ WitnessScript c scripts before S) → stackBytes after = stackBytes before

theorem contents_eq {x y : TransactionInput} (hcore : x.core = y.core) (hdata : x.scriptData = y.scriptData)
    (hstack : stackBytes x = stackBytes y) : x.contents = y.contents := by
  obtain ⟨_, hhash, hindex, hsequence⟩ := fields_of_core hcore
  unfold TransactionInput.contents
  unfold stackBytes at hstack
  rw [hhash, hindex, hsequence, hdata, hstack]

/-- The order of the list is not a part of it. -/
theorem Placed.unique {scripts' : Datas} {x y y' : TransactionInput} (hsame : ∀ S, S ∈ scripts ↔ S ∈ scripts')
    (h : Placed c scripts x y) (h' : Placed c scripts' x y') : y.contents = y'.contents := by
  have hscript : ∀ S, WitnessScript c scripts x S ↔ WitnessScript c scripts' x S := by
    intro S
    unfold WitnessScript
    simp only [hsame]
  refine contents_eq (h.core.trans h'.core.symm) ?_ ?_
  · by_cases hredeem : ∃ R ∈ scripts, Redeems c R x
    · obtain ⟨R, hR, hR'⟩ := hredeem
      rw [h.redeemed R hR hR', h'.redeemed R ((hsame R).mp hR) hR']
    · have hnone : ∀ R ∈ scripts, ¬ Redeems c R x := fun R hR hr => hredeem ⟨R, hR, hr⟩
      rw [h.unredeemed hnone, h'.unredeemed fun R hR => hnone R ((hsame R).mpr hR)]
  · by_cases hwitness : ∃ S ∈ scripts, WitnessScript c scripts x S
    · obtain ⟨S, hS, hS'⟩ := hwitness
      rw [h.witness S hS hS', h'.witness S ((hsame S).mp hS) ((hscript S).mp hS')]
    · have hnone : ∀ S ∈ scripts, ¬ WitnessScript c scripts x S := fun S hS hw => hwitness ⟨S, hS, hw⟩
      rw [h.unwitnessed hnone, h'.unwitnessed fun S hS hw => hnone S ((hsame S).mpr hS) ((hscript S).mpr hw)]

/-! ## When the order does not count -/

theorem split_subset {v a b : Datas} {S : Data} (h : v = a ++ S :: b) : a ++ [S] ⊆ v := by
  intro T hT
  rw [h]
  cases List.mem_append.mp hT with
  | inl hT => exact List.mem_append_left _ hT
  | inr hT => exact List.mem_append_right _ (List.mem_singleton.mp hT ▸ List.mem_cons_self)

variable (c) in
/-- A listed script that the input takes for its witness as long as its own redeem script,
    `R`, has not come. -/
def Stray (R V : Data) (input : TransactionInput) : Prop :=
  Opens c V input ∧ ¬ Redeems c V input ∧ nestedP2wshScript c V ≠ R.toBytes

instance (R V : Data) (input : TransactionInput) : Decidable (Stray c R V input) := inferInstanceAs (Decidable (_ ∧ _))

variable (c) in
structure Unhindered (inputs : List TransactionInput) (scripts : Datas) : Prop where
  /-- The witness script of a nested input: the input holds its redeem script, or no input
      takes the witness script at first, or the input holds it already and takes no other. -/
  witness : ∀ x ∈ inputs, ∀ R ∈ scripts, Redeems c R x → ∀ W ∈ scripts, nestedP2wshScript c W = R.toBytes →
    Opens c W x ∨ (∀ y ∈ inputs, ¬ Takes c W y) ∨ (stackBytes x = [W.toBytes] ∧ ∀ V ∈ scripts, ¬ Stray c R V x)
  /-- An input whose witness script is not listed takes no other that it does not hold. -/
  stray : ∀ x ∈ inputs, ∀ R ∈ scripts, Redeems c R x → (∀ W ∈ scripts, nestedP2wshScript c W ≠ R.toBytes) →
    ∀ V ∈ scripts, Stray c R V x → stackBytes x = [V.toBytes]

theorem witnessScript_unredeemed {x : TransactionInput} (hnone : ∀ R ∈ scripts, ¬ Redeems c R x) (S : Data) :
    WitnessScript c scripts x S ↔ Opens c S x ∨ Funds c S x := by
  unfold WitnessScript
  constructor
  · intro h
    rcases h with h | ⟨R, hR, hR', _⟩ | ⟨_, h⟩
    · exact .inr h
    · exact absurd hR' (hnone R hR)
    · exact .inl h
  · intro h
    exact h.elim (fun h => .inr (.inr ⟨hnone, h⟩)) .inl

theorem witnessScript_redeemed {x : TransactionInput} (hcollisions : NoCollisions c scripts) {R : Data} (hR : R ∈ scripts)
    (hredeem : Redeems c R x) (S : Data) : WitnessScript c scripts x S ↔ nestedP2wshScript c S = R.toBytes := by
  unfold WitnessScript
  constructor
  · intro h
    rcases h with h | ⟨T, hT, hT', h⟩ | ⟨h, _⟩
    · exact absurd h (not_funds_of_scriptHash hredeem.1)
    · rw [h, hcollisions.same hR hT hredeem hT']
    · exact absurd hredeem (h R hR)
  · exact fun h => .inr (.inl ⟨R, hR, hredeem, h⟩)

section

variable {x : TransactionInput} {v : Datas} (hcollisions : NoCollisions c scripts) (hsub : v ⊆ scripts) (hall : scripts ⊆ v)

include hcollisions hsub

omit hall in
/-- A script that becomes the witness is that of the redeem script `R`, or a stray one. -/
theorem unlocks_cases (hlengths : ∀ S ∈ scripts, S.length < 2 ^ 32) {R : Data} (hR : R ∈ scripts) (hredeem : Redeems c R x)
    {a : Datas} {S : Data} {b : Datas} (hab : v = a ++ S :: b) (hun : Unlocks c S (visits c x a)) :
    nestedP2wshScript c S = R.toBytes ∨ (Stray c R S x ∧ ∀ T ∈ a ++ [S], ¬ Redeems c T x) := by
  by_cases hS : nestedP2wshScript c S = R.toBytes
  · exact .inl hS
  · obtain ⟨hnone, hopens⟩ :=
      (unlocks_nested hcollisions hlengths (List.Subset.trans (split_subset hab) hsub) hR hredeem hun).resolve_left hS
    exact .inr ⟨⟨hopens, hnone S (List.mem_append_right _ List.mem_cons_self), hS⟩, hnone⟩

include hall

/-- An input that no listed script redeems. -/
theorem placed_unredeemed (hnone : ∀ R ∈ scripts, ¬ Redeems c R x) : Placed c scripts x (visits c x v) := by
  have hv : ∀ R ∈ v, ¬ Redeems c R x := fun R hR => hnone R (hsub hR)
  have hscript := witnessScript_unredeemed hnone
  have hsame : ∀ S ∈ scripts, ∀ T ∈ scripts, Opens c S x ∨ Funds c S x → Opens c T x ∨ Funds c T x → T = S := by
    intro S hS T hT h h'
    refine hcollisions.witness T hT S hS ?_
    cases h with
    | inl h =>
      have h' := h'.resolve_right (not_funds_of_scriptHash h.1)
      exact h'.2.symm.trans h.2
    | inr h =>
      have h' := h'.resolve_left fun ho => not_funds_of_scriptHash ho.1 h
      exact h'.2.symm.trans h.2
  refine ⟨visits_core x v, fun R hR hR' => absurd hR' (hnone R hR), fun _ => scriptData_unredeemed hv, ?_, ?_⟩
  · intro S hS hS'
    rw [hscript] at hS'
    obtain ⟨a, b, hab⟩ := List.append_of_mem (hall hS)
    have hun : Unlocks c S (visits c x a) :=
      (unlocks_unredeemed fun R hR => hv R (split_subset hab hR)).mpr hS'
    obtain ⟨a', T, b', hab', _, hT, hstack⟩ := stackBytes_unlocked (b := b) hun
    rw [hab, hstack]
    have hT' := (unlocks_unredeemed fun R hR => hv R (split_subset (hab.trans hab') hR)).mp hT
    have hTmem : T ∈ scripts := hsub (split_subset (hab.trans hab') (List.mem_append_right _ List.mem_cons_self))
    rw [hsame S hS T hTmem hS' hT']
  · intro hnowitness
    cases stackBytes_visits (c := c) x v with
    | inl h => exact h
    | inr h =>
      obtain ⟨a, S, b, hab, hun, _⟩ := h
      have hS := (unlocks_unredeemed fun R hR => hv R (split_subset hab hR)).mp hun
      have hmem : S ∈ scripts := hsub (split_subset hab (List.mem_append_right _ List.mem_cons_self))
      exact absurd ((hscript S).mpr hS) (hnowitness S hmem)

/-- An input whose redeem script `R` is listed. -/
theorem placed_redeemed (hlengths : ∀ S ∈ scripts, S.length < 2 ^ 32) {R : Data} (hR : R ∈ scripts) (hredeem : Redeems c R x)
    (hwitness : ∀ W ∈ scripts, nestedP2wshScript c W = R.toBytes →
      Opens c W x ∨ (∃ a b, v = a ++ W :: b ∧ R ∈ a) ∨ (stackBytes x = [W.toBytes] ∧ ∀ V ∈ scripts, ¬ Stray c R V x))
    (hstray : (∀ W ∈ scripts, nestedP2wshScript c W ≠ R.toBytes) → ∀ V ∈ scripts, Stray c R V x → stackBytes x = [V.toBytes]) :
    Placed c scripts x (visits c x v) := by
  have hscript := witnessScript_redeemed hcollisions hR hredeem
  have hcases := fun a S b (hab : v = a ++ S :: b) => unlocks_cases hcollisions hsub hlengths hR hredeem hab
  have hmem : ∀ a S b, v = a ++ S :: b → S ∈ scripts := fun a S b hab =>
    hsub (split_subset hab (List.mem_append_right _ List.mem_cons_self))
  refine ⟨visits_core x v, fun T hT hT' => ?_, fun hnone => absurd hredeem (hnone R hR), fun W hW hW' => ?_, fun hnone => ?_⟩
  · rw [hcollisions.same hR hT hredeem hT']
    exact scriptData_redeemed hcollisions hsub (hall hR) hredeem
  · rw [hscript W] at hW'
    have hsame : ∀ S ∈ scripts, nestedP2wshScript c S = R.toBytes → S = W := fun S hS h =>
      hcollisions.witness S hS W hW (h.trans hW'.symm)
    rcases hwitness W hW hW' with hopens | ⟨a, b, hab, hRa⟩ | ⟨hheld, hnostray⟩
    · -- the input names `W` from the start, so nothing else becomes its witness
      have hnostray : ∀ S, ¬ Stray c R S x := fun S hstray => hstray.2.2 (hstray.1.2.symm.trans (hopens.2.trans hW'))
      obtain ⟨a, b, hab⟩ := List.append_of_mem (hall hW)
      have hun : Unlocks c W (visits c x a) := by
        by_cases hcame : ∃ T ∈ a ++ [W], Redeems c T x
        · obtain ⟨T, hT, hT'⟩ := hcame
          rw [unlocks_redeemed hcollisions hlengths (List.Subset.trans (split_subset hab) hsub) hT hT', hW']
          rw [hcollisions.same hR (hsub (split_subset hab hT)) hredeem hT']
        · exact (unlocks_unredeemed fun T hT hr => hcame ⟨T, hT, hr⟩).mpr (.inl hopens)
      obtain ⟨a', S, b', hab', _, hS, hstack⟩ := stackBytes_unlocked (b := b) hun
      rw [hab, hstack]
      have hnested := (hcases a' S b' (hab.trans hab') hS).resolve_right fun h => hnostray S h.1
      rw [hsame S (hmem a' S b' (hab.trans hab')) hnested]
    · -- `W` comes after `R`, and what becomes the witness later does too
      have hun : Unlocks c W (visits c x a) :=
        (unlocks_redeemed hcollisions hlengths (List.Subset.trans (split_subset hab) hsub) (List.mem_append_left _ hRa) hredeem).mpr hW'
      obtain ⟨a', S, b', hab', hpre, hS, hstack⟩ := stackBytes_unlocked (b := b) hun
      rw [hab, hstack]
      have hnested := (hcases a' S b' (hab.trans hab') hS).resolve_right fun h =>
        h.2 R (List.mem_append_left _ (hpre.subset hRa)) hredeem
      rw [hsame S (hmem a' S b' (hab.trans hab')) hnested]
    · cases stackBytes_visits (c := c) x v with
      | inl h => rw [h, hheld]
      | inr h =>
        obtain ⟨a, S, b, hab, hS, hstack⟩ := h
        have hnested := (hcases a S b hab hS).resolve_right fun h => hnostray S (hmem a S b hab) h.1
        rw [hstack, hsame S (hmem a S b hab) hnested]
  · have hnonested : ∀ W ∈ scripts, nestedP2wshScript c W ≠ R.toBytes := fun W hW h => hnone W hW ((hscript W).mpr h)
    cases stackBytes_visits (c := c) x v with
    | inl h => exact h
    | inr h =>
      obtain ⟨a, S, b, hab, hS, hstack⟩ := h
      have hS' := (hcases a S b hab hS).resolve_left (hnonested S (hmem a S b hab))
      rw [hstack, hstray hnonested S (hmem a S b hab) hS'.1]

end

/-! ## The whole call -/

theorem eq_of_toBytes {a b : Data} (ha : a ≠ none) (hb : b ≠ none) (h : a.toBytes = b.toBytes) : a = b := by
  cases a with
  | none => exact absurd rfl ha
  | some a =>
    cases b with
    | none => exact absurd rfl hb
    | some b => exact congrArg some h

theorem NoCollisions.ne_none (h : NoCollisions c scripts) {S : Data} (hS : S ∈ scripts) : S ≠ none := fun hnone => h.present (hnone ▸ hS)

section

variable {x : TransactionInput} (hcollisions : NoCollisions c scripts) (hlengths : ∀ S ∈ scripts, S.length < 2 ^ 32)

include hcollisions hlengths

/-- A witness script that no input takes at first comes after the redeem script, in the
    first round or in the second. -/
theorem visited_after_redeem (hx : x ∈ inputs) {R W : Data} (hR : R ∈ scripts) (hW : W ∈ scripts) (hredeem : Redeems c R x)
    (hnested : nestedP2wshScript c W = R.toBytes) (huntaken : ∀ y ∈ inputs, ¬ Takes c W y) :
    ∃ a b, allVisits c (scripts.length + 1) inputs scripts = a ++ W :: b ∧ R ∈ a := by
  obtain ⟨more, hmore, _, hnext⟩ := allVisits_eq (c := c) scripts.length inputs scripts
  obtain ⟨a, b, hab⟩ := List.append_of_mem hW
  by_cases hRa : R ∈ a
  · exact ⟨a, b ++ more, by rw [hmore, hab, List.append_assoc, List.cons_append], hRa⟩
  -- no input takes `W` when it is visited before `R`
  have hleft : W ∈ untaken c inputs scripts := by
    rw [hab]
    refine mem_untaken fun y hy htakes => huntaken y hy ?_
    rcases htakes with h | h | h
    · exact .inl (redeems_visits.mp h)
    · by_cases hcame : ∃ T ∈ a, Redeems c T y
      · obtain ⟨T, hT, hT'⟩ := hcame
        have ha : a ⊆ scripts := fun S hS => hab ▸ List.mem_append_left _ hS
        rw [opens_redeemed hcollisions ha (hlengths T (ha hT)) hT hT', hnested] at h
        have hsame := eq_of_toBytes (hcollisions.ne_none hR) (hcollisions.ne_none (ha hT)) h
        exact absurd (hsame ▸ hT) hRa
      · exact .inr (.inl ((opens_unredeemed fun T hT hr => hcame ⟨T, hT, hr⟩).mp h))
    · exact .inr (.inr (funds_visits.mp h))
  have hplaced : (untaken c inputs scripts).length ≠ scripts.length := by
    intro hlen
    have hkept := (untaken_sublist inputs scripts).eq_of_length hlen
    obtain ⟨a, b, _, hnone⟩ := of_mem_untaken (hkept.symm ▸ hR : R ∈ untaken c inputs scripts)
    exact hnone x hx (.inl (redeems_visits.mpr hredeem))
  obtain ⟨a', b', hab'⟩ := List.append_of_mem (hnext (List.length_pos_of_mem hR) hplaced hleft)
  exact ⟨scripts ++ a', b', by rw [hmore, hab', List.append_assoc], List.mem_append_left _ hR⟩

theorem placed_of_unhindered (hunhindered : Unhindered c inputs scripts) (hx : x ∈ inputs) :
    Placed c scripts x (visits c x (allVisits c (scripts.length + 1) inputs scripts)) := by
  have hsub := allVisits_subset (c := c) (scripts.length + 1) inputs scripts
  have hall : scripts ⊆ allVisits c (scripts.length + 1) inputs scripts := by
    obtain ⟨more, hmore, _⟩ := allVisits_eq (c := c) scripts.length inputs scripts
    rw [hmore]
    exact List.subset_append_left _ _
  by_cases hredeem : ∃ R ∈ scripts, Redeems c R x
  · obtain ⟨R, hR, hR'⟩ := hredeem
    refine placed_redeemed hcollisions hsub hall hlengths hR hR' (fun W hW hnested => ?_) (hunhindered.stray x hx R hR hR')
    rcases hunhindered.witness x hx R hR hR' W hW hnested with h | h | h
    · exact .inl h
    · exact .inr (.inl (visited_after_redeem hcollisions hlengths hx hR hW hR' hnested h))
    · exact .inr (.inr h)
  · exact placed_unredeemed hcollisions hsub hall fun R hR hr => hredeem ⟨R, hR, hr⟩

end

theorem transactionAddScripts_inputs (tx : Transaction) (scripts : Datas) :
    (transactionAddScripts c tx scripts).1 =
      { tx with inputs := tx.inputs.map fun input => visits c input (allVisits c (scripts.length + 1) tx.inputs scripts) } :=
  @addScriptsFrom_inputs c (scripts.length + 1) tx scripts

/-- What is serialized of an input. -/
theorem transactionData_congr {a b : Transaction} (hversion : a.version = b.version) (houtputs : a.outputs = b.outputs)
    (hlocktime : a.locktime = b.locktime)
    (hinputs : a.inputs.map TransactionInput.contents = b.inputs.map TransactionInput.contents) :
    transactionData a = transactionData b := by
  have hdata : ∀ inputs : List TransactionInput, inputs.flatMap transactionInputData =
      (inputs.map TransactionInput.contents).flatMap fun input => input.previousTransactionHash ++ uint32D input.outputIndex.toNat ++
        varIntD input.scriptData.length ++ input.scriptData ++ uint32D input.sequence.toNat := by
    intro inputs
    rw [List.flatMap_map]
    rfl
  have hwitness : ∀ inputs : List TransactionInput, inputs.flatMap transactionInputWitnessData =
      (inputs.map TransactionInput.contents).flatMap fun input =>
        varIntD input.witnessStack.length ++ input.witnessStack.flatMap fun item => varIntD item.length ++ item := by
    intro inputs
    rw [List.flatMap_map]
    refine congrArg (fun f => inputs.flatMap f) (funext fun input => ?_)
    show varIntD input.witnessStack.length ++ input.witnessStack.flatMap witnessItemData =
      varIntD (input.witnessStack.map Data.toBytes).length ++ (input.witnessStack.map Data.toBytes).flatMap _
    rw [List.length_map, List.flatMap_map]
    rfl
  have hany : ∀ tx : Transaction, transactionHasWitnessData tx =
      (tx.inputs.map TransactionInput.contents).any fun input => input.witnessStack.length ≠ 0 := by
    intro tx
    rw [List.any_map]
    unfold transactionHasWitnessData
    congr 1
    funext input
    show decide (input.witnessStack.length ≠ 0) = decide ((input.witnessStack.map Data.toBytes).length ≠ 0)
    rw [List.length_map]
  have hlen : a.inputs.length = b.inputs.length := by
    rw [← List.length_map TransactionInput.contents, hinputs, List.length_map]
  unfold transactionData
  rw [hany, hany, hdata, hdata, hwitness, hwitness, hinputs, hversion, houtputs, hlocktime, hlen]

variable (c) in
/-- The input holds its scripts, as far as they are listed. -/
structure HoldsScripts (scripts : Datas) (before after : TransactionInput) : Prop where
  redeem : ∀ R ∈ scripts, Redeems c R before → after.scriptData = some (scriptPush R)
  nested : ∀ R ∈ scripts, Redeems c R before → ∀ W ∈ scripts, nestedP2wshScript c W = R.toBytes → stackBytes after = [W.toBytes]
  native : ∀ W ∈ scripts, Funds c W before → stackBytes after = [W.toBytes]

variable (c) in
/-- Any order of the scripts gives the same data and leaves every input with its scripts. -/
structure OrderFree (tx : Transaction) (scripts : Datas) : Prop where
  same : ∀ order : Datas, order.Perm scripts →
    transactionData (transactionAddScripts c tx order).1 = transactionData (transactionAddScripts c tx scripts).1
  complete : ∀ order : Datas, order.Perm scripts → ∀ (i : Nat) (x y : TransactionInput), tx.inputs[i]? = some x →
    (transactionAddScripts c tx order).1.inputs[i]? = some y → HoldsScripts c scripts x y

theorem Placed.holdsScripts {x y : TransactionInput} (h : Placed c scripts x y) : HoldsScripts c scripts x y where
  redeem := h.redeemed
  nested R hR hredeem W hW hnested := h.witness W hW (.inr (.inl ⟨R, hR, hredeem, hnested⟩))
  native W hW hpays := h.witness W hW (.inl hpays)

theorem Unhindered.perm {order : Datas} (hperm : order.Perm scripts) (h : Unhindered c inputs scripts) : Unhindered c inputs order where
  witness x hx R hR hredeem W hW hnested :=
    (h.witness x hx R (hperm.subset hR) hredeem W (hperm.subset hW) hnested).imp_right
      (.imp_right fun h => ⟨h.1, fun V hV => h.2 V (hperm.subset hV)⟩)
  stray x hx R hR hredeem hnone V hV hstray :=
    h.stray x hx R (hperm.subset hR) hredeem (fun W hW => hnone W (hperm.symm.subset hW)) V (hperm.subset hV) hstray

theorem NoCollisions.perm {order : Datas} (hperm : order.Perm scripts) (h : NoCollisions c scripts) : NoCollisions c order where
  present hmem := h.present (hperm.subset hmem)
  redeem a ha b hb := h.redeem a (hperm.subset ha) b (hperm.subset hb)
  witness a ha b hb := h.witness a (hperm.subset ha) b (hperm.subset hb)
  fixpoint a ha := h.fixpoint a (hperm.subset ha)

theorem HoldsScripts.of_subset {order : Datas} {x y : TransactionInput} (hsub : scripts ⊆ order) (h : HoldsScripts c order x y) :
    HoldsScripts c scripts x y where
  redeem R hR := h.redeem R (hsub hR)
  nested R hR hredeem W hW := h.nested R (hsub hR) hredeem W (hsub hW)
  native W hW := h.native W (hsub hW)

theorem orderFree_of_unhindered (hcollisions : NoCollisions c scripts) (hlengths : ∀ S ∈ scripts, S.length < 2 ^ 32)
    (h : Unhindered c tx.inputs scripts) : OrderFree c tx scripts := by
  have hplaced : ∀ order : Datas, order.Perm scripts → ∀ x ∈ tx.inputs,
      Placed c order x (visits c x (allVisits c (order.length + 1) tx.inputs order)) := fun order hperm x hx =>
    placed_of_unhindered (hcollisions.perm hperm) (fun S hS => hlengths S (hperm.subset hS)) (h.perm hperm) hx
  refine ⟨fun order hperm => ?_, fun order hperm i x y hx hy => ?_⟩
  · rw [transactionAddScripts_inputs, transactionAddScripts_inputs]
    refine transactionData_congr rfl rfl rfl ?_
    dsimp only
    rw [List.map_map, List.map_map]
    exact List.map_congr_left fun x hx =>
      (hplaced order hperm x hx).unique (fun S => hperm.mem_iff) (hplaced scripts (List.Perm.refl _) x hx)
  · rw [transactionAddScripts_inputs] at hy
    dsimp only at hy
    rw [List.getElem?_map, hx] at hy
    obtain rfl := Option.some.inj hy
    exact (hplaced order hperm x (List.mem_of_getElem? hx)).holdsScripts.of_subset hperm.symm.subset

/-! ## An order that is not like the list's own -/

/-- The witness is written so that it reads back. -/
def WitnessDelimited (input : TransactionInput) : Prop :=
  VarIntOk input.witnessStack.length ∧ ∀ item ∈ input.witnessStack, VarIntOk item.length

theorem reads_witnessStack {input : TransactionInput} (h : WitnessDelimited input) :
    Reads (readCounted readVarBytes) (transactionInputWitnessData input) (input.witnessStack.map parsedItem) := by
  have hshort : IsCounted Shortest (IsVarBytes Shortest) (input.witnessStack.map parsedItem) (transactionInputWitnessData input) :=
    isCounted_map h.1 fun item hitem => isVarBytes_parsedItem (h.2 item hitem)
  have hvar : ∀ {n p}, Shortest n p → IsVarInt n p := fun h => h.1
  exact (grammar_readCounted grammar_readVarBytes).reads (hshort.mono hvar (IsVarBytes.mono hvar))

theorem stackBytes_of_parsedItem {x y : TransactionInput} (h : x.witnessStack.map parsedItem = y.witnessStack.map parsedItem) :
    stackBytes x = stackBytes y := by
  have hparsed := congrArg (List.map Data.toBytes) h
  rwa [List.map_map, List.map_map] at hparsed

/-- Two ways of filling the witnesses of the same inputs, told apart by the data. -/
theorem stackBytes_of_transactionData {f g : TransactionInput → TransactionInput}
    (hinput : ∀ x ∈ tx.inputs, transactionInputData (f x) = transactionInputData (g x))
    (hf : ∀ x ∈ tx.inputs, WitnessDelimited (f x)) (hg : ∀ x ∈ tx.inputs, WitnessDelimited (g x))
    (h : transactionData { tx with inputs := tx.inputs.map f } = transactionData { tx with inputs := tx.inputs.map g }) :
    ∀ x ∈ tx.inputs, stackBytes (f x) = stackBytes (g x) := by
  have hinputs : countedData transactionInputData (tx.inputs.map f) = countedData transactionInputData (tx.inputs.map g) := by
    rw [countedData, countedData, List.length_map, List.length_map, List.flatMap_map, List.flatMap_map, List.flatMap, List.flatMap,
      List.map_congr_left hinput]
  -- a transaction without a witness is shorter
  have hshorter : ∀ f g : TransactionInput → TransactionInput,
      countedData transactionInputData (tx.inputs.map f) = countedData transactionInputData (tx.inputs.map g) →
      transactionHasWitnessData { tx with inputs := tx.inputs.map f } = true →
      transactionHasWitnessData { tx with inputs := tx.inputs.map g } = false →
      transactionData { tx with inputs := tx.inputs.map f } ≠ transactionData { tx with inputs := tx.inputs.map g } := by
    intro f g hinputs hf hg heq
    have hlen := congrArg List.length heq
    rw [transactionData_eq, transactionData_eq, hf, hg] at hlen
    simp only [bodyData, hinputs, witnessSectionData, List.length_append, Bool.false_eq_true, if_true, if_false, List.length_cons,
      List.length_nil] at hlen
    omega
  have hflag : transactionHasWitnessData { tx with inputs := tx.inputs.map f } =
      transactionHasWitnessData { tx with inputs := tx.inputs.map g } := by
    cases hf' : transactionHasWitnessData { tx with inputs := tx.inputs.map f } with
    | true =>
      cases hg' : transactionHasWitnessData { tx with inputs := tx.inputs.map g } with
      | true => rfl
      | false => exact absurd h (hshorter f g hinputs hf' hg')
    | false =>
      cases hg' : transactionHasWitnessData { tx with inputs := tx.inputs.map g } with
      | true => exact absurd h.symm (hshorter g f hinputs.symm hg' hf')
      | false => rfl
  have hstacks : (tx.inputs.map f).map (fun x => x.witnessStack.map parsedItem) =
      (tx.inputs.map g).map fun x => x.witnessStack.map parsedItem := by
    cases hg' : transactionHasWitnessData { tx with inputs := tx.inputs.map g } with
    | true =>
      rw [transactionData_eq, transactionData_eq, hflag, hg'] at h
      simp only [bodyData, hinputs, witnessSectionData, if_true] at h
      have hsection := List.append_cancel_right (List.append_cancel_left (List.append_cancel_left (List.append_cancel_left
        (List.append_cancel_left h))))
      refine Reads.flatMap_inj (fun input => ?_) (fun x hx => reads_witnessStack ?_) (fun x hx => reads_witnessStack ?_) hsection
      · exact fun hnil => varIntD_ne_nil _ (List.append_eq_nil_iff.mp hnil).1
      · obtain ⟨x', hx', rfl⟩ := List.mem_map.mp hx
        exact hf x' hx'
      · obtain ⟨x', hx', rfl⟩ := List.mem_map.mp hx
        exact hg x' hx'
    | false =>
      rw [hg'] at hflag
      have hempty : ∀ f : TransactionInput → TransactionInput, transactionHasWitnessData { tx with inputs := tx.inputs.map f } = false →
          ∀ x ∈ tx.inputs, (f x).witnessStack = [] := by
        intro f hf x hx
        have hnone := List.any_eq_false.mp hf (f x) (List.mem_map_of_mem hx)
        simpa using hnone
      rw [List.map_map, List.map_map]
      refine List.map_congr_left fun x hx => ?_
      dsimp only [Function.comp]
      rw [hempty f hflag x hx, hempty g hg' x hx]
  rw [List.map_map, List.map_map] at hstacks
  exact fun x hx => stackBytes_of_parsedItem (List.map_inj_left.mp hstacks x hx)

theorem WitnessDelimited.visits {x : TransactionInput} {v : Datas} (h : WitnessDelimited x) (hv : ∀ S ∈ v, VarIntOk S.length) :
    WitnessDelimited (visits c x v) := by
  induction v using List.reverseRecOn with
  | nil => exact h
  | append_singleton v S ih =>
    have hvisited := addScriptToInput_visited c S (BitcoinSpoon.visits c x v)
    rw [visits_concat, visit]
    by_cases hS : Unlocks c S (BitcoinSpoon.visits c x v)
    · rw [WitnessDelimited, hvisited.unlocked hS]
      refine ⟨varIntOk (n := 1) (by decide) (Or.inl (by decide)), fun item hitem => ?_⟩
      rw [List.mem_singleton.mp hitem]
      exact hv S (List.mem_append_right _ List.mem_cons_self)
    · rw [WitnessDelimited, hvisited.kept hS]
      exact ih fun T hT => hv T (List.mem_append_left _ hT)

section

variable {x : TransactionInput} {v v' : Datas} {R V W : Data} (hcollisions : NoCollisions c scripts)

include hcollisions

/-- Visits of all the scripts leave the same script sig. -/
theorem transactionInputData_visits (hsub : v ⊆ scripts) (hall : scripts ⊆ v) (hsub' : v' ⊆ scripts) (hall' : scripts ⊆ v') :
    transactionInputData (visits c x v) = transactionInputData (visits c x v') := by
  have hdata : (visits c x v).scriptData = (visits c x v').scriptData := by
    by_cases hredeem : ∃ R ∈ scripts, Redeems c R x
    · obtain ⟨R, hR, hR'⟩ := hredeem
      rw [scriptData_redeemed hcollisions hsub (hall hR) hR', scriptData_redeemed hcollisions hsub' (hall' hR) hR']
    · have hnone : ∀ R ∈ scripts, ¬ Redeems c R x := fun R hR hr => hredeem ⟨R, hR, hr⟩
      rw [scriptData_unredeemed fun R hR => hnone R (hsub hR), scriptData_unredeemed fun R hR => hnone R (hsub' hR)]
  obtain ⟨_, hhash, hindex, hsequence⟩ := fields_of_core ((visits_core (c := c) x v).trans (visits_core x v').symm)
  unfold transactionInputData
  rw [hdata, hhash, hindex, hsequence]

variable (hlengths : ∀ S ∈ scripts, S.length < 2 ^ 32) (hR : R ∈ scripts) (hredeem : Redeems c R x)

include hlengths hR hredeem

/-- A stray script that is visited first stays the witness. -/
theorem stackBytes_stray_first (hv : V :: v ⊆ scripts) (hnone : ∀ W ∈ scripts, nestedP2wshScript c W ≠ R.toBytes)
    (hstray : Stray c R V x) : stackBytes (visits c x (V :: v)) = [V.toBytes] := by
  have hV : V ∈ scripts := hv List.mem_cons_self
  have hun : Unlocks c V (visits c x []) := by
    refine (unlocks_unredeemed fun T hT => ?_).mpr (.inl hstray.1)
    rw [List.mem_singleton.mp hT]
    exact hstray.2.1
  obtain ⟨a, S, b, hab, _, hS, hstack⟩ := stackBytes_unlocked (b := v) hun
  rw [List.nil_append] at hab hstack
  have hsub := List.Subset.trans (split_subset hab) hv
  have hSmem : S ∈ scripts := hsub (List.mem_append_right _ List.mem_cons_self)
  have hopens := ((unlocks_nested hcollisions hlengths hsub hR hredeem hS).resolve_left (hnone S hSmem)).2
  rw [hstack, hcollisions.witness S hSmem V hV (hopens.2.symm.trans hstray.1.2)]

/-- Its redeem script first, and the input takes none. -/
theorem stackBytes_redeem_first (hv : R :: v ⊆ scripts) (hnone : ∀ W ∈ scripts, nestedP2wshScript c W ≠ R.toBytes) :
    stackBytes (visits c x (R :: v)) = stackBytes x := by
  cases stackBytes_visits (c := c) x (R :: v) with
  | inl h => exact h
  | inr h =>
    obtain ⟨a, S, b, hab, hS, _⟩ := h
    have hsub := List.Subset.trans (split_subset hab) hv
    have hSmem : S ∈ scripts := hsub (List.mem_append_right _ List.mem_cons_self)
    have hcame : R ∈ a ++ [S] := by
      cases a with
      | nil => exact List.mem_singleton.mpr (List.cons.inj hab).1
      | cons T a => exact (List.cons.inj hab).1 ▸ List.mem_cons_self
    have hfirst := ((unlocks_nested hcollisions hlengths hsub hR hredeem hS).resolve_left (hnone S hSmem)).1
    exact absurd hredeem (hfirst R hcame)

end

/-! ### A witness script before its redeem script -/

section

variable {x : TransactionInput} {ws rest more a b v : Datas} {R V W : Data}

theorem subset_front (hrest : W ∉ rest) (h : ws ++ rest = a ++ W :: b) : a ⊆ ws := by
  rcases List.append_eq_append_iff.mp h with ⟨m, ha, hrest'⟩ | ⟨m, hws, _⟩
  · exact absurd (hrest' ▸ List.mem_append_right _ List.mem_cons_self) hrest
  · exact hws ▸ List.subset_append_left _ _

theorem takes_visits (ha : ∀ S ∈ a, S = W) (h : Takes c W x) : Takes c W (visits c x a) := by
  by_cases hredeem : Redeems c W x
  · exact .inl (redeems_visits.mpr hredeem)
  · rcases h with h | h | h
    · exact absurd h hredeem
    · exact .inr (.inl ((opens_unredeemed fun S hS => ha S hS ▸ hredeem).mpr h))
    · exact .inr (.inr (funds_visits.mpr h))

/-- A script that an input takes at first is not visited again after its front. -/
theorem allVisits_front (hws : ∀ S ∈ ws, S = W) (hrest : W ∉ rest) (htakes : ∃ y ∈ inputs, Takes c W y) (rounds : Nat) :
    ∃ more, allVisits c (rounds + 1) inputs (ws ++ rest) = ws ++ (rest ++ more) ∧ W ∉ rest ++ more := by
  obtain ⟨more, hmore, hleft, _⟩ := allVisits_eq (c := c) rounds inputs (ws ++ rest)
  refine ⟨more, by rw [hmore, List.append_assoc], fun hmem => ?_⟩
  obtain ⟨a, b, hab, hnone⟩ := of_mem_untaken (hleft ((List.mem_append.mp hmem).resolve_left hrest))
  obtain ⟨y, hy, hy'⟩ := htakes
  exact hnone y hy (takes_visits (fun S hS => hws S (subset_front hrest hab hS)) hy')

variable (hcollisions : NoCollisions c scripts) (hR : R ∈ scripts) (hredeem : Redeems c R x) (hW : W ∈ scripts)
  (hnested : nestedP2wshScript c W = R.toBytes)

include hcollisions hR hredeem hW hnested

theorem not_redeems_witness : ¬ Redeems c W x := by
  intro h
  have hsame := hcollisions.same hR hW hredeem h
  exact hcollisions.fixpoint W hW (hnested.trans (congrArg Data.toBytes hsame.symm))

/-- An input whose witness script came only before its redeem script holds it only if it did
    from the start and took no other. -/
theorem not_unlocks_front (hws : ∀ S ∈ ws, S = W) (hmore : W ∉ more) (hsub : ws ++ more ⊆ scripts) (hopens : ¬ Opens c W x)
    (hholds : stackBytes (visits c x (ws ++ more)) = [W.toBytes]) :
    stackBytes x = [W.toBytes] ∧ ∀ a S b, ws ++ more = a ++ S :: b → ¬ Unlocks c S (visits c x a) := by
  -- `W` itself never becomes the witness
  have hmissed : ∀ a b, ws ++ more = a ++ W :: b → ¬ Unlocks c W (visits c x a) := by
    intro a b hab hun
    have hnone : ∀ T ∈ a ++ [W], ¬ Redeems c T x := by
      intro T hT
      have hTW : T = W := (List.mem_append.mp hT).elim (fun h => hws T (subset_front hmore hab h)) List.mem_singleton.mp
      rw [hTW]
      exact not_redeems_witness hcollisions hR hredeem hW hnested
    exact ((unlocks_unredeemed hnone).mp hun).elim hopens (not_funds_of_scriptHash hredeem.1)
  have hother : ∀ a S b, ws ++ more = a ++ S :: b → Unlocks c S (visits c x a) →
      stackBytes (visits c x (ws ++ more)) ≠ [S.toBytes] := by
    intro a S b hab hun hstack
    have hS : S ∈ scripts := hsub (split_subset hab (List.mem_append_right _ List.mem_cons_self))
    have hsame : S = W := eq_of_toBytes (hcollisions.ne_none hS) (hcollisions.ne_none hW)
      (List.head_eq_of_cons_eq (hstack.symm.trans hholds))
    exact hmissed a b (hsame ▸ hab) (hsame ▸ hun)
  have hnone : ∀ a S b, ws ++ more = a ++ S :: b → ¬ Unlocks c S (visits c x a) := by
    intro a S b hab hun
    obtain ⟨a', S', b', hab', _, hS', hstack⟩ := stackBytes_unlocked (b := b) hun
    exact hother a' S' b' (hab.trans hab') hS' (hab ▸ hstack)
  refine ⟨?_, hnone⟩
  cases stackBytes_visits (c := c) x (ws ++ more) with
  | inl h => exact h.symm.trans hholds
  | inr h =>
    obtain ⟨a, S, b, hab, hun, _⟩ := h
    exact absurd hun (hnone a S b hab)

end

/-! ## Exactly when the order does not count -/

theorem front_perm (W : Data) {rest : Datas} (h : rest.Perm (scripts.filter fun S => !decide (S = W))) :
    (scripts.filter (fun S => decide (S = W)) ++ rest).Perm scripts :=
  (h.append_left _).trans (List.filter_append_perm _ scripts)

section

variable (hcollisions : NoCollisions c scripts) (hfree : OrderFree c tx scripts)

include hcollisions hfree

omit hcollisions in
theorem OrderFree.holdsScripts {x : TransactionInput} {order : Datas} (hx : x ∈ tx.inputs) (hperm : order.Perm scripts) :
    HoldsScripts c scripts x (visits c x (allVisits c (order.length + 1) tx.inputs order)) := by
  obtain ⟨i, hi⟩ := List.mem_iff_getElem?.mp hx
  refine hfree.complete order hperm i x _ hi ?_
  rw [transactionAddScripts_inputs, List.getElem?_map, hi]
  rfl

theorem OrderFree.witness {x : TransactionInput} (hx : x ∈ tx.inputs) {R W : Data} (hR : R ∈ scripts) (hredeem : Redeems c R x)
    (hW : W ∈ scripts) (hnested : nestedP2wshScript c W = R.toBytes) :
    Opens c W x ∨ (∀ y ∈ tx.inputs, ¬ Takes c W y) ∨ (stackBytes x = [W.toBytes] ∧ ∀ V ∈ scripts, ¬ Stray c R V x) := by
  by_cases hopens : Opens c W x
  · exact .inl hopens
  by_cases htakes : ∃ y ∈ tx.inputs, Takes c W y
  · -- `W` before everything else, in any order of the rest
    have hfront : ∀ rest : Datas, rest.Perm (scripts.filter fun S => !decide (S = W)) →
        ∃ more, stackBytes x = [W.toBytes] ∧ ∀ a S b, scripts.filter (fun S => decide (S = W)) ++ (rest ++ more) = a ++ S :: b →
          ¬ Unlocks c S (visits c x a) := by
      intro rest hrest
      have hws : ∀ S ∈ scripts.filter (fun S => decide (S = W)), S = W := fun S hS => of_decide_eq_true (List.mem_filter.mp hS).2
      have hWrest : W ∉ rest := fun hmem => by simpa using (List.mem_filter.mp (hrest.subset hmem)).2
      have hperm := front_perm W hrest
      obtain ⟨more, hall, hmore⟩ := allVisits_front hws hWrest htakes (scripts.filter (fun S => decide (S = W)) ++ rest).length
      have hsub := List.Subset.trans (hall ▸ allVisits_subset _ tx.inputs _) hperm.subset
      have hholds := (hfree.holdsScripts hx hperm).nested R hR hredeem W hW hnested
      rw [hall] at hholds
      exact ⟨more, not_unlocks_front hcollisions hR hredeem hW hnested hws hmore hsub hopens hholds⟩
    refine .inr (.inr ⟨(hfront _ (List.Perm.refl _)).elim fun _ h => h.1, fun V hV hstray => ?_⟩)
    have hVW : V ≠ W := fun h => hopens (h ▸ hstray.1)
    have hVrest : V ∈ scripts.filter fun S => !decide (S = W) := List.mem_filter.mpr ⟨hV, by simpa using hVW⟩
    -- a stray script right after it becomes the witness
    obtain ⟨more, _, hnone⟩ := hfront _ (List.perm_cons_erase hVrest).symm
    refine hnone (scripts.filter fun S => decide (S = W)) V _ rfl ((unlocks_unredeemed fun T hT => ?_).mpr (.inl hstray.1))
    cases List.mem_append.mp hT with
    | inl hT =>
      rw [of_decide_eq_true (List.mem_filter.mp hT).2]
      exact not_redeems_witness hcollisions hR hredeem hW hnested
    | inr hT =>
      rw [List.mem_singleton.mp hT]
      exact hstray.2.1
  · exact .inr (.inl fun y hy h => htakes ⟨y, hy, h⟩)

theorem OrderFree.stray (hlengths : ∀ S ∈ scripts, S.length < 2 ^ 32) (hdelimited : ∀ x ∈ tx.inputs, WitnessDelimited x)
    (hscripts : ∀ S ∈ scripts, VarIntOk S.length) {x : TransactionInput} (hx : x ∈ tx.inputs) {R V : Data} (hR : R ∈ scripts)
    (hredeem : Redeems c R x) (hnone : ∀ W ∈ scripts, nestedP2wshScript c W ≠ R.toBytes) (hV : V ∈ scripts)
    (hstray : Stray c R V x) : stackBytes x = [V.toBytes] := by
  have horder : ∀ order : Datas, order.Perm scripts → ∃ more,
      allVisits c (order.length + 1) tx.inputs order = order ++ more ∧ order ++ more ⊆ scripts ∧ scripts ⊆ order ++ more := by
    intro order hperm
    obtain ⟨more, hmore, _⟩ := allVisits_eq (c := c) order.length tx.inputs order
    refine ⟨more, hmore, ?_, ?_⟩
    · exact hmore ▸ List.Subset.trans (allVisits_subset (c := c) _ tx.inputs order) hperm.subset
    · exact fun S hS => List.mem_append_left _ (hperm.symm.subset hS)
  have hpermV := (List.perm_cons_erase hV).symm
  have hpermR := (List.perm_cons_erase hR).symm
  obtain ⟨moreV, hallV, hsubV, hsupV⟩ := horder _ hpermV
  obtain ⟨moreR, hallR, hsubR, hsupR⟩ := horder _ hpermR
  have hdata := (hfree.same _ hpermV).trans (hfree.same _ hpermR).symm
  rw [transactionAddScripts_inputs, transactionAddScripts_inputs, hallV, hallR] at hdata
  have hstacks := stackBytes_of_transactionData (fun y _ => transactionInputData_visits hcollisions hsubV hsupV hsubR hsupR)
    (fun y hy => (hdelimited y hy).visits fun S hS => hscripts S (hsubV hS))
    (fun y hy => (hdelimited y hy).visits fun S hS => hscripts S (hsubR hS)) hdata x hx
  rw [List.cons_append, List.cons_append] at hstacks
  rw [List.cons_append] at hsubV hsubR
  rw [stackBytes_stray_first hcollisions hlengths hR hredeem hsubV hnone hstray,
    stackBytes_redeem_first hcollisions hlengths hR hredeem hsubR hnone] at hstacks
  exact hstacks.symm

end

/-- `TransactionAddScripts` with scripts whose hashes tell them apart. -/
theorem transactionAddScripts_iff (c : Crypto) (tx : Transaction) (scripts : Datas) (hcollisions : NoCollisions c scripts)
    (hlengths : ∀ S ∈ scripts, S.length < 2 ^ 32) :
    (∀ rounds > scripts.length, addScriptsFrom c rounds tx scripts = addScriptsFrom c (scripts.length + 1) tx scripts) ∧
      (Unhindered c tx.inputs scripts → OrderFree c tx scripts) ∧
      ((∀ x ∈ tx.inputs, WitnessDelimited x) → (∀ S ∈ scripts, VarIntOk S.length) →
        (OrderFree c tx scripts ↔ Unhindered c tx.inputs scripts)) := by
  refine ⟨fun rounds hrounds => addScriptsFrom_eq hrounds tx, orderFree_of_unhindered hcollisions hlengths, ?_⟩
  intro hdelimited hscripts
  refine ⟨fun hfree => ?_, orderFree_of_unhindered hcollisions hlengths⟩
  exact ⟨fun x hx R hR hredeem W hW hnested => hfree.witness hcollisions hx hR hredeem hW hnested,
    fun x hx R hR hredeem hnone V hV hstray => hfree.stray hcollisions hlengths hdelimited hscripts hx hR hredeem hnone hV hstray⟩

/-- A witness script, its redeem script, and an input that pays to the one or the other. -/
def sharedScript : Data := some [0x51]

def sharedRedeemScript : Data := some (nestedP2wshScript plainCrypto sharedScript)

def nestedInput : TransactionInput where
  fundingOutput := ⟨some (p2shPubScriptWithScript plainCrypto sharedRedeemScript), 7⟩
  previousTransactionHash := some (List.replicate 32 1)
  outputIndex := 0
  scriptData := none
  sequence := 0
  witnessStack := []
  witnessFlag := 0

def nativeInput : TransactionInput :=
  { nestedInput with fundingOutput := ⟨some (p2wshPubScriptWithScript plainCrypto sharedScript), 7⟩ }

theorem noCollisions_shared : NoCollisions plainCrypto [sharedScript, sharedRedeemScript] := by
  constructor <;> decide +kernel

theorem transactionAddScripts_nestedInput :
    OrderFree plainCrypto ⟨2, [nestedInput], [], 0⟩ [sharedScript, sharedRedeemScript] := by
  refine (transactionAddScripts_iff plainCrypto ⟨2, [nestedInput], [], 0⟩ [sharedScript, sharedRedeemScript] noCollisions_shared
    (by decide +kernel)).2.1 ⟨?_, ?_⟩ <;> decide +kernel

/-- The native input takes the witness script before the nested one can. -/
theorem not_transactionAddScripts :
    ¬ OrderFree plainCrypto ⟨2, [nestedInput, nativeInput], [], 0⟩ [sharedScript, sharedRedeemScript] := by
  intro h
  have hsame := h.same [sharedRedeemScript, sharedScript] (List.Perm.swap _ _ _)
  revert hsame
  decide +kernel

end BitcoinSpoon
