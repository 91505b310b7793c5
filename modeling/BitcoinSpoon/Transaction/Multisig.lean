/-
  BitcoinSpoon.Transaction.Multisig — the stacks that spend a multisig script or a vault
  (`code/Transaction.c`).

  The third pass of `TransactionSign` puts a signature of every listed key in front of the
  script, `sortSignatures` brings them into the order of the script's keys, and
  `TransactionCorrectMultisigSignatures` puts the empty element in front of them if there
  are as many as the script needs. None drops a signature: where more keys are listed than
  the script needs, all of theirs stay and the empty element is missing
  (`transactionSign_multisig_iff`).
-/

import BitcoinSpoon.Transaction.AddScripts
import BitcoinSpoon.Transaction.Again
import BitcoinSpoon.Transaction.InRange
import BitcoinSpoon.Util.Multisig

namespace BitcoinSpoon

open Wire Loop

/-! ## The keys in the order of the script -/

/-- Each key where it stands first. -/
def firsts : Datas → Datas
  | [] => []
  | key :: keys => key :: (firsts keys).filter fun other => other ≠ key

theorem firsts_sublist (keys : Datas) : (firsts keys).Sublist keys := by
  induction keys with
  | nil => exact List.Sublist.refl _
  | cons key keys ih => exact (List.filter_sublist.trans ih).cons_cons key

theorem firsts_nodup (keys : Datas) : (firsts keys).Nodup := by
  induction keys with
  | nil => exact List.nodup_nil
  | cons key keys ih => exact List.nodup_cons.mpr ⟨by simp, ih.filter _⟩

theorem mem_firsts {keys : Datas} {key : Data} : key ∈ firsts keys ↔ key ∈ keys := by
  induction keys with
  | nil => exact Iff.rfl
  | cons first keys ih =>
    rw [firsts, List.mem_cons, List.mem_cons, List.mem_filter, ih, decide_eq_true_iff]
    tauto

section

variable {accepts : Data → Data → Bool} {keys signatures : Datas}

/-- A key behind the first one is offered what it was offered before, if it is another key. -/
theorem firsts_behind {pub : Data} {pubs : Datas}
    (halone : ∀ sig ∈ signatures, ∀ other ∈ pubs, accepts other sig = true → accepts pub sig = true → other = pub) :
    ((firsts pubs).filter fun other => other ≠ pub).filter (fun other => signatures.any (accepts other)) =
      (firsts pubs).filter fun other => (signatures.filter fun sig => !accepts pub sig).any (accepts other) := by
  rw [List.filter_filter]
  refine List.filter_congr fun other hother => ?_
  have hmem := mem_firsts.mp hother
  rw [Bool.eq_iff_iff, Bool.and_eq_true, decide_eq_true_iff, List.any_eq_true, List.any_eq_true]
  constructor
  · rintro ⟨⟨sig, hsig, haccepts⟩, hne⟩
    refine ⟨sig, List.mem_filter.mpr ⟨hsig, ?_⟩, haccepts⟩
    by_contra hpub
    exact hne (halone sig hsig other hmem haccepts (by simpa using hpub))
  · rintro ⟨sig, hsig, haccepts⟩
    obtain ⟨hin, hrefused⟩ := List.mem_filter.mp hsig
    refine ⟨⟨sig, hin, haccepts⟩, ?_⟩
    rintro rfl
    rw [haccepts] at hrefused
    cases hrefused

/-- Where a key accepts one signature and a signature is accepted by one key, the keys that
    accept one get theirs. -/
theorem sortByKeys_firsts (hone : ∀ pub ∈ keys, (signatures.filter (accepts pub)).length ≤ 1)
    (halone : ∀ sig ∈ signatures, ∀ pub ∈ keys, ∀ other ∈ keys, accepts pub sig = true → accepts other sig = true → pub = other) :
    List.Forall₂ (fun pub sig => accepts pub sig = true) ((firsts keys).filter fun pub => signatures.any (accepts pub))
      (sortByKeys accepts keys signatures) := by
  induction keys generalizing signatures with
  | nil => exact List.Forall₂.nil
  | cons pub pubs ih =>
    rw [sortByKeys_cons (hone pub List.mem_cons_self), firsts]
    have hrest := @ih (signatures.filter fun sig => !accepts pub sig) (fun other hother => ?_) fun sig hsig a ha b hb =>
      halone sig (List.mem_filter.mp hsig).1 a (List.mem_cons_of_mem _ ha) b (List.mem_cons_of_mem _ hb)
    · have hsame := firsts_behind fun sig hsig other hother =>
        halone sig hsig other (List.mem_cons_of_mem _ hother) pub List.mem_cons_self
      have hfilter := hone pub List.mem_cons_self
      rcases hs : signatures.filter (accepts pub) with - | ⟨sig, - | ⟨second, more⟩⟩
      · have hnone : ¬ signatures.any (accepts pub) = true := by
          rw [List.any_eq_true]
          rintro ⟨sig, hsig, haccepts⟩
          rw [List.filter_eq_nil_iff] at hs
          exact hs sig hsig haccepts
        rw [List.filter_cons, if_neg hnone, hsame]
        exact hrest
      · have hmem : sig ∈ signatures.filter (accepts pub) := by
          rw [hs]
          exact List.mem_singleton_self sig
        obtain ⟨hin, haccepts⟩ := List.mem_filter.mp hmem
        rw [List.filter_cons, if_pos (List.any_eq_true.mpr ⟨sig, hin, haccepts⟩), hsame]
        exact List.Forall₂.cons haccepts hrest
      · rw [hs] at hfilter
        simp at hfilter
    · refine Nat.le_trans (List.Sublist.length_le ?_) (hone other (List.mem_cons_of_mem _ hother))
      exact List.filter_sublist.filter _

/-- Keys that accept the same signatures, one each, are the same. -/
theorem keys_unique {keys signers signers' : Datas} (hsigners : signers ⊆ keys) (hsigners' : signers' ⊆ keys)
    (halone : ∀ sig ∈ signatures, ∀ pub ∈ keys, ∀ other ∈ keys, accepts pub sig = true → accepts other sig = true → pub = other)
    (h : List.Forall₂ (fun pub sig => accepts pub sig = true) signers signatures)
    (h' : List.Forall₂ (fun pub sig => accepts pub sig = true) signers' signatures) : signers = signers' := by
  induction h generalizing signers' with
  | nil =>
    cases h'
    rfl
  | @cons pub sig pubs sigs haccepts hrest ih =>
    obtain ⟨other, others, haccepts', hrest', rfl⟩ := List.forall₂_cons_right_iff.mp h'
    obtain ⟨hpub, hpubs⟩ := List.cons_subset.mp hsigners
    obtain ⟨hother, hothers⟩ := List.cons_subset.mp hsigners'
    rw [halone sig List.mem_cons_self pub hpub other hother haccepts haccepts',
      ih hpubs hothers (fun s hs => halone s (List.mem_cons_of_mem _ hs)) hrest']

end

/-! ## The scripts -/

/-- A multisig script, or the vault with a master key. -/
def sharedKeysScript (keys : Datas) (master : Option Data) : Data :=
  match master with
  | none => some (multisigScript keys)
  | some mk => some (vaultScript mk keys)

structure SharedKeys (keys : Datas) (master : Option Data) : Prop where
  present : keys ≠ []
  few : keys.length ≤ 16
  sizes : ∀ key ∈ keys, key.length = 33
  master_size : ∀ mk ∈ master, mk.length = 33

/-- The number of signatures: those of the keys and that of the master key. -/
def neededSigsOf (keys : Datas) (master : Option Data) : Nat := neededOf keys + master.toList.length

section

variable {keys sigs : Datas} {master : Option Data} (h : SharedKeys keys master)

include h

theorem allPubKeys_shared : allPubKeys (sharedKeysScript keys master) = datasSort keys ++ master.toList := by
  cases hmaster : master with
  | none =>
    rw [Option.toList_none, List.append_nil]
    exact allPubKeys_multisigScript h.sizes h.present h.few
  | some mk => exact allPubKeys_vaultScript h.sizes h.present h.few (h.master_size mk hmaster)

/-- The check of the master key is the entry behind the other one. -/
theorem allCheckSigs_shared : allCheckSigs (sharedKeysScript keys master) =
    multisigEntry (neededOf keys) (datasSort keys) :: master.toList.map fun mk => ⟨OP_CHECKSIGVERIFY, none, 1, [mk], none⟩ := by
  cases hmaster : master with
  | none => exact allCheckSigs_multisigScript h.sizes h.present h.few
  | some mk => exact allCheckSigs_vaultScript h.sizes h.present h.few (h.master_size mk hmaster)

theorem neededSigs_shared :
    ((allCheckSigs (sharedKeysScript keys master)).map (·.neededSigs)).sum = neededSigsOf keys master := by
  rw [allCheckSigs_shared h, neededSigsOf]
  cases master with
  | none => simp [multisigEntry]
  | some mk => simp [multisigEntry]

/-- The first signatures go behind the empty element, and the last one is the master's. -/
theorem placeSignatures_shared {last : Data} (hlength : sigs.length = neededSigsOf keys master) :
    placeSignatures (sigs ++ [last]) (allCheckSigs (sharedKeysScript keys master)) 0 = some (some [] :: sigs) := by
  rw [allCheckSigs_shared h]
  have hmulti : isCheckMultisig (multisigEntry (neededOf keys) (datasSort keys)).op = true := rfl
  have hcount : (multisigEntry (neededOf keys) (datasSort keys)).neededSigs.toNat = neededOf keys := rfl
  rw [neededSigsOf] at hlength
  cases master with
  | none =>
    have hsigs : sigs.length = neededOf keys := hlength
    rw [placeSignatures, if_pos hmulti, hcount, if_pos (by simp [hsigs]), Option.toList_none, List.map_nil, placeSignatures,
      Option.map_some, List.append_nil, List.drop_zero, List.take_left' hsigs]
  | some mk =>
    have hsigs : sigs.length = neededOf keys + 1 := hlength
    obtain ⟨firsts, mine, rfl⟩ : ∃ firsts mine, sigs = firsts ++ [mine] := by
      refine ⟨sigs.dropLast, sigs.getLast ?_, (List.dropLast_append_getLast _).symm⟩
      intro hnil
      rw [hnil] at hsigs
      cases hsigs
    have hfirsts : firsts.length = neededOf keys := by simpa using hsigs
    have hmine : (firsts ++ [mine] ++ [last]).getD (0 + neededOf keys) none = mine := by simp [← hfirsts]
    have hsingle : isCheckMultisig OP_CHECKSIGVERIFY = false := rfl
    rw [placeSignatures, if_pos hmulti, hcount, if_pos (by simp; omega), Option.toList_some, List.map_singleton, placeSignatures]
    dsimp only
    rw [hsingle, if_neg Bool.false_ne_true, if_pos (by simp [hfirsts]), placeSignatures, hmine, Option.map_some, Option.map_some,
      List.drop_zero, List.append_assoc, List.take_left' hfirsts]
    rfl

/-- The empty element goes in front of as many signatures as are needed. -/
theorem correctedStack_shared : correctedStack (sigs ++ [sharedKeysScript keys master]) =
    some (if sigs.length = neededSigsOf keys master then some [] :: sigs ++ [sharedKeysScript keys master]
      else sigs ++ [sharedKeysScript keys master]) := by
  have hneeded : 1 ≤ neededSigsOf keys master := by
    unfold neededSigsOf neededOf
    omega
  have hlength : ((sigs ++ [sharedKeysScript keys master]).length : Int) - 1 = sigs.length := by simp
  unfold correctedStack correctMultisigSignaturesInStack
  dsimp only
  rw [datasLast_concat, neededSigs_shared h, hlength]
  by_cases hall : sigs.length = neededSigsOf keys master
  · rw [if_pos (by simp; omega), if_neg (by rw [hall]; exact not_not.mpr rfl), placeSignatures_shared h hall, if_pos hall]
    rfl
  · rw [if_neg hall]
    split
    · rw [if_pos (by omega)]
    · rfl

end

/-! ## The stack with the signatures -/

variable {c : Crypto} {tx : Transaction} {i : Nat} {input : TransactionInput} {items : Datas} {script : Data}

/-- The funding output names the script, or the redeem script does, which is listed or in
    the script sig. -/
def PaysTo (c : Crypto) (items : Datas) (script : Data) (input : TransactionInput) : Prop :=
  Funds c script input ∨
    transactionInputType input = .payToScriptHash ∧ (redeemOf c items input).toBytes = nestedP2wshScript c script

/-- The script is listed, and no other item has its hash. -/
structure ListedAlone (c : Crypto) (items : Datas) (script : Data) : Prop where
  mem : script ∈ items
  alone : ∀ item ∈ items, nestedP2wshScript c item = nestedP2wshScript c script → item = script

theorem getLast?_listed {names : Data → Bool} (hlisted : ListedAlone c items script)
    (hnames : ∀ item, names item = true ↔ nestedP2wshScript c item = nestedP2wshScript c script) :
    (items.filter names).getLast? = some script := by
  cases hlast : (items.filter names).getLast? with
  | none =>
    rw [List.getLast?_eq_none_iff, List.filter_eq_nil_iff] at hlast
    exact absurd ((hnames script).mpr rfl) (hlast script hlisted.mem)
  | some item =>
    obtain ⟨hmem, hitem⟩ := List.mem_filter.mp (List.mem_of_getLast? hlast)
    rw [hlisted.alone item hmem ((hnames item).mp hitem)]

theorem stackBefore_paysTo (tx : Transaction) (i : Nat) (hpays : PaysTo c items script input) (hlisted : ListedAlone c items script) :
    stackBefore c tx items i input = [script] := by
  rcases hpays with ⟨htype, hfunds⟩ | ⟨htype, hredeem⟩
  · have hnames : ∀ item, isWitnessScript c input.fundingOutput.script item = true ↔
        nestedP2wshScript c item = nestedP2wshScript c script := by
      intro item
      rw [isWitnessScript, dataEqual_iff, hfunds]
      exact Iff.rfl
    rw [stackBefore, htype]
    dsimp only
    rw [getLast?_listed hlisted hnames]
    rfl
  · have hnames : ∀ item, isNestedScript c (datasLast (readPushes (redeemScriptSig c items input))) item = true ↔
        nestedP2wshScript c item = nestedP2wshScript c script := by
      intro item
      rw [isNestedScript, dataEqual_iff, ← redeemOf, hredeem]
      exact eq_comm
    rw [stackBefore, htype]
    dsimp only
    rw [getLast?_listed hlisted hnames]
    rfl

/-- A redeem script that names a witness script names no key. -/
theorem redeem_quiet {redeem : Data} (hscript : script ≠ none) (hredeem : redeem.toBytes = nestedP2wshScript c script) (item : Data) :
    isNestedKey c redeem item = false ∧ isScriptKey c redeem item = false := by
  obtain ⟨bytes, rfl⟩ := Option.ne_none_iff_exists'.mp hscript
  have hbytes : redeem.toBytes = 0 :: 32 :: c.sha256 bytes := by
    have hsize : (sha256 c (some bytes)).length = 32 := c.sha256_length bytes
    rw [hredeem, nestedP2wshScript, scriptPush, hsize]
    rfl
  have hlength := c.sha256_length bytes
  constructor
  · by_contra hkey
    rw [Bool.not_eq_false, isNestedKey, Bool.and_eq_true, dataEqual_iff] at hkey
    have hshort := nestedP2wpkhScript_short c (pubKey c item)
    have hsame : (0 :: 32 :: c.sha256 bytes).length = (nestedP2wpkhScript c (pubKey c item)).length := by
      rw [← hbytes, hkey.2]
      rfl
    rw [List.length_cons, List.length_cons, hlength] at hsame
    omega
  · rw [isScriptKey, allPubKeys_program (k := 32) rfl (by decide) (by rw [hbytes]; simp [hlength]) (by rw [hbytes]; rfl)
      (by rw [hbytes]; rfl), List.any_nil, Bool.and_false]

/-- Beside a redeem script that names no key only the stack is signed. -/
theorem viewScripts_run_quiet {digest redeem : Data}
    (hquiet : ∀ item, isNestedKey c redeem item = false ∧ isScriptKey c redeem item = false) (items : Datas) {v : InputView} (hredeem : v.redeem = redeem) :
    (items.foldl (fun v item => viewScripts c tx digest item i input v) v).witnessStack = signStack c tx i items v.witnessStack := by
  induction items generalizing v with
  | nil => rfl
  | cons item items ih =>
    obtain ⟨hstack, hsig⟩ := viewScripts_spec tx i digest item v fun _ : transactionInputType input = .payToScriptHash => by
      rw [hredeem, (hquiet item).1]
    have hkept : (viewScripts c tx digest item i input v).scriptSig = v.scriptSig := by
      rw [hsig, signRedeem, ← InputView.scriptSigData, ← InputView.redeem, hredeem, (hquiet item).2]
      split <;> rfl
    rw [List.foldl_cons, ih (by rw [InputView.redeem, InputView.scriptSigData, hkept]; exact hredeem), hstack]
    rfl

theorem signedView_paysTo (hscript : script ≠ none) (hpays : PaysTo c items script input) (hlisted : ListedAlone c items script) :
    (signedView c tx items i input).witnessStack = signStack c tx i items [script] := by
  have hbefore := stackBefore_paysTo tx i hpays hlisted
  rcases hpays with ⟨htype, -⟩ | ⟨htype, hredeem⟩
  · rw [signedView_witnessStack, nestedKeys, if_neg (by rw [htype]; decide), hbefore]
    rfl
  · rw [← hbefore, ← stackBefore_eq]
    unfold signedView
    exact viewScripts_run_quiet (redeem_quiet hscript hredeem) items (by rw [InputView.redeem, scriptSigData_before htype]; rfl)

/-! ## The signatures -/

theorem length_le_one_of_nodup {l : Datas} (hn : l.Nodup) {s : Data} (h : ∀ t ∈ l, t = s) : l.length ≤ 1 := by
  rcases l with - | ⟨a, - | ⟨b, l⟩⟩
  · exact Nat.zero_le 1
  · exact Nat.le_refl 1
  · rw [List.nodup_cons] at hn
    obtain rfl := h a (by simp)
    obtain rfl := h b (by simp)
    exact absurd List.mem_cons_self hn.1

/-- No key accepts the empty element. -/
theorem acceptedBy_empty (c : Crypto) (tx : Transaction) (i : Nat) (script pub : Data) :
    acceptedBy c tx i script pub (some []) = false := rfl

/-- A listed key has the public key. -/
def covers (c : Crypto) (items : Datas) (pub : Data) : Bool := items.any fun item => isKey c item && dataEqual pub (pubKey c item)

/-- The script's keys that are covered, each once, in the order of the script. -/
def coveredKeys (c : Crypto) (items : Datas) (script : Data) : Datas := (firsts (allPubKeys script)).filter (covers c items)

/-- A listed key's signature is accepted by its own public key and by no other key of the
    script, and no two listed keys have one public key. -/
structure KeysApart (c : Crypto) (tx : Transaction) (i : Nat) (items : Datas) (script : Data) : Prop where
  accepted : ∀ a ∈ items, isScriptKey c script a = true →
    acceptedBy c tx i script (pubKey c a) (witnessSignature c tx i script a) = true
  alone : ∀ a ∈ items, isScriptKey c script a = true → ∀ pub ∈ allPubKeys script,
    acceptedBy c tx i script pub (witnessSignature c tx i script a) = true → pub = pubKey c a
  injective : ∀ a ∈ items, ∀ b ∈ items, isScriptKey c script a = true → isScriptKey c script b = true → pubKey c a = pubKey c b → a = b

theorem eq_of_dataEqual {a b : Data} (h : dataEqual a b = true) (ha : a.length = 33) : a = b := by
  rw [dataEqual_iff] at h
  cases a with
  | none => cases ha
  | some x =>
    cases b with
    | none =>
      rw [Data.length, h] at ha
      cases ha
    | some y => exact congrArg some h

theorem covers_iff {pub : Data} (hpub : pub.length = 33) :
    covers c items pub = true ↔ ∃ item ∈ items, isKey c item = true ∧ pub = pubKey c item := by
  rw [covers, List.any_eq_true]
  refine exists_congr fun item => and_congr_right fun _ => ?_
  rw [Bool.and_eq_true]
  refine and_congr_right fun _ => ⟨fun h => eq_of_dataEqual h hpub, fun h => ?_⟩
  rw [h, dataEqual_iff]

theorem isScriptKey_of_mem {item : Data} (hkey : isKey c item = true) (hmem : pubKey c item ∈ allPubKeys script) :
    isScriptKey c script item = true := by
  rw [isScriptKey, hkey, Bool.true_and, List.any_eq_true]
  exact ⟨_, hmem, dataEqual_iff.mpr rfl⟩

theorem length_key_shared {keys : Datas} {master : Option Data} (h : SharedKeys keys master) {pub : Data}
    (hpub : pub ∈ allPubKeys (sharedKeysScript keys master)) : pub.length = 33 := by
  rw [allPubKeys_shared h] at hpub
  rcases List.mem_append.mp hpub with hkey | hmaster
  · exact length_datasSort_key h.sizes pub hkey
  · exact h.master_size pub (Option.mem_toList.mp hmaster)

/-- The script ends with the check, and a signature with the hash type. -/
theorem signature_fresh (keys : Datas) (master : Option Data) (item : Data) : datasHasMatchingData [sharedKeysScript keys master]
    (witnessSignature c tx i (sharedKeysScript keys master) item) = false := by
  have hscript : (sharedKeysScript keys master).toBytes.getLast? = some (UInt8.ofNat OP_CHECKMULTISIG) := by
    cases master with
    | none => exact List.getLast?_concat
    | some mk => exact List.getLast?_concat
  have hsig : (witnessSignature c tx i (sharedKeysScript keys master) item).toBytes.getLast? = some 1 := by
    rw [witnessSignature, signAll, sign, toBytes_dataAdd]
    exact List.getLast?_concat
  by_contra hthere
  rw [Bool.not_eq_false, datasHasMatchingData, List.any_cons, List.any_nil, Bool.or_false, dataEqual_iff] at hthere
  rw [hthere, hsig] at hscript
  exact absurd hscript (by decide)

/-- What the third pass leaves in front of the script. -/
theorem signStack_shared (c : Crypto) (tx : Transaction) (i : Nat) (items keys : Datas) (master : Option Data) : ∃ new : Datas,
    signStack c tx i items [sharedKeysScript keys master] = new ++ [sharedKeysScript keys master] ∧ new.Nodup ∧
      ∀ s, s ∈ new ↔ MadeFor c tx i items (sharedKeysScript keys master) s := by
  obtain ⟨new, hnew, hadds⟩ := signStack_eq c tx i items [] (sharedKeysScript keys master)
  refine ⟨new, hnew, hadds.nodup, fun s => ?_⟩
  rw [hadds.mem]
  constructor
  · exact And.right
  · rintro hmade
    obtain ⟨item, -, -, rfl⟩ := id hmade
    exact ⟨signature_fresh keys master item, hmade⟩

theorem exists_of_forall₂ {accepts : Data → Data → Bool} {signers sigs : Datas} {pub : Data}
    (h : List.Forall₂ (fun pub sig => accepts pub sig = true) signers sigs) (hpub : pub ∈ signers) :
    ∃ sig ∈ sigs, accepts pub sig = true := by
  induction h with
  | nil => cases hpub
  | cons haccepts _ ih =>
    rcases List.mem_cons.mp hpub with rfl | hpub
    · exact ⟨_, List.mem_cons_self, haccepts⟩
    · obtain ⟨sig, hsig, haccepts⟩ := ih hpub
      exact ⟨sig, List.mem_cons_of_mem _ hsig, haccepts⟩

section

variable {new : Datas} (hapart : KeysApart c tx i items script)

include hapart

section

variable (hmade : ∀ s ∈ new, MadeFor c tx i items script s)

include hmade

/-- The listed key behind a signature that a key of the script accepts. -/
theorem signer_of_accepted {pub sig : Data} (hsig : sig ∈ new) (hpub : pub ∈ allPubKeys script)
    (haccepts : acceptedBy c tx i script pub sig = true) :
    ∃ item ∈ items, isScriptKey c script item = true ∧ pub = pubKey c item ∧ sig = witnessSignature c tx i script item := by
  obtain ⟨item, hitem, hkey, rfl⟩ := hmade sig hsig
  exact ⟨item, hitem, hkey, hapart.alone item hitem hkey pub hpub haccepts, rfl⟩

theorem signature_unique {pub a b : Data} (ha : a ∈ new) (hb : b ∈ new) (hpub : pub ∈ allPubKeys script)
    (haccepts : acceptedBy c tx i script pub a = true) (haccepts' : acceptedBy c tx i script pub b = true) : a = b := by
  obtain ⟨x, hx, hxkey, hxpub, rfl⟩ := signer_of_accepted hapart hmade ha hpub haccepts
  obtain ⟨y, hy, hykey, hypub, rfl⟩ := signer_of_accepted hapart hmade hb hpub haccepts'
  rw [hapart.injective x hx y hy hxkey hykey (hxpub.symm.trans hypub)]

theorem key_unique {sig pub other : Data} (hsig : sig ∈ new) (hpub : pub ∈ allPubKeys script) (hother : other ∈ allPubKeys script)
    (haccepts : acceptedBy c tx i script pub sig = true) (haccepts' : acceptedBy c tx i script other sig = true) : pub = other := by
  obtain ⟨item, hitem, hkey, rfl⟩ := hmade sig hsig
  rw [hapart.alone item hitem hkey pub hpub haccepts, hapart.alone item hitem hkey other hother haccepts']

end

variable (hnew : ∀ s, s ∈ new ↔ MadeFor c tx i items script s)
  (hsizes : ∀ pub ∈ allPubKeys script, pub.length = 33)

include hnew hsizes

/-- Every signature comes from a covered key of the script. -/
theorem accepted_of_new {sig : Data} (hsig : sig ∈ new) :
    ∃ pub ∈ allPubKeys script, covers c items pub = true ∧ acceptedBy c tx i script pub sig = true := by
  obtain ⟨item, hitem, hkey, rfl⟩ := (hnew sig).mp hsig
  have haccepts := hapart.accepted item hitem hkey
  rw [isScriptKey, Bool.and_eq_true, List.any_eq_true] at hkey
  obtain ⟨hkey, pub, hpub, heq⟩ := hkey
  have hsame := eq_of_dataEqual heq (hsizes pub hpub)
  exact ⟨pub, hpub, (covers_iff (hsizes pub hpub)).mpr ⟨item, hitem, hkey, hsame⟩, hsame ▸ haccepts⟩

theorem any_accepted_iff {pub : Data} (hpub : pub ∈ allPubKeys script) : new.any (acceptedBy c tx i script pub) = covers c items pub := by
  rw [Bool.eq_iff_iff, List.any_eq_true, covers_iff (hsizes pub hpub)]
  constructor
  · rintro ⟨sig, hsig, haccepts⟩
    obtain ⟨item, hitem, hkey, hsame, -⟩ := signer_of_accepted hapart (fun s => (hnew s).mp) hsig hpub haccepts
    rw [isScriptKey, Bool.and_eq_true] at hkey
    exact ⟨item, hitem, hkey.1, hsame⟩
  · rintro ⟨item, hitem, hkey, rfl⟩
    have hscriptKey := isScriptKey_of_mem hkey hpub
    exact ⟨_, (hnew _).mpr ⟨item, hitem, hscriptKey, rfl⟩, hapart.accepted item hitem hscriptKey⟩

variable (hnodup : new.Nodup)

include hnodup

/-- Sorted, the signatures are those of the covered keys in the order of the script. -/
theorem sorted_covered : List.Forall₂ (fun pub sig => acceptedBy c tx i script pub sig = true) (coveredKeys c items script)
    (sortByKeys (acceptedBy c tx i script) (allPubKeys script) new) := by
  have hone : ∀ pub ∈ allPubKeys script, (new.filter (acceptedBy c tx i script pub)).length ≤ 1 := by
    intro pub hpub
    rcases hs : new.filter (acceptedBy c tx i script pub) with - | ⟨s, rest⟩
    · exact Nat.zero_le 1
    · have hmem : ∀ t, t ∈ s :: rest → t ∈ new ∧ acceptedBy c tx i script pub t = true := by
        intro t ht
        rw [← hs] at ht
        exact List.mem_filter.mp ht
      refine length_le_one_of_nodup (hs ▸ hnodup.filter _) (s := s) fun t ht => ?_
      obtain ⟨hs, haccepts⟩ := hmem s List.mem_cons_self
      exact signature_unique hapart (fun s => (hnew s).mp) (hmem t ht).1 hs hpub (hmem t ht).2 haccepts
  have hcovered : coveredKeys c items script = (firsts (allPubKeys script)).filter fun pub => new.any (acceptedBy c tx i script pub) := by
    refine List.filter_congr fun pub hpub => ?_
    exact (any_accepted_iff hapart hnew hsizes (mem_firsts.mp hpub)).symm
  rw [hcovered]
  exact sortByKeys_firsts hone fun sig hsig pub hpub other hother => key_unique hapart (fun s => (hnew s).mp) hsig hpub hother

/-- None is lost. -/
theorem sorted_perm : (sortByKeys (acceptedBy c tx i script) (allPubKeys script) new).Perm new := by
  have hsub : (sortByKeys (acceptedBy c tx i script) (allPubKeys script) new).Subperm new := sortByKeys_subperm _ _
  refine hsub.perm_of_length_le (List.Subperm.length_le (hnodup.subperm fun sig hsig => ?_))
  obtain ⟨pub, hpub, hcovers, haccepts⟩ := accepted_of_new hapart hnew hsizes hsig
  obtain ⟨other, hother, haccepts'⟩ := exists_of_forall₂ (sorted_covered hapart hnew hsizes hnodup)
    (List.mem_filter.mpr ⟨mem_firsts.mpr hpub, hcovers⟩)
  rwa [signature_unique hapart (fun s => (hnew s).mp) hsig (hsub.subset hother) hpub haccepts haccepts']

end

/-! ## The whole call -/

section

variable {keys : Datas} {master : Option Data} {out : TransactionInput} (h : SharedKeys keys master)
  (hpays : PaysTo c items (sharedKeysScript keys master) input) (hlisted : ListedAlone c items (sharedKeysScript keys master))
  (hapart : KeysApart c tx i items (sharedKeysScript keys master))

include h hpays hlisted

theorem signedInput_shared (tx : Transaction) (i : Nat) : ∃ new : Datas,
    (signedInput c tx items i input).witnessStack = new ++ [sharedKeysScript keys master] ∧ new.Nodup ∧
      ∀ s, s ∈ new ↔ MadeFor c tx i items (sharedKeysScript keys master) s := by
  obtain ⟨new, hstack, hnew⟩ := signStack_shared c tx i items keys master
  have hscript : sharedKeysScript keys master ≠ none := by cases master <;> exact Option.some_ne_none _
  exact ⟨new, (signedView_paysTo hscript hpays hlisted).trans hstack, hnew⟩

include hapart

/-- Neither the sorting nor the empty element makes the call fail on the input. -/
theorem finalizes_shared (hplain : (pushesAside (signedInput c tx items i input)).length ≤ 1) :
    Finalizes c tx i (signedInput c tx items i input) := by
  obtain ⟨new, hstack, hnodup, hnew⟩ := signedInput_shared h hpays hlisted tx i
  have hinside : 1 < (new ++ [sharedKeysScript keys master]).length → ReadsInside (new ++ [sharedKeysScript keys master]) := by
    rw [← correctedStack_isSome, correctedStack_shared h]
    rfl
  refine ⟨fun _ => ?_, fun _ => by omega, by rwa [hstack], fun hlong => absurd hlong (by omega)⟩
  rw [hstack, datasLast_concat, List.dropLast_concat]
  exact (sorted_perm hapart hnew (fun pub => length_key_shared h) hnodup).length_eq

/-- The signatures of the covered keys, behind the empty element if they are as many as are
    needed. -/
theorem finalStack_shared (hfinal : finalInput c tx i (signedInput c tx items i input) = some out) : ∃ sigs : Datas,
    List.Forall₂ (fun pub sig => acceptedBy c tx i (sharedKeysScript keys master) pub sig = true)
        (coveredKeys c items (sharedKeysScript keys master)) sigs ∧
      (∀ s ∈ sigs, MadeFor c tx i items (sharedKeysScript keys master) s) ∧
      out.witnessStack = if sigs.length = neededSigsOf keys master then some [] :: sigs ++ [sharedKeysScript keys master]
        else sigs ++ [sharedKeysScript keys master] := by
  obtain ⟨new, hstack, hnodup, hnew⟩ := signedInput_shared h hpays hlisted tx i
  have hperm := sorted_perm hapart hnew (fun pub => length_key_shared h) hnodup
  have hcovered := sorted_covered hapart hnew (fun pub => length_key_shared h) hnodup
  refine ⟨_, hcovered, fun s hs => (hnew s).mp (hperm.mem_iff.mp hs), ?_⟩
  generalize hsigs : sortByKeys (acceptedBy c tx i (sharedKeysScript keys master)) (allPubKeys (sharedKeysScript keys master)) new =
    sigs at hperm
  obtain ⟨sorted, witnessStack, scriptData, hsorted, hcorrected, -, rfl⟩ := finalInput_eq_some_iff.mp hfinal
  have hresult : sorted = sigs ++ [sharedKeysScript keys master] := by
    rw [sortedAside, hstack] at hsorted
    split at hsorted
    · rw [sortedStack_eq, datasLast_concat, List.dropLast_concat, hsigs] at hsorted
      split at hsorted
      · exact (Option.some.inj hsorted).symm
      · cases hsorted
    · -- at most one signature needs no sorting
      rename_i hshort
      have hsame : sigs = new := by
        rcases new with - | ⟨s, - | ⟨t, rest⟩⟩
        · exact hperm.eq_nil
        · exact List.perm_singleton.mp hperm
        · simp at hshort
      rw [hsame]
      split at hsorted
      · cases hsorted
      · exact (Option.some.inj hsorted).symm
  rw [hresult, correctedStack_shared h] at hcorrected
  exact (Option.some.inj hcorrected).symm

end

/-- The stack that meets the script: the empty element, signatures of as many different keys
    as are needed, in the order of the script, that of the master key, and the script. -/
def SpendsShared (c : Crypto) (tx : Transaction) (i : Nat) (keys : Datas) (master : Option Data) (stack : Datas) : Prop :=
  ∃ signers sigs : Datas, signers.Sublist (datasSort keys) ∧ signers.Nodup ∧ signers.length = neededOf keys ∧
    List.Forall₂ (fun pub sig => acceptedBy c tx i (sharedKeysScript keys master) pub sig = true) (signers ++ master.toList) sigs ∧
      stack = some [] :: sigs ++ [sharedKeysScript keys master]

theorem acceptedBy_core {a b : Transaction} (hcore : a.core = b.core) (script : Data) :
    acceptedBy c a i script = acceptedBy c b i script := by
  funext pub sig
  rw [acceptedBy, acceptedBy, witnessDigest_congr c hcore]

/-- The script is met if the listed keys cover as many different keys of it as are needed,
    neither fewer nor more, and the master key. -/
theorem transactionSign_multisig_iff {keys : Datas} {master : Option Data} {tx' : Transaction} {affected : List Nat}
    (h : SharedKeys keys master) (hin : tx.inputs[i]? = some input) (hpays : PaysTo c items (sharedKeysScript keys master) input)
    (hlisted : ListedAlone c items (sharedKeysScript keys master)) (hapart : KeysApart c tx i items (sharedKeysScript keys master))
    (hsign : transactionSign c tx items = some (tx', affected)) :
    (∃ out, tx'.inputs[i]? = some out ∧ SpendsShared c tx' i keys master out.witnessStack) ↔
      ∃ signers, coveredKeys c items (sharedKeysScript keys master) = signers ++ master.toList ∧ signers.length = neededOf keys := by
  obtain ⟨hmap, -⟩ := transactionSign_iff.mp hsign
  have hcore : tx'.core = tx.core := hmap.core fun k x y hy => (core_finalInput hy).trans rfl
  obtain ⟨out, hout, hfinal⟩ := hmap.inputs.get hin
  obtain ⟨sigs, hcovered, hmade, hstack⟩ := finalStack_shared h hpays hlisted hapart hfinal
  have hkeys : coveredKeys c items (sharedKeysScript keys master) ⊆ datasSort keys ++ master.toList := by
    rw [← allPubKeys_shared h]
    exact fun pub hpub => mem_firsts.mp (List.mem_filter.mp hpub).1
  have hcount := hcovered.length_eq
  rw [hout]
  constructor
  · rintro ⟨out', hout', signers, sigs', hsub, hnodup, hlength, hsigners, hspends⟩
    obtain rfl := Option.some.inj hout'
    rw [acceptedBy_core hcore] at hsigners
    rw [hspends] at hstack
    split at hstack
    · obtain rfl : sigs' = sigs := by simpa using hstack
      refine ⟨signers, ?_, hlength⟩
      have hsigner : signers ++ master.toList ⊆ datasSort keys ++ master.toList :=
        List.append_subset.mpr ⟨fun pub hpub => List.mem_append_left _ (hsub.subset hpub), List.subset_append_right _ _⟩
      refine keys_unique hkeys hsigner (fun sig hsig pub hpub other hother => ?_) hcovered hsigners
      rw [← allPubKeys_shared h] at hpub hother
      exact key_unique hapart hmade hsig hpub hother
    · -- no key accepts the empty element
      have hempty : some [] ∈ sigs := by
        rw [← List.append_cancel_right hstack]
        exact List.mem_cons_self
      obtain ⟨item, hitem, hkey, hsame⟩ := hmade _ hempty
      have haccepts := hapart.accepted item hitem hkey
      rw [← hsame, acceptedBy_empty] at haccepts
      cases haccepts
  · rintro ⟨signers, hsigners, hlength⟩
    have hsub : (signers ++ master.toList).Sublist (datasSort keys ++ master.toList) := by
      rw [← hsigners, ← allPubKeys_shared h]
      exact List.filter_sublist.trans (firsts_sublist _)
    have hnodup : (signers ++ master.toList).Nodup := by
      rw [← hsigners]
      exact (firsts_nodup _).filter _
    refine ⟨out, rfl, signers, sigs, (List.append_sublist_append_right _).mp hsub, hnodup.of_append_left, hlength, ?_, ?_⟩
    · rw [acceptedBy_core hcore, ← hsigners]
      exact hcovered
    · rw [hstack, if_pos]
      rw [← hcount, hsigners, List.length_append, hlength]
      rfl

/-- Two keys, one of them needed. -/
def oneOfTwo : Datas := [pubKey plainCrypto (signerKey 1), pubKey plainCrypto (signerKey 2)]

def oneOfTwoScript : Data :=
  some ([0x51] ++ scriptPush (pubKey plainCrypto (signerKey 1)) ++ scriptPush (pubKey plainCrypto (signerKey 2)) ++
    [0x52, UInt8.ofNat OP_CHECKMULTISIG])

theorem script_oneOfTwo : sharedKeysScript oneOfTwo none = oneOfTwoScript := by
  have hsorted : datasSort oneOfTwo = oneOfTwo := List.mergeSort_of_pairwise (by decide +kernel)
  show some (multisigScript oneOfTwo) = _
  rw [multisigScript, hsorted]
  decide +kernel

def oneOfTwoInput : TransactionInput :=
  { twoKeyInput [] with fundingOutput := ⟨some (p2wshPubScriptWithScript plainCrypto oneOfTwoScript), 1000⟩ }

def oneOfTwoTransaction : Transaction where
  version := 2
  inputs := [oneOfTwoInput]
  outputs := [⟨some [0x51], 900⟩]
  locktime := 0

theorem transactionSign_multisig_one : ∃ tx' affected out,
    transactionSign plainCrypto oneOfTwoTransaction [sharedKeysScript oneOfTwo none, signerKey 1] = some (tx', affected) ∧
      tx'.inputs[0]? = some out ∧ SpendsShared plainCrypto tx' 0 oneOfTwo none out.witnessStack := by
  have hcall : (transactionSign plainCrypto oneOfTwoTransaction [sharedKeysScript oneOfTwo none, signerKey 1]).isSome = true := by
    rw [script_oneOfTwo]
    decide +kernel
  obtain ⟨⟨tx', affected⟩, hsign⟩ := Option.isSome_iff_exists.mp hcall
  have hshared : SharedKeys oneOfTwo none := ⟨by decide, by decide, by decide +kernel, fun mk hmk => by cases hmk⟩
  have hpays : PaysTo plainCrypto [sharedKeysScript oneOfTwo none, signerKey 1] (sharedKeysScript oneOfTwo none) oneOfTwoInput := by
    rw [script_oneOfTwo]
    exact Or.inl ⟨by decide +kernel, rfl⟩
  have hlisted : ListedAlone plainCrypto [sharedKeysScript oneOfTwo none, signerKey 1] (sharedKeysScript oneOfTwo none) := by
    rw [script_oneOfTwo]
    exact ⟨List.mem_cons_self, by decide +kernel⟩
  have hapart : KeysApart plainCrypto oneOfTwoTransaction 0 [sharedKeysScript oneOfTwo none, signerKey 1]
      (sharedKeysScript oneOfTwo none) := by
    rw [script_oneOfTwo]
    exact ⟨by decide +kernel, by decide +kernel, by decide +kernel⟩
  obtain ⟨out, hout, hspends⟩ := (transactionSign_multisig_iff (i := 0) hshared rfl hpays hlisted hapart hsign).mpr
    ⟨[pubKey plainCrypto (signerKey 1)], by rw [script_oneOfTwo]; decide +kernel, rfl⟩
  exact ⟨tx', affected, out, hsign, hout, hspends⟩

/-- With both keys listed both signatures stay, and there is no empty element. -/
theorem not_transactionSign_multisig : ∃ tx' affected out,
    transactionSign plainCrypto oneOfTwoTransaction [sharedKeysScript oneOfTwo none, signerKey 1, signerKey 2] = some (tx', affected) ∧
      tx'.inputs[0]? = some out ∧ ¬ SpendsShared plainCrypto tx' 0 oneOfTwo none out.witnessStack := by
  have hrun : (transactionSign plainCrypto oneOfTwoTransaction [sharedKeysScript oneOfTwo none, signerKey 1, signerKey 2]).map
      (fun result => result.1.inputs.map TransactionInput.witnessStack) =
        some [[witnessSignature plainCrypto oneOfTwoTransaction 0 oneOfTwoScript (signerKey 1),
          witnessSignature plainCrypto oneOfTwoTransaction 0 oneOfTwoScript (signerKey 2), oneOfTwoScript]] := by
    rw [script_oneOfTwo]
    decide +kernel
  obtain ⟨⟨tx', affected⟩, hsign, hstacks⟩ := Option.map_eq_some_iff.mp hrun
  obtain ⟨out, rest, hinputs, hstack, -⟩ := List.map_eq_cons_iff.mp hstacks
  refine ⟨tx', affected, out, hsign, by rw [hinputs]; rfl, ?_⟩
  rw [hstack]
  rintro ⟨_, sigs, -, -, -, -, hspends⟩
  obtain ⟨hempty, -⟩ := List.cons_eq_cons.mp hspends
  exact absurd hempty (by decide +kernel)

end BitcoinSpoon
