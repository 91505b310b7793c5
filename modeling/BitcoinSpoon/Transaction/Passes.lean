/-
  BitcoinSpoon.Transaction.Passes — what the three passes leave of one input, by its type.

  For a pay-to-pubkey input only the keys of the funding script matter, in their order,
  each with the digest it signs (`directSigners`); for the types that are matched by a
  hash only the last match; for a witness script the signatures of its keys, each once,
  in front of the script (`signStack`). A key hash stack ends in a public key, which has
  no keys of its own, so the third pass leaves it as it is.
-/

import BitcoinSpoon.Transaction.Redeem

namespace BitcoinSpoon

open Wire Loop

/-! ## Items and what stands in front of them -/

/-- Each item with whether the one in front of it was not 32 bytes long. -/
def marked : Bool → Datas → List (Bool × Data)
  | _, [] => []
  | dirty, item :: items => (dirty, item) :: marked (isDirty item) items

/-- There is an input after `i` that may be left with its funding script. -/
def carriesAfter (tx : Transaction) (i : Nat) : Bool := (tx.inputs.drop (i + 1)).any carriesScript

section

variable (c : Crypto)

def isKey (item : Data) : Bool := item.length = 32 && (pubKey c item).isSome

/-- The item is the key of a pay-to-pubkey script. -/
def signsPubkey (script item : Data) : Bool :=
  item.length = 32 && (allPubKeys script).any fun key => dataEqual key (pubKey c item) || dataEqual key (pubKeyFull c item)

/-- The item is the key a pay-to-pubkey-hash script names. -/
def signsPubkeyHash (script item : Data) : Bool :=
  isKey c item && (dataEqual (some (p2pkhPubScript (hash160 c (pubKeyFull c item)))) script ||
    dataEqual (some (p2pkhPubScript (hash160 c (pubKey c item)))) script)

def signsKeyHash (script item : Data) : Bool := isKey c item && dataEqual (p2wpkhPubScriptFromPubKey c (pubKey c item)) script

def isWitnessScript (script item : Data) : Bool := dataEqual (some (p2wshPubScriptWithScript c item)) script

def isRedeemScript (script item : Data) : Bool := dataEqual (some (p2shPubScriptWithScript c item)) script

/-- The item is the witness script a redeem script names. -/
def isNestedScript (redeem item : Data) : Bool := dataEqual redeem (some (nestedP2wshScript c item))

/-- The item is the key a redeem script names. -/
def isNestedKey (redeem item : Data) : Bool := isKey c item && dataEqual redeem (some (nestedP2wpkhScript c (pubKey c item)))

/-- The item is a key of a redeem script or of a witness script. -/
def isScriptKey (script item : Data) : Bool := isKey c item && (allPubKeys script).any (dataEqual · (pubKey c item))

/-- The keys that sign an input in the first pass, each with what it finds in later inputs. -/
def directSigners (tx : Transaction) (i : Nat) (signs : Data → Bool) (items : Datas) : List (Bool × Data) :=
  ((marked false items).map fun p => (p.1 && carriesAfter tx i, p.2)).filter fun p => signs p.2

end

variable {c : Crypto} {tx : Transaction} {i : Nat} {input : TransactionInput}

/-- What a later input carries makes no difference when there is none that carries anything. -/
theorem signingDigest_after (tx : Transaction) (dirty : Bool) (i : Nat) :
    signingDigest tx (dirty && carriesAfter tx i) i = signingDigest tx dirty i := by
  cases dirty with
  | false => rfl
  | true =>
    cases hafter : carriesAfter tx i with
    | true => rfl
    | false =>
      unfold signingDigest
      congr 2
      funext k
      by_cases hki : k = i
      · rw [if_pos hki, if_pos hki]
      rw [if_neg hki, if_neg hki]
      unfold carriedScripts
      by_cases hlt : k < i
      · simp only [hlt, if_true]
      · cases hx : tx.inputs[k]? with
        | none => rfl
        | some x =>
          have hmem : x ∈ tx.inputs.drop (i + 1) := by
            apply List.mem_of_getElem? (i := k - (i + 1))
            rw [List.getElem?_drop, ← hx]
            congr 1
            omega
          have hcarries : carriesScript x = false := by
            simpa using List.any_eq_false.mp hafter x hmem
          simp only [hlt, if_false, Option.map_some, Option.getD_some, carriedScript, hcarries]
          rfl

/-- The digest of a redeem script when no input carries anything. -/
theorem redeemDigest_plain (h : tx.inputs.any carriesScript = false) (dirty dirty' : Bool) :
    redeemDigest tx dirty = redeemDigest tx dirty' := by
  unfold redeemDigest
  congr 2
  funext k
  unfold carriedScripts
  cases hx : tx.inputs[k]? with
  | none => rfl
  | some x =>
    have hcarries : carriesScript x = false := by
      simpa using List.any_eq_false.mp h x (List.mem_of_getElem? hx)
    simp only [Option.map_some, Option.getD_some, carriedScript, hcarries]
    rfl

theorem viewDirects_marked (dirty : Bool) (items : Datas) (v : InputView) :
    viewDirects c tx i input dirty items v =
      (marked dirty items).foldl (fun v p => viewDirect c tx (signingDigest tx p.1 i) p.2 i input v) v := by
  induction items generalizing dirty v with
  | nil => rfl
  | cons item items ih => rw [viewDirects, ih, marked, List.foldl_cons]

theorem map_snd_marked (dirty : Bool) (items : Datas) : (marked dirty items).map Prod.snd = items := by
  induction items generalizing dirty with
  | nil => rfl
  | cons item items ih => rw [marked, List.map_cons, ih]

theorem viewDirects_after (items : Datas) (v : InputView) :
    viewDirects c tx i input false items v =
      ((marked false items).map fun p => (p.1 && carriesAfter tx i, p.2)).foldl
        (fun v p => viewDirect c tx (signingDigest tx p.1 i) p.2 i input v) v := by
  rw [viewDirects_marked, List.foldl_map]
  simp only [signingDigest_after]

/-- Only the keys that sign matter. -/
theorem viewDirects_signers {signs : Data → Bool}
    (hskip : ∀ digest item v, signs item = false → viewDirect c tx digest item i input v = v) (items : Datas)
    (v : InputView) :
    viewDirects c tx i input false items v =
      (directSigners tx i signs items).foldl (fun v p => viewDirect c tx (signingDigest tx p.1 i) p.2 i input v) v := by
  rw [viewDirects_after, directSigners, ← foldl_relevant]
  intro v p _ hp
  exact hskip _ _ _ hp

theorem mem_directSigners (tx : Transaction) (i : Nat) {signs : Data → Bool} {items : Datas} {item : Data} (hitem : item ∈ items)
    (hsigns : signs item = true) : ∃ d, (d, item) ∈ directSigners tx i signs items := by
  rw [← map_snd_marked false items] at hitem
  obtain ⟨p, hp, rfl⟩ := List.mem_map.mp hitem
  exact ⟨p.1 && carriesAfter tx i, List.mem_filter.mpr ⟨List.mem_map.mpr ⟨p, hp, rfl⟩, hsigns⟩⟩

/-- The types that sign no legacy digest in the first pass. -/
theorem viewDirects_plain (h : ∀ digest digest' item v,
    viewDirect c tx digest item i input v = viewDirect c tx digest' item i input v) (dirty : Bool) (items : Datas)
    (v : InputView) :
    viewDirects c tx i input dirty items v = items.foldl (fun v item => viewDirect c tx none item i input v) v := by
  rw [viewDirects_marked]
  conv_rhs => rw [← map_snd_marked dirty items]
  rw [List.foldl_map]
  congr 1
  funext v p
  exact h _ _ _ _

/-! ## The first pass -/

section

variable {digest item : Data} {v : InputView}

theorem viewDirect_pubkey_skip (ht : transactionInputType input = .payToPubkey)
    (h : signsPubkey c input.fundingOutput.script item = false) : viewDirect c tx digest item i input v = v := by
  unfold viewDirect viewPayToPubkey
  rw [ht]
  dsimp only
  split
  · rfl
  · rename_i hlen
    have hkeys : ∀ key ∈ allPubKeys input.fundingOutput.script,
        (dataEqual key (pubKey c item) || dataEqual key (pubKeyFull c item)) = false := by
      unfold signsPubkey at h
      rw [decide_eq_true (not_not.mp hlen), Bool.true_and] at h
      intro key hkey
      exact Bool.eq_false_of_not_eq_true (List.any_eq_false.mp h key hkey)
    refine foldl_inv (fun w => w = v) rfl ?_
    intro key hkey w hw
    rw [viewScriptPubKey, hkeys key hkey]
    exact hw

/-- Once there is a script sig there is one. -/
theorem viewScriptPubKeys_isSome (keys : Datas) (h : v.scriptSig.isSome = true) :
    (keys.foldl (fun v key => viewScriptPubKey c digest item i key v) v).scriptSig.isSome = true := by
  refine foldl_inv (fun w : InputView => w.scriptSig.isSome = true) h ?_
  intro key _ w hw
  unfold viewScriptPubKey
  split
  · rfl
  · exact hw

theorem viewDirect_pubkey_isSome (tx : Transaction) (i : Nat) (digest : Data)
    (ht : transactionInputType input = .payToPubkey)
    (h : signsPubkey c input.fundingOutput.script item = true ∨ v.scriptSig.isSome = true) :
    (viewDirect c tx digest item i input v).scriptSig.isSome = true := by
  unfold viewDirect viewPayToPubkey
  rw [ht]
  dsimp only
  unfold signsPubkey at h
  rw [Bool.and_eq_true, decide_eq_true_eq] at h
  split
  · rename_i hlen
    rcases h with h | h
    · exact absurd h.1 hlen
    · exact h
  rcases h with ⟨-, h⟩ | h
  · generalize allPubKeys input.fundingOutput.script = keys at h
    induction keys generalizing v with
    | nil => cases h
    | cons key keys ih =>
      rw [List.any_cons, Bool.or_eq_true] at h
      rw [List.foldl_cons]
      rcases h with h | h
      · apply viewScriptPubKeys_isSome
        rw [viewScriptPubKey, if_pos h]
        rfl
      · exact ih h
  · exact viewScriptPubKeys_isSome _ h

theorem witnessStack_viewScriptPubKeys (digest item : Data) (keys : Datas) (v : InputView) :
    (keys.foldl (fun v key => viewScriptPubKey c digest item i key v) v).witnessStack = v.witnessStack := by
  refine Loop.foldl_inv (fun w : InputView => w.witnessStack = v.witnessStack) rfl ?_
  intro key _ w hw
  rw [← hw]
  unfold viewScriptPubKey
  split <;> rfl

/-- An item that signs with a script sig only. -/
theorem witnessStack_viewDirect_pubkey (ht : carriesScript input = true) (digest item : Data) (v : InputView) :
    (viewDirect c tx digest item i input v).witnessStack = v.witnessStack := by
  unfold viewDirect
  cases h : transactionInputType input with
  | payToPubkey =>
    dsimp only
    unfold viewPayToPubkey
    split
    · rfl
    · exact witnessStack_viewScriptPubKeys ..
  | payToPubkeyHash =>
    dsimp only
    unfold viewPayToPubkeyHash
    split
    · rfl
    split
    · rfl
    split <;> rfl
  | payToPubkeyWitness | payToScriptHash | payToScriptWitness | unknown => simp [carriesScript, h] at ht

theorem viewDirect_pubkeyHash_skip (ht : transactionInputType input = .payToPubkeyHash)
    (h : signsPubkeyHash c input.fundingOutput.script item = false) : viewDirect c tx digest item i input v = v := by
  unfold viewDirect viewPayToPubkeyHash
  unfold signsPubkeyHash isKey at h
  rw [ht]
  dsimp only
  split
  · rfl
  rename_i hlen
  rw [decide_eq_true (not_not.mp hlen), Bool.true_and, Bool.and_or_distrib_left, Bool.or_eq_false_iff] at h
  rw [h.1, h.2]
  rfl

/-- The script sig a key makes for its hash. -/
def hashedKeyScriptSig (c : Crypto) (digest item script : Data) : Data :=
  some (scriptPush (signAll c digest item) ++
    scriptPush (if dataEqual (some (p2pkhPubScript (hash160 c (pubKeyFull c item)))) script then pubKeyFull c item
      else pubKey c item))

theorem viewDirect_pubkeyHash (ht : transactionInputType input = .payToPubkeyHash)
    (h : signsPubkeyHash c input.fundingOutput.script item = true) :
    (viewDirect c tx digest item i input v).scriptSig =
      some (hashedKeyScriptSig c digest item input.fundingOutput.script) := by
  unfold viewDirect viewPayToPubkeyHash
  unfold signsPubkeyHash isKey at h
  simp only [Bool.and_eq_true, decide_eq_true_eq] at h
  obtain ⟨⟨hlen, hpub⟩, h⟩ := h
  rw [ht, hpub]
  dsimp only
  rw [if_neg (by simpa using hlen), Bool.true_and, Bool.true_and]
  unfold hashedKeyScriptSig
  by_cases hfull : dataEqual (some (p2pkhPubScript (hash160 c (pubKeyFull c item)))) input.fundingOutput.script = true
  · rw [if_pos hfull, if_pos hfull]
    rfl
  · rw [if_neg hfull, if_neg hfull]
    rw [Bool.not_eq_true] at hfull
    rw [hfull, Bool.false_or] at h
    rw [if_pos h]
    rfl

/-- The stack of a key hash input. -/
def keyHashStack (c : Crypto) (tx : Transaction) (i : Nat) (item : Data) : Datas :=
  [witnessSignature c tx i (some (p2wpkhImpliedScript c (pubKey c item))) item, pubKey c item]

theorem viewDirect_keyHash (ht : transactionInputType input = .payToPubkeyWitness) :
    (viewDirect c tx digest item i input v).witnessStack =
        (if signsKeyHash c input.fundingOutput.script item then keyHashStack c tx i item else v.witnessStack) ∧
      (viewDirect c tx digest item i input v).scriptSig = v.scriptSig := by
  unfold viewDirect viewPayToPubkeyWitness signsKeyHash isKey
  rw [ht]
  dsimp only
  by_cases hlen : item.length = 32
  · rw [if_neg (by simpa using hlen), decide_eq_true hlen, Bool.true_and]
    split
    · exact ⟨rfl, rfl⟩
    · exact ⟨rfl, rfl⟩
  · rw [if_pos hlen, decide_eq_false hlen]
    exact ⟨rfl, rfl⟩

theorem viewDirect_witnessScript (ht : transactionInputType input = .payToScriptWitness) :
    (viewDirect c tx digest item i input v).witnessStack =
        (if isWitnessScript c input.fundingOutput.script item then [item] else v.witnessStack) ∧
      (viewDirect c tx digest item i input v).scriptSig = v.scriptSig := by
  unfold viewDirect viewPayToScriptWitness isWitnessScript
  rw [ht]
  dsimp only
  split
  · exact ⟨rfl, rfl⟩
  · exact ⟨rfl, rfl⟩

theorem viewDirect_redeemScript (ht : transactionInputType input = .payToScriptHash) :
    (viewDirect c tx digest item i input v).scriptSig =
        (if isRedeemScript c input.fundingOutput.script item then some (some (scriptPush item)) else v.scriptSig) ∧
      (viewDirect c tx digest item i input v).witnessStack = v.witnessStack := by
  unfold viewDirect viewPayToScriptHash isRedeemScript
  rw [ht]
  dsimp only
  split
  · exact ⟨rfl, rfl⟩
  · exact ⟨rfl, rfl⟩

end

/-- The types that are matched by a hash in the witness have no script sig to sign. -/
theorem scriptSig_viewDirects_witness (ht : (transactionInputType input).isLegacy = false) (dirty : Bool) (items : Datas)
    (v : InputView) : (viewDirects c tx i input dirty items v).scriptSig = v.scriptSig := by
  induction items generalizing dirty v with
  | nil => rfl
  | cons item items ih =>
    rw [viewDirects, ih]
    cases h : transactionInputType input with
    | payToPubkey | payToPubkeyHash | payToScriptHash => rw [h] at ht; cases ht
    | payToPubkeyWitness => exact (viewDirect_keyHash h).2
    | payToScriptWitness => exact (viewDirect_witnessScript h).2
    | unknown =>
      unfold viewDirect
      rw [h]

/-- A legacy input with nothing set aside had no script data. -/
theorem scriptData_of_stashed (ht : (transactionInputType input).isLegacy = true) (h : stashed input = none) :
    input.scriptData = none := by
  unfold stashed at h
  rw [ht] at h
  cases hd : input.scriptData with
  | none => rfl
  | some d => rw [hd] at h; cases h

/-- A pay-to-pubkey input without a script sig had none, and no listed key is its key. -/
theorem unsigned_of_viewDirects (ht : transactionInputType input = .payToPubkey) {dirty : Bool} {items : Datas}
    {v : InputView} (h : (viewDirects c tx i input dirty items v).scriptSig = none) :
    v.scriptSig = none ∧ ∀ item ∈ items, signsPubkey c input.fundingOutput.script item = false := by
  induction items generalizing dirty v with
  | nil => exact ⟨h, fun item hitem => by cases hitem⟩
  | cons item items ih =>
    obtain ⟨hnone, hrest⟩ := ih h
    have hskip : ¬ (signsPubkey c input.fundingOutput.script item = true ∨ v.scriptSig.isSome = true) := by
      intro hor
      have hsome := viewDirect_pubkey_isSome tx i (signingDigest tx dirty i) ht hor
      rw [hnone] at hsome
      cases hsome
    rw [not_or, Bool.not_eq_true, Bool.not_eq_true, Option.isSome_eq_false_iff, Option.isNone_iff_eq_none] at hskip
    refine ⟨hskip.2, ?_⟩
    intro x hx
    rcases List.mem_cons.mp hx with rfl | hx
    · exact hskip.1
    · exact hrest x hx

/-! ## The second pass -/

theorem viewNesteds_skip (h : transactionInputType input ≠ .payToScriptHash) (items : Datas) (v : InputView) :
    items.foldl (fun v item => viewNested c item input v) v = v := by
  refine foldl_inv (fun w => w = v) rfl ?_
  intro item _ w hw
  unfold viewNested
  rw [if_neg (fun hn => h hn.1), hw]

theorem viewNesteds_witnessStack (ht : transactionInputType input = .payToScriptHash) (items : Datas) (v : InputView) :
    (items.foldl (fun v item => viewNested c item input v) v).witnessStack =
      items.foldl (fun stack item => if isNestedScript c v.redeem item then [item] else stack) v.witnessStack := by
  induction items generalizing v with
  | nil => rfl
  | cons item items ih =>
    have hredeem : (viewNested c item input v).redeem = v.redeem := by
      rw [InputView.redeem, InputView.scriptSigData, scriptSig_viewNested]
      rfl
    rw [List.foldl_cons, List.foldl_cons, ih, hredeem]
    congr 1
    unfold viewNested isNestedScript
    by_cases hempty : v.scriptSigData.length = 0
    · have hnone : v.redeem = none := by
        unfold InputView.redeem readPushes
        rw [hempty]
        rfl
      rw [if_neg (fun hn => hn.2 hempty), hnone]
      rfl
    · rw [if_pos ⟨ht, hempty⟩]
      split <;> rfl

/-! ## The third pass -/

theorem isKey_iff {item : Data} : isKey c item = true ↔ ¬ (item.length ≠ 32 ∨ pubKey c item = none) := by
  unfold isKey
  rw [Bool.and_eq_true, decide_eq_true_eq, not_or, not_not, Option.isSome_iff_ne_none]

theorem pubKey_length {item : Data} (h : isKey c item = true) : (pubKey c item).length = 33 := by
  unfold isKey at h
  rw [Bool.and_eq_true] at h
  obtain ⟨b, hb⟩ := Option.isSome_iff_exists.mp h.2
  rw [hb]
  unfold pubKey publicKeyCompress publicKeySerialize at hb
  split at hb
  · cases hb
  split at hb
  · cases hb
  · simpa using c.ecPubkeySerialize_length _ _ _ hb

/-- A public key or a key hash program is too short to have a key in it. -/
theorem isScriptKey_short {script : Data} (h : script.length ≤ 33) (item : Data) : isScriptKey c script item = false := by
  by_contra hkey
  rw [Bool.not_eq_false] at hkey
  unfold isScriptKey at hkey
  rw [Bool.and_eq_true] at hkey
  obtain ⟨key, hmem, heq⟩ := List.any_eq_true.mp hkey.2
  have hlt := length_lt_of_mem_allPubKeys hmem
  have hlen : key.length = (pubKey c item).length := congrArg List.length (dataEqual_iff.mp heq)
  have hsize := pubKey_length hkey.1
  omega

/-- A signature for a redeem script, in the script sig. -/
def signRedeem (c : Crypto) (digest item : Data) (scriptSig : Option Data) : Option Data :=
  if isScriptKey c (datasLast (readPushes (scriptSig.getD none))) item then
    some (some (writePushes (datasAddCopyIndex (readPushes (scriptSig.getD none)) (signAll c digest item)
      ((readPushes (scriptSig.getD none)).length - 1))))
  else scriptSig

/-- The signatures of the listed keys of the last element of a stack. -/
def signStack (c : Crypto) (tx : Transaction) (i : Nat) (items stack : Datas) : Datas :=
  items.foldl
    (fun stack item =>
      if isScriptKey c (datasLast stack) item then
        insertSignature (witnessSignature c tx i (datasLast stack) item) stack
      else stack)
    stack

section

variable {digest item : Data} {v : InputView}

/-- What a key does to the redeem script it is in. -/
def signRedeemKey (c : Crypto) (digest item : Data) (i : Nat) (v : InputView) : InputView :=
  if isScriptKey c v.redeem item then
    ((v.setScriptSig (writePushes (datasAddCopyIndex (readPushes v.scriptSigData) (signAll c digest item)
      ((readPushes v.scriptSigData).length - 1)))).effect).record i digest item
  else v

/-- What a key does to the witness script it is in. -/
def signWitnessKey (c : Crypto) (tx : Transaction) (item : Data) (i : Nat) (v : InputView) : InputView :=
  if isScriptKey c (datasLast v.witnessStack) item then
    (v.setWitnessStack (insertSignature (witnessSignature c tx i (datasLast v.witnessStack) item) v.witnessStack)).effect
  else v

/-- The third pass, by what the item is to the input. -/
theorem viewScripts_eq (tx : Transaction) (digest item : Data) (i : Nat) (input : TransactionInput) (v : InputView) :
    viewScripts c tx digest item i input v =
      if transactionInputType input = .payToScriptHash ∧ isNestedKey c v.redeem item = true then
        (v.setWitnessStack (keyHashStack c tx i item)).effect
      else
        signWitnessKey c tx item i
          (if transactionInputType input = .payToScriptHash then signRedeemKey c digest item i v else v) := by
  unfold viewScripts
  by_cases hkey : isKey c item = true
  · have hredeem : viewRedeemScript c digest item i v = signRedeemKey c digest item i v := by
      unfold viewRedeemScript signRedeemKey isScriptKey
      rw [hkey, Bool.true_and]
    have hwitness : ∀ w : InputView,
        (if transactionInputType input = .payToScriptWitness ∨ w.witnessStack.length ≠ 0 then
          viewWitnessScript c tx item i w else w) = signWitnessKey c tx item i w := by
      intro w
      split
      · unfold viewWitnessScript signWitnessKey isScriptKey
        rw [hkey, Bool.true_and]
      · rename_i hnone
        rw [not_or, not_not] at hnone
        unfold signWitnessKey
        rw [List.eq_nil_of_length_eq_zero hnone.2, datasLast_nil, isScriptKey_short (by decide)]
        rfl
    unfold isNestedKey
    rw [if_neg (isKey_iff.mp hkey), hkey, Bool.true_and]
    dsimp only
    rw [hwitness, hredeem]
    rfl
  · rw [if_pos (by rw [isKey_iff, not_not] at hkey; exact hkey)]
    rw [Bool.not_eq_true] at hkey
    unfold signWitnessKey signRedeemKey isNestedKey isScriptKey
    rw [hkey]
    simp

/-- An item of the third pass that names no nested key hash. -/
theorem viewScripts_spec (tx : Transaction) (i : Nat) (digest item : Data) (v : InputView)
    (h : transactionInputType input = .payToScriptHash → isNestedKey c v.redeem item = false) :
    (viewScripts c tx digest item i input v).witnessStack =
        (if isScriptKey c (datasLast v.witnessStack) item then
          insertSignature (witnessSignature c tx i (datasLast v.witnessStack) item) v.witnessStack
        else v.witnessStack) ∧
      (viewScripts c tx digest item i input v).scriptSig =
        if transactionInputType input = .payToScriptHash then signRedeem c digest item v.scriptSig else v.scriptSig := by
  have hredeem : (signRedeemKey c digest item i v).witnessStack = v.witnessStack ∧
      (signRedeemKey c digest item i v).scriptSig = signRedeem c digest item v.scriptSig := by
    unfold signRedeemKey signRedeem
    split
    · rename_i hkey
      exact ⟨rfl, (if_pos hkey).symm⟩
    · rename_i hkey
      exact ⟨rfl, (if_neg hkey).symm⟩
  have hwitness : ∀ w : InputView, (signWitnessKey c tx item i w).witnessStack =
        (if isScriptKey c (datasLast w.witnessStack) item then
          insertSignature (witnessSignature c tx i (datasLast w.witnessStack) item) w.witnessStack
        else w.witnessStack) ∧ (signWitnessKey c tx item i w).scriptSig = w.scriptSig := by
    intro w
    unfold signWitnessKey
    split
    · exact ⟨rfl, rfl⟩
    · exact ⟨rfl, rfl⟩
  have hnot : ¬ (transactionInputType input = .payToScriptHash ∧ isNestedKey c v.redeem item = true) := by
    intro ⟨ht, hn⟩
    rw [h ht] at hn
    cases hn
  rw [viewScripts_eq, if_neg hnot, (hwitness _).1, (hwitness _).2]
  split
  · rw [hredeem.1, hredeem.2]
    exact ⟨rfl, rfl⟩
  · exact ⟨rfl, rfl⟩

theorem viewScripts_nestedKey (ht : transactionInputType input = .payToScriptHash) (h : isNestedKey c v.redeem item = true) :
    (viewScripts c tx digest item i input v).witnessStack = keyHashStack c tx i item ∧
      (viewScripts c tx digest item i input v).scriptSig = v.scriptSig := by
  rw [viewScripts_eq, if_pos ⟨ht, h⟩]
  exact ⟨rfl, rfl⟩

end

theorem isScriptKey_congr {a b : Data} (h : a.toBytes = b.toBytes) (item : Data) : isScriptKey c a item = isScriptKey c b item := by
  rw [isScriptKey, isScriptKey, allPubKeys_congr h]

theorem isNestedKey_congr {a b : Data} (h : a.toBytes = b.toBytes) (item : Data) : isNestedKey c a item = isNestedKey c b item := by
  rw [isNestedKey, isNestedKey, dataEqual, dataEqual, h]

theorem nestedP2wpkhScript_short (c : Crypto) (pub : Data) : (nestedP2wpkhScript c pub).length ≤ 33 := by
  unfold nestedP2wpkhScript hash160 ripemd160
  cases sha256 c (publicKeyCompress c (publicKeyParse c pub)) with
  | none => simp [scriptPush, pushData, uint8D, OP_PUSHDATA1]
  | some b => simp [scriptPush, pushData, uint8D, c.ripemd160_length, OP_PUSHDATA1]

/-- A redeem script that names a key by its hash has no keys of its own. -/
theorem isScriptKey_of_nestedKey {script key : Data} (h : isNestedKey c script key = true) (item : Data) :
    isScriptKey c script item = false := by
  unfold isNestedKey at h
  rw [Bool.and_eq_true, dataEqual_iff] at h
  have hlen : script.length = (nestedP2wpkhScript c (pubKey c key)).length := congrArg List.length h.2
  exact isScriptKey_short (hlen ▸ nestedP2wpkhScript_short c (pubKey c key)) item

theorem settledAt_signRedeem {digest s₀ : Data} {settled : Bool} {s : Option Data} (item : Data)
    (h : SettledAt s₀ settled (s.getD none)) :
    SettledAt s₀ (settled || isScriptKey c (redeemMet s₀ settled) item) ((signRedeem c digest item s).getD none) := by
  rw [← isScriptKey_congr (redeem_of_settledAt h)]
  unfold signRedeem
  cases hkey : isScriptKey c (datasLast (readPushes (s.getD none))) item with
  | false =>
    rw [Bool.or_false]
    exact h
  | true =>
    have hlast : (datasLast (readPushes (s.getD none))).length ≠ 0 := by
      intro hempty
      rw [isScriptKey_short (by omega) item] at hkey
      cases hkey
    obtain ⟨hne, hredeem⟩ := readPushes_insert hlast (signAll_length c digest item)
    rw [Bool.or_true]
    refine ⟨hne, hredeem.trans ?_⟩
    cases settled with
    | false => rw [show s.getD none = s₀ from h]
    | true => rw [settledRedeem_eq h.1, h.2]

/-! ### The pass over all items -/

section

variable {digest : Data}

theorem viewScripts_run (ht : transactionInputType input ≠ .payToScriptHash) (items : Datas) (v : InputView) :
    (items.foldl (fun v item => viewScripts c tx digest item i input v) v).witnessStack =
        signStack c tx i items v.witnessStack ∧
      (items.foldl (fun v item => viewScripts c tx digest item i input v) v).scriptSig = v.scriptSig := by
  induction items generalizing v with
  | nil => exact ⟨rfl, rfl⟩
  | cons item items ih =>
    obtain ⟨hstack, hsig⟩ := viewScripts_spec (c := c) tx i digest item v fun h => absurd h ht
    rw [if_neg ht] at hsig
    obtain ⟨hstack', hsig'⟩ := ih (viewScripts c tx digest item i input v)
    rw [List.foldl_cons, hstack', hsig', hstack, hsig]
    exact ⟨rfl, rfl⟩

/-- The keys of the redeem script, as they meet it. -/
def redeemSigners (c : Crypto) (scriptSig : Data) : Bool → Datas → Datas
  | _, [] => []
  | settled, item :: items =>
    if isScriptKey c (redeemMet scriptSig settled) item then item :: redeemSigners c scriptSig true items
    else redeemSigners c scriptSig settled items

/-- The keys that the redeem script, as they meet it, names by their hash. -/
def nestedSigners (c : Crypto) (scriptSig : Data) : Bool → Datas → Datas
  | _, [] => []
  | settled, item :: items =>
    let rest := nestedSigners c scriptSig (settled || isScriptKey c (redeemMet scriptSig settled) item) items
    if isNestedKey c (redeemMet scriptSig settled) item then item :: rest else rest

theorem nestedSigners_eq_nil {scriptSig : Data} {items : Datas} (settled : Bool)
    (h : ∀ item ∈ items, isNestedKey c (datasLast (readPushes scriptSig)) item = false ∧
      isNestedKey c (settledRedeem scriptSig) item = false) : nestedSigners c scriptSig settled items = [] := by
  induction items generalizing settled with
  | nil => rfl
  | cons item items ih =>
    obtain ⟨hlast, hsettled⟩ := h item List.mem_cons_self
    have hno : isNestedKey c (redeemMet scriptSig settled) item = false := by
      unfold redeemMet
      split
      · exact hsettled
      · exact hlast
    rw [nestedSigners, hno]
    exact ih _ fun other hother => h other (List.mem_cons_of_mem _ hother)

theorem signStack_keyHash {item : Data} (h : isKey c item = true) (tx : Transaction) (i : Nat) (items : Datas) :
    signStack c tx i items (keyHashStack c tx i item) = keyHashStack c tx i item := by
  unfold signStack
  refine foldl_inv (fun stack : Datas => stack = keyHashStack c tx i item) rfl ?_
  intro other _ stack hstack
  have hno : isScriptKey c (datasLast stack) other = false := by
    apply isScriptKey_short
    rw [hstack]
    show (pubKey c item).length ≤ 33
    rw [pubKey_length h]
  rw [hno]
  exact hstack

/-- A pay-to-script-hash input: the keys of the redeem script sign in the script sig, and the
    last key it names by its hash takes the place of the stack. -/
theorem viewScripts_run_redeem (ht : transactionInputType input = .payToScriptHash) {s₀ : Data} {settled : Bool}
    (items : Datas) {v : InputView} (hs : SettledAt s₀ settled v.scriptSigData) :
    (items.foldl (fun v item => viewScripts c tx digest item i input v) v).witnessStack =
        ((nestedSigners c s₀ settled items).getLast?.map (keyHashStack c tx i)).getD (signStack c tx i items v.witnessStack) ∧
      (items.foldl (fun v item => viewScripts c tx digest item i input v) v).scriptSig =
        (redeemSigners c s₀ settled items).foldl (fun s item => signRedeem c digest item s) v.scriptSig := by
  induction items generalizing v settled with
  | nil => exact ⟨rfl, rfl⟩
  | cons item items ih =>
    have hmet := redeem_of_settledAt hs
    rw [List.foldl_cons, nestedSigners, redeemSigners]
    cases hnested : isNestedKey c (redeemMet s₀ settled) item with
    | true =>
      have hno := isScriptKey_of_nestedKey hnested item
      have hkey : isKey c item = true := by
        rw [isNestedKey, Bool.and_eq_true] at hnested
        exact hnested.1
      have hcur : isNestedKey c v.redeem item = true := (isNestedKey_congr hmet item).trans hnested
      have hview : (viewScripts c tx digest item i input v).witnessStack = keyHashStack c tx i item ∧
          (viewScripts c tx digest item i input v).scriptSig = v.scriptSig := viewScripts_nestedKey ht hcur
      obtain ⟨hstack, hsig⟩ := hview
      have hs' : SettledAt s₀ settled (viewScripts c tx digest item i input v).scriptSigData := by
        rw [InputView.scriptSigData, hsig]
        exact hs
      obtain ⟨hstack', hsig'⟩ := ih hs'
      rw [hstack, signStack_keyHash hkey] at hstack'
      rw [if_pos rfl, hno, if_neg (by decide), Bool.or_false, hstack', hsig', hsig, List.getLast?_cons]
      refine ⟨?_, rfl⟩
      cases (nestedSigners c s₀ settled items).getLast? <;> rfl
    | false =>
      have hcur : isNestedKey c v.redeem item = false := (isNestedKey_congr hmet item).trans hnested
      obtain ⟨hstack, hsig⟩ := viewScripts_spec tx i digest item v fun _ : transactionInputType input = _ => hcur
      rw [if_pos ht] at hsig
      have hs' : SettledAt s₀ (settled || isScriptKey c (redeemMet s₀ settled) item)
          (viewScripts c tx digest item i input v).scriptSigData := by
        rw [InputView.scriptSigData, hsig]
        exact settledAt_signRedeem item hs
      obtain ⟨hstack', hsig'⟩ := ih hs'
      rw [if_neg (by decide), hstack', hsig', hstack, hsig]
      refine ⟨rfl, ?_⟩
      cases hkey : isScriptKey c (redeemMet s₀ settled) item with
      | true =>
        rw [if_pos rfl, List.foldl_cons, Bool.or_true]
      | false =>
        have hskip : signRedeem c digest item v.scriptSig = v.scriptSig := by
          rw [signRedeem, ← InputView.scriptSigData, isScriptKey_congr hmet, hkey]
          rfl
        rw [if_neg (by decide), hskip, Bool.or_false]

end

/-! ## The run, by type -/

section

variable (c) (tx)

/-- The stack the third pass starts from. -/
def stackBefore (items : Datas) (i : Nat) (input : TransactionInput) : Datas :=
  match transactionInputType input with
  | .payToPubkeyWitness =>
    ((items.filter (signsKeyHash c input.fundingOutput.script)).getLast?.map (keyHashStack c tx i)).getD input.witnessStack
  | .payToScriptWitness =>
    ((items.filter (isWitnessScript c input.fundingOutput.script)).getLast?.map fun item => [item]).getD input.witnessStack
  | .payToScriptHash =>
    ((items.filter (isNestedScript c (datasLast (readPushes (redeemScriptSig c items input))))).getLast?.map
      fun item => [item]).getD input.witnessStack
  | .payToPubkey | .payToPubkeyHash | .unknown => input.witnessStack

end

/-- The redeem script a listed item gives the input, or the one it has. -/
theorem redeemScriptSig_eq (c : Crypto) (items : Datas) (input : TransactionInput) :
    redeemScriptSig c items input =
      ((items.filter (isRedeemScript c input.fundingOutput.script)).getLast?.map fun item => some (scriptPush item)).getD
        input.scriptData := by
  refine foldl_last (fun s : Data => s) ?_ ?_ input.scriptData
  · intro s item hitem
    exact if_pos hitem
  · intro s item hitem
    exact if_neg (by rw [isRedeemScript] at hitem; simp [hitem])

section

variable {items : Datas}

/-- The dictionary entry of a pay-to-script-hash input after the first pass. -/
theorem scriptSig_viewDirects (ht : transactionInputType input = .payToScriptHash) (v : InputView) :
    (viewDirects c tx i input false items v).scriptSig =
      ((items.filter (isRedeemScript c input.fundingOutput.script)).getLast?.map
        fun item => some (some (scriptPush item))).getD v.scriptSig := by
  rw [viewDirects_plain fun digest digest' item v => by simp only [viewDirect, ht]]
  refine foldl_last InputView.scriptSig ?_ ?_ v
  · intro w item hitem
    rw [(viewDirect_redeemScript ht).1, if_pos hitem]
  · intro w item hitem
    rw [(viewDirect_redeemScript ht).1, hitem]
    rfl

/-- The stack after two passes. -/
theorem stackBefore_eq :
    (items.foldl (fun v item => viewNested c item input v) (viewDirects c tx i input false items (startView input))).witnessStack =
      stackBefore c tx items i input := by
  have hcarries : ∀ ht : carriesScript input = true,
      (viewDirects c tx i input false items (startView input)).witnessStack = input.witnessStack := by
    intro ht
    rw [viewDirects_marked]
    refine foldl_inv (fun w : InputView => w.witnessStack = input.witnessStack) rfl ?_
    intro p _ w hw
    rw [witnessStack_viewDirect_pubkey ht]
    exact hw
  unfold stackBefore
  cases ht : transactionInputType input with
  | payToPubkey =>
    rw [viewNesteds_skip (by rw [ht]; decide)]
    exact hcarries (by simp [carriesScript, ht])
  | payToPubkeyHash =>
    rw [viewNesteds_skip (by rw [ht]; decide)]
    exact hcarries (by simp [carriesScript, ht])
  | payToPubkeyWitness =>
    rw [viewNesteds_skip (by rw [ht]; decide), viewDirects_plain fun digest digest' item v => by simp only [viewDirect, ht]]
    refine foldl_last InputView.witnessStack ?_ ?_ (startView input)
    · intro w item hitem
      rw [(viewDirect_keyHash ht).1, if_pos hitem]
    · intro w item hitem
      rw [(viewDirect_keyHash ht).1, hitem]
      rfl
  | payToScriptWitness =>
    rw [viewNesteds_skip (by rw [ht]; decide), viewDirects_plain fun digest digest' item v => by simp only [viewDirect, ht]]
    refine foldl_last InputView.witnessStack ?_ ?_ (startView input)
    · intro w item hitem
      rw [(viewDirect_witnessScript ht).1, if_pos hitem]
    · intro w item hitem
      rw [(viewDirect_witnessScript ht).1, hitem]
      rfl
  | payToScriptHash =>
    have hredeem : (viewDirects c tx i input false items (startView input)).redeem =
        datasLast (readPushes (redeemScriptSig c items input)) := by
      rw [InputView.redeem, scriptSigData_viewDirects ht, scriptSigData_start ht]
      rfl
    have hstack : (viewDirects c tx i input false items (startView input)).witnessStack = input.witnessStack := by
      rw [viewDirects_marked]
      refine foldl_inv (fun w : InputView => w.witnessStack = input.witnessStack) rfl ?_
      intro p _ w hw
      rw [(viewDirect_redeemScript ht).2]
      exact hw
    rw [viewNesteds_witnessStack ht, hredeem, hstack]
    refine foldl_last (fun stack : Datas => stack) ?_ ?_ input.witnessStack
    · intro stack item hitem
      exact if_pos hitem
    · intro stack item hitem
      exact if_neg (by simp [hitem])
  | unknown =>
    rw [viewNesteds_skip (by rw [ht]; decide), viewDirects_plain fun digest digest' item v => by simp only [viewDirect, ht]]
    refine foldl_inv (fun w : InputView => w.witnessStack = input.witnessStack) rfl ?_
    intro item _ w hw
    unfold viewDirect
    rw [ht]
    exact hw

/-- The state of a pay-to-script-hash input before the third pass. -/
theorem scriptSigData_before (ht : transactionInputType input = .payToScriptHash) :
    (items.foldl (fun v item => viewNested c item input v)
        (viewDirects c tx i input false items (startView input))).scriptSigData = redeemScriptSig c items input := by
  rw [InputView.scriptSigData, scriptSig_viewNesteds]
  show (viewDirects c tx i input false items (startView input)).scriptSigData = _
  rw [scriptSigData_viewDirects ht, scriptSigData_start ht]
  rfl

/-- The keys that an input's redeem script names by their hash. -/
def nestedKeys (c : Crypto) (items : Datas) (input : TransactionInput) : Datas :=
  if transactionInputType input = .payToScriptHash then nestedSigners c (redeemScriptSig c items input) false items else []

/-- The stack the passes leave. -/
theorem signedView_witnessStack :
    (signedView c tx items i input).witnessStack =
      ((nestedKeys c items input).getLast?.map (keyHashStack c tx i)).getD
        (signStack c tx i items (stackBefore c tx items i input)) := by
  rw [← stackBefore_eq, nestedKeys]
  unfold signedView
  dsimp only
  by_cases ht : transactionInputType input = .payToScriptHash
  · rw [if_pos ht]
    exact (viewScripts_run_redeem ht items (show SettledAt _ false _ from scriptSigData_before ht)).1
  · rw [if_neg ht]
    exact (viewScripts_run ht items _).1

theorem signedView_scriptSig (ht : transactionInputType input ≠ .payToScriptHash) :
    (signedView c tx items i input).scriptSig = (viewDirects c tx i input false items (startView input)).scriptSig := by
  unfold signedView
  dsimp only
  rw [(viewScripts_run ht items _).2, viewNesteds_skip ht]

/-- The script sig the passes leave of a pay-to-script-hash input. -/
theorem signedView_redeem (ht : transactionInputType input = .payToScriptHash) :
    (signedView c tx items i input).scriptSig =
      (redeemSigners c (redeemScriptSig c items input) false items).foldl
        (fun s item => signRedeem c (redeemDigest tx (endsDirty false items)) item s)
        (((items.filter (isRedeemScript c input.fundingOutput.script)).getLast?.map
          fun item => some (some (scriptPush item))).getD (stashed input)) := by
  unfold signedView
  dsimp only
  rw [(viewScripts_run_redeem ht items (show SettledAt _ false _ from scriptSigData_before ht)).2, scriptSig_viewNesteds,
    scriptSig_viewDirects ht]
  rfl

end

end BitcoinSpoon
