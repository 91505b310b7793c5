/-
  BitcoinSpoon.Hd.Record — what the 82 bytes say.

  The source writes the fields at hand-computed offsets. Every value of 82 bytes carries one
  record (`exists_carries`); each patch replaces one field (`Carries.setKey`) and the checksum
  makes the sealed form (`Carries.seal`), which is all `hdWalletVerify` accepts
  (`hdWalletVerify_iff`).
-/

import BitcoinSpoon.Hd.Wallet

namespace BitcoinSpoon

open Wire

/-- An extended key: a private one has a zero byte before its 32. -/
structure HdNode where
  chainCode : Bytes
  key : Bytes
  chainCode_length : chainCode.length = 32
  key_length : key.length = 33

structure HdRecord extends HdNode where
  version : Bytes
  depth : UInt8
  fingerprint : Bytes
  childIndex : Bytes
  version_length : version.length = 4
  fingerprint_length : fingerprint.length = 4
  childIndex_length : childIndex.length = 4

/-! ## Parts of an append -/

theorem part_at {p x : Bytes} {start length : Nat} (hp : p.length = start) (hx : x.length = length) (s : Bytes) :
    dataCopyDataPart (p ++ (x ++ s)) start length = x := by
  rw [dataCopyDataPart, List.drop_left' hp, List.take_left' hx]

theorem patch_at {p old new : Bytes} {start : Nat} (hp : p.length = start) (hnew : old.length = new.length) (s : Bytes) :
    patch (p ++ (old ++ s)) start new = p ++ (new ++ s) := by
  have hdrop : (p ++ (old ++ s)).drop (start + new.length) = s := by
    rw [← hp, ← hnew, List.drop_length_add_append, List.drop_left]
  rw [patch, List.take_left' hp, hdrop, List.append_assoc]

/-! ## The record of 82 bytes -/

namespace HdRecord

variable (r : HdRecord)

def payload : Bytes := r.version ++ ([r.depth] ++ (r.fingerprint ++ (r.childIndex ++ (r.chainCode ++ r.key))))

@[simp] theorem payload_length : r.payload.length = 78 := by
  simp only [payload, List.length_append, r.version_length, r.fingerprint_length, r.childIndex_length, r.chainCode_length,
    r.key_length, List.length_singleton]

variable {r} in
theorem payload_inj {r' : HdRecord} (h : r.payload = r'.payload) : r = r' := by
  unfold payload at h
  obtain ⟨hversion, h⟩ := List.append_inj h (by rw [r.version_length, r'.version_length])
  obtain ⟨hdepth, h⟩ := List.append_inj h rfl
  obtain ⟨hfingerprint, h⟩ := List.append_inj h (by rw [r.fingerprint_length, r'.fingerprint_length])
  obtain ⟨hindex, h⟩ := List.append_inj h (by rw [r.childIndex_length, r'.childIndex_length])
  obtain ⟨hchain, hkey⟩ := List.append_inj h (by rw [r.chainCode_length, r'.chainCode_length])
  cases r with
  | mk node =>
    cases r' with
    | mk node' =>
      cases node
      cases node'
      cases hversion
      cases hdepth
      cases hfingerprint
      cases hindex
      cases hchain
      cases hkey
      rfl

def sealed (c : HdCrypto) : Bytes := r.payload ++ hdChecksum c r.payload

def Carries (b : Bytes) : Prop := ∃ rest : Bytes, b = r.payload ++ rest ∧ rest.length = 4

end HdRecord

open HdRecord (Carries)

variable {c : HdCrypto} {r : HdRecord} {b : Bytes}

theorem hdChecksum_length (b : Bytes) : (hdChecksum c b).length = 4 := by
  simp [hdChecksum, hash256, sha256, c.sha256_length]

@[simp] theorem sealed_length (c : HdCrypto) (r : HdRecord) : (r.sealed c).length = 82 := by
  rw [HdRecord.sealed, List.length_append, HdRecord.payload_length, hdChecksum_length]

theorem carries_sealed (c : HdCrypto) (r : HdRecord) : Carries r (r.sealed c) := ⟨_, rfl, hdChecksum_length _⟩

theorem part_length {b : Bytes} {start length : Nat} (h : start + length ≤ b.length) : (dataCopyDataPart b start length).length = length := by
  rw [dataCopyDataPart, List.length_take, List.length_drop]
  omega

theorem exists_carries (h : b.length = 82) : ∃ r, Carries r b := by
  let r : HdRecord := {
    version := dataCopyDataPart b 0 4
    depth := b.getD 4 0
    fingerprint := dataCopyDataPart b 5 4
    childIndex := dataCopyDataPart b 9 4
    chainCode := dataCopyDataPart b 13 32
    key := dataCopyDataPart b 45 33
    version_length := part_length (by omega)
    fingerprint_length := part_length (by omega)
    childIndex_length := part_length (by omega)
    chainCode_length := part_length (by omega)
    key_length := part_length (by omega) }
  have hcut : ∀ start len next : Nat, start + len = next →
      b.drop start = dataCopyDataPart b start len ++ b.drop next := by
    rintro start len next rfl
    rw [dataCopyDataPart, ← List.drop_drop, List.take_append_drop]
  have hdepth : b.drop 4 = [b.getD 4 0] ++ b.drop 5 := by
    rw [List.drop_eq_getElem_cons (by omega : 4 < b.length), List.getD_eq_getElem _ _ (by omega : 4 < b.length)]
    rfl
  refine ⟨r, b.drop 78, ?_, by rw [List.length_drop]; omega⟩
  have hb : b = dataCopyDataPart b 0 4 ++ b.drop 4 := hcut 0 4 4 rfl
  show b = (dataCopyDataPart b 0 4 ++ ([b.getD 4 0] ++ (dataCopyDataPart b 5 4 ++ (dataCopyDataPart b 9 4 ++
    (dataCopyDataPart b 13 32 ++ dataCopyDataPart b 45 33))))) ++ b.drop 78
  simp only [List.append_assoc]
  rw [← hcut 45 33 78 rfl, ← hcut 13 32 45 rfl, ← hcut 9 4 13 rfl, ← hcut 5 4 9 rfl, ← hdepth]
  exact hb

namespace HdRecord.Carries

theorem length (h : Carries r b) : b.length = 82 := by
  obtain ⟨rest, rfl, hrest⟩ := h
  rw [List.length_append, HdRecord.payload_length, hrest]

theorem sized (h : Carries r b) : ¬ Data.length (some b) ≠ 82 := not_not.2 h.length

theorem payload (h : Carries r b) : dataCopyDataPart b 0 78 = r.payload := by
  obtain ⟨rest, rfl, hrest⟩ := h
  exact @part_at [] _ _ _ rfl r.payload_length rest

theorem unique (h : Carries r b) {r' : HdRecord} (h' : Carries r' b) : r' = r :=
  HdRecord.payload_inj (h'.payload.symm.trans h.payload)

/-! ## Reading a field -/

/-- The field `x` of the record, with `p` before it and `s` after it. -/
theorem part (h : Carries r b) (p x s : Bytes) (hr : r.payload = p ++ (x ++ s)) : dataCopyDataPart b p.length x.length = x := by
  obtain ⟨rest, rfl, -⟩ := h
  rw [hr, List.append_assoc, List.append_assoc]
  exact part_at rfl rfl _

theorem version (h : Carries r b) : dataCopyDataPart b 0 4 = r.version := by
  have := h.part [] r.version _ rfl
  rwa [r.version_length] at this

theorem depth (h : Carries r b) : b.getD 4 0 = r.depth := by
  obtain ⟨rest, rfl, -⟩ := h
  rw [HdRecord.payload, List.append_assoc, List.getD_append_right _ _ _ _ (by rw [r.version_length]), r.version_length]
  rfl

theorem chainCode (h : Carries r b) : dataCopyDataPart b 13 32 = r.chainCode := by
  have := h.part (r.version ++ [r.depth] ++ r.fingerprint ++ r.childIndex) r.chainCode r.key (by simp [HdRecord.payload])
  simpa [r.version_length, r.fingerprint_length, r.childIndex_length, r.chainCode_length] using this

theorem key (h : Carries r b) : dataCopyDataPart b 45 33 = r.key := by
  have := h.part (r.version ++ [r.depth] ++ r.fingerprint ++ r.childIndex ++ r.chainCode) r.key [] (by simp [HdRecord.payload])
  simpa [r.version_length, r.fingerprint_length, r.childIndex_length, r.chainCode_length, r.key_length] using this

/-! ## Writing a field -/

/-- The field `x` becomes `x'` and the record `r'`. -/
theorem patched (h : Carries r b) {r' : HdRecord} (p x x' s : Bytes) (hr : r.payload = p ++ (x ++ s))
    (hr' : r'.payload = p ++ (x' ++ s)) (hlen : x.length = x'.length) {start : Nat} (hp : p.length = start) :
    Carries r' (patch b start x') := by
  obtain ⟨rest, rfl, hrest⟩ := h
  refine ⟨rest, ?_, hrest⟩
  rw [hr, hr', List.append_assoc, List.append_assoc, patch_at hp hlen]
  simp only [List.append_assoc]

theorem setVersion (h : Carries r b) {version : Bytes} (hlen : version.length = 4) :
    Carries { r with version := version, version_length := hlen } (patch b 0 version) :=
  h.patched [] r.version version _ rfl rfl (by rw [r.version_length, hlen]) rfl

theorem setDepth (h : Carries r b) (depth : UInt8) : Carries { r with depth := depth } (patch b 4 [depth]) :=
  h.patched r.version [r.depth] [depth] _ rfl rfl rfl r.version_length

theorem setFingerprint (h : Carries r b) {fingerprint : Bytes} (hlen : fingerprint.length = 4) :
    Carries { r with fingerprint := fingerprint, fingerprint_length := hlen } (patch b 5 fingerprint) := by
  refine h.patched (r.version ++ [r.depth]) r.fingerprint fingerprint (r.childIndex ++ (r.chainCode ++ r.key)) ?_ ?_ ?_ ?_
  · simp [HdRecord.payload]
  · simp [HdRecord.payload]
  · rw [r.fingerprint_length, hlen]
  · simp [r.version_length]

theorem setChildIndex (h : Carries r b) {childIndex : Bytes} (hlen : childIndex.length = 4) :
    Carries { r with childIndex := childIndex, childIndex_length := hlen } (patch b 9 childIndex) := by
  refine h.patched (r.version ++ [r.depth] ++ r.fingerprint) r.childIndex childIndex (r.chainCode ++ r.key) ?_ ?_ ?_ ?_
  · simp [HdRecord.payload]
  · simp [HdRecord.payload]
  · rw [r.childIndex_length, hlen]
  · simp [r.version_length, r.fingerprint_length]

theorem setChainCode (h : Carries r b) {chainCode : Bytes} (hlen : chainCode.length = 32) :
    Carries { r with chainCode := chainCode, chainCode_length := hlen } (patch b 13 chainCode) := by
  refine h.patched (r.version ++ [r.depth] ++ r.fingerprint ++ r.childIndex) r.chainCode chainCode r.key ?_ ?_ ?_ ?_
  · simp [HdRecord.payload]
  · simp [HdRecord.payload]
  · rw [r.chainCode_length, hlen]
  · simp [r.version_length, r.fingerprint_length, r.childIndex_length]

theorem setKey (h : Carries r b) {key : Bytes} (hlen : key.length = 33) :
    Carries { r with key := key, key_length := hlen } (patch b 45 key) := by
  refine h.patched (r.version ++ [r.depth] ++ r.fingerprint ++ r.childIndex ++ r.chainCode) r.key key [] ?_ ?_ ?_ ?_
  · simp [HdRecord.payload]
  · simp [HdRecord.payload]
  · rw [r.key_length, hlen]
  · simp [r.version_length, r.fingerprint_length, r.childIndex_length, r.chainCode_length]

/-- A private key is written in two steps. -/
theorem setPrivKey (h : Carries r b) {key : Bytes} (hlen : key.length = 32) :
    Carries { r with key := 0 :: key, key_length := by rw [List.length_cons, hlen] } (patch (patch b 45 [0]) 46 key) := by
  obtain ⟨first, old, hold⟩ := List.exists_cons_of_length_eq_add_one r.key_length
  have holdlen : old.length = 32 := by
    have hkey := r.key_length
    rw [hold, List.length_cons] at hkey
    omega
  have hzero : Carries { r with key := 0 :: old, key_length := by rw [List.length_cons, holdlen] } (patch b 45 [0]) := by
    refine h.patched (r.version ++ [r.depth] ++ r.fingerprint ++ r.childIndex ++ r.chainCode) [first] [0] old ?_ ?_ rfl ?_
    · simp [HdRecord.payload, hold]
    · simp [HdRecord.payload]
    · simp [r.version_length, r.fingerprint_length, r.childIndex_length, r.chainCode_length]
  refine hzero.patched (r.version ++ [r.depth] ++ r.fingerprint ++ r.childIndex ++ r.chainCode ++ [0]) old key [] ?_ ?_ ?_ ?_
  · simp [HdRecord.payload]
  · simp [HdRecord.payload]
  · rw [holdlen, hlen]
  · simp [r.version_length, r.fingerprint_length, r.childIndex_length, r.chainCode_length]

theorem sealChecksum_eq (h : Carries r b) : sealChecksum c b = r.sealed c := by
  have hpayload := h.payload
  obtain ⟨rest, rfl, hrest⟩ := h
  have hpatch := patch_at r.payload_length (hrest.trans (@hdChecksum_length c r.payload).symm) []
  rw [List.append_nil, List.append_nil] at hpatch
  rw [sealChecksum, hpayload, hpatch, HdRecord.sealed]

end HdRecord.Carries

/-! ## What is verified -/

theorem part_tail {p rest : Bytes} (hp : p.length = 78) (hrest : rest.length = 4) : dataCopyDataPart (p ++ rest) 78 4 = rest := by
  have := part_at hp hrest []
  rwa [List.append_nil] at this

theorem hdWalletVerify_iff {d : Data} : hdWalletVerify c d = true ↔ ∃ r : HdRecord, d = some (r.sealed c) := by
  constructor
  · intro h
    unfold hdWalletVerify at h
    split at h
    · cases h
    rename_i hlen
    cases d with
    | none => simp at hlen
    | some b =>
      have hb : b.length = 82 := not_not.1 hlen
      obtain ⟨r, hr⟩ := exists_carries hb
      have hsum : dataCopyDataPart b 78 4 = hdChecksum c (dataCopyDataPart b 0 78) := of_decide_eq_true h
      rw [hr.payload] at hsum
      obtain ⟨rest, rfl, hrest⟩ := hr
      rw [part_tail r.payload_length hrest] at hsum
      exact ⟨r, by rw [HdRecord.sealed, hsum]⟩
  · rintro ⟨r, rfl⟩
    have hlen : ¬ Data.length (some (r.sealed c)) ≠ 82 := by simp
    rw [hdWalletVerify, if_neg hlen, toBytes_some, (carries_sealed c r).payload]
    exact decide_eq_true (part_tail r.payload_length (hdChecksum_length _))

end BitcoinSpoon
