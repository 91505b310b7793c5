/-
  BitcoinSpoon.Address.Sound — what `addressToPubScript` takes for an address.

  The prefix chooses the encoding and the length of what is decoded chooses the script. So
  a Base58 text of 20 or 32 bytes, without a checksum, passes for a witness program
  (`not_addressSound`), and so does a segwit address of a later version or with another
  human-readable part; a witness program of 25 bytes can pass for a Base58Check payload.
  Anything else is sound (`addressSound_iff`).
-/

import BitcoinSpoon.Address.Codec
import BitcoinSpoon.Util.Pushes

namespace BitcoinSpoon

open Wire

variable (c : Crypto) (codec : Codec)

/-! ## What an address is -/

/-- A payload of a version byte, a hash of 20 bytes and its checksum, and the script it stands
    for. -/
def PaysPayload (payload script : Bytes) : Prop :=
  payload.length = 25 ∧ (payload.drop 21).take 4 = base58Checksum c (payload.take 21) ∧
    ((payload.headD 0 = 0x00 ∨ payload.headD 0 = 0x6f) ∧ script = p2pkhPubScript (some ((payload.drop 1).take 20)) ∨
      (payload.headD 0 = 0x05 ∨ payload.headD 0 = 0xc4) ∧ script = p2shPubScript (some ((payload.drop 1).take 20)))

/-- A Base58Check address of the script. -/
def IsBase58Address (text script : Bytes) : Prop :=
  ∃ payload, codec.Base58Decode text = some payload ∧ PaysPayload c payload script

def segwitScript (version : Nat) (program : Bytes) : Bytes :=
  (if version = 0 then 0 else UInt8.ofNat (OP_1 - 1 + version)) :: scriptPush (some program)

/-- A segwit address of the script, of the main network or the test network. -/
def IsSegwitAddress (text script : Bytes) : Prop :=
  ∃ hrp version program, codec.segwit_addr_decode text = some (hrp, version, program) ∧
    (hrp = mainPrefix ∨ hrp = testPrefix) ∧ version ≤ 16 ∧ program.length ≤ 40 ∧ script = segwitScript version program

/-- If there is a script, the text is an address of it. -/
def AddressSound (text : Bytes) : Prop :=
  ∀ script, addressToPubScript c codec (some text) = some script →
    IsBase58Address c codec text script ∨ IsSegwitAddress codec text script

/-- What is decoded is of the kind its length is taken for (or the text is also an address of
    the script in the other encoding). -/
def KindFitsLength (text : Bytes) : Prop :=
  if isTestOrMain text then
    ∀ hrp version program, codec.segwit_addr_decode text = some (hrp, version, program) →
      (program.length = 20 ∨ program.length = 32 → version = 0 ∧ (hrp = mainPrefix ∨ hrp = testPrefix)) ∧
        ∀ script, PaysPayload c program script → IsBase58Address c codec text script
  else
    ∀ data, codec.Base58Decode text = some data → data.length = 20 ∨ data.length = 32 →
      ∃ hrp, codec.segwit_addr_decode text = some (hrp, 0, data) ∧ (hrp = mainPrefix ∨ hrp = testPrefix)

/-! ## The script of what is decoded -/

/-- The script of decoded bytes. -/
def ScriptOfDecoded (data script : Bytes) : Prop :=
  (data.length = 20 ∨ data.length = 32) ∧ script = segwitScript 0 data ∨ PaysPayload c data script

variable {c} {codec}

/-- The branch for 25 bytes. -/
theorem payload_script {data : Bytes} (h25 : data.length = 25) (script : Bytes) :
    (if (data.drop 21).take 4 ≠ base58Checksum c (data.take 21) then none
      else if data.headD 0 = 0x00 ∨ data.headD 0 = 0x6f then some (p2pkhPubScript (some ((data.drop 1).take 20)))
      else if data.headD 0 = 0x05 ∨ data.headD 0 = 0xc4 then some (p2shPubScript (some ((data.drop 1).take 20)))
      else none) = some script ↔ PaysPayload c data script := by
  unfold PaysPayload
  by_cases hsum : (data.drop 21).take 4 = base58Checksum c (data.take 21)
  · rw [if_neg (not_not.2 hsum)]
    by_cases hkey : data.headD 0 = 0x00 ∨ data.headD 0 = 0x6f
    · have hnot : ¬ (data.headD 0 = 0x05 ∨ data.headD 0 = 0xc4) := by
        rcases hkey with h | h
        · rw [h]; decide
        · rw [h]; decide
      simp only [hkey, hnot, if_true, Option.some.injEq, eq_true h25, eq_true hsum, true_and, false_and, or_false]
      exact eq_comm
    · by_cases hscript : data.headD 0 = 0x05 ∨ data.headD 0 = 0xc4
      · simp only [hkey, hscript, if_true, if_false, Option.some.injEq, eq_true h25, eq_true hsum, true_and, false_and, false_or]
        exact eq_comm
      · simp only [hkey, hscript, if_false, reduceCtorEq, false_and, or_self, and_false]
  · rw [if_pos hsum]
    simp only [eq_false hsum, reduceCtorEq, false_and, and_false]

theorem addressToPubScript_eq_some (text script : Bytes) :
    addressToPubScript c codec (some text) = some script ↔
      ∃ data, (if isTestOrMain text then fromSegwit codec text else codec.Base58Decode text) = some data ∧
        ScriptOfDecoded c data script := by
  unfold addressToPubScript
  dsimp only
  cases (if isTestOrMain text then fromSegwit codec text else codec.Base58Decode text) with
  | none => simp
  | some data =>
    have hone : (∃ d, some data = some d ∧ ScriptOfDecoded c d script) ↔ ScriptOfDecoded c data script := by simp
    rw [hone, length_some, toBytes_some]
    unfold ScriptOfDecoded
    by_cases hprogram : data.length = 20 ∨ data.length = 32
    · have hpays : ¬ PaysPayload c data script := fun h => by
        have := h.1
        omega
      have hbranch : ∀ e : Data, (if data.length = 20 then p2wpkhPubScript (some data)
          else if data.length = 32 then some (p2wshPubScript (some data)) else e) = some (segwitScript 0 data) := by
        intro e
        rcases hprogram with h | h
        · rw [if_pos h]
          rfl
        · rw [if_neg (by omega), if_pos h]
          rfl
      rw [hbranch]
      simp only [hprogram, hpays, true_and, or_false, Option.some.injEq]
      exact eq_comm
    · rw [not_or] at hprogram
      rw [if_neg hprogram.1, if_neg hprogram.2]
      by_cases h25 : data.length = 25
      · rw [if_pos h25]
        simp only [hprogram.1, hprogram.2, or_self, false_and, false_or]
        exact payload_script h25 script
      · rw [if_neg h25]
        simp only [hprogram.1, hprogram.2, PaysPayload, h25, or_self, false_and, reduceCtorEq]

/-! ## Which addresses are read rightly -/

/-- The witness version of a script. -/
theorem segwitScript_version {v version : Nat} {p program : Bytes} (hv : v ≤ 16) (hversion : version ≤ 16)
    (h : segwitScript v p = segwitScript version program) : v = version := by
  have hop := (List.cons.inj h).1
  have hsmall : ∀ n ≤ 16, (UInt8.ofNat (OP_1 - 1 + n)).toNat = OP_1 - 1 + n := by
    intro n hn
    rw [UInt8.toNat_ofNat']
    unfold OP_1
    omega
  by_cases hzero : v = 0
  · by_cases hzero' : version = 0
    · rw [hzero, hzero']
    · rw [if_pos hzero, if_neg hzero'] at hop
      have := congrArg UInt8.toNat hop
      rw [hsmall version hversion] at this
      simp only [OP_1, UInt8.toNat_zero] at this
      omega
  · by_cases hzero' : version = 0
    · rw [if_neg hzero, if_pos hzero'] at hop
      have := congrArg UInt8.toNat hop
      rw [hsmall v hv] at this
      simp only [OP_1, UInt8.toNat_zero] at this
      omega
    · rw [if_neg hzero, if_neg hzero'] at hop
      have := congrArg UInt8.toNat hop
      rw [hsmall v hv, hsmall version hversion] at this
      omega

/-- Its program. -/
theorem segwitScript_program {v version : Nat} {p program : Bytes} (hp : p.length ≤ 40) (hprogram : program.length ≤ 40)
    (h : segwitScript v p = segwitScript version program) : p = program := by
  have hpush : scriptPush (some p) = scriptPush (some program) := (List.cons.inj h).2
  have hread := (readPush_scriptPush (show Data.length (some p) < 2 ^ 32 by rw [length_some]; omega) []).1
  have hread' := (readPush_scriptPush (show Data.length (some program) < 2 ^ 32 by rw [length_some]; omega) []).1
  rw [List.append_nil, List.append_nil] at hread hread'
  rw [hpush, hread'] at hread
  exact ((Prod.mk.inj hread).2).symm

/-- No script is of both kinds. -/
theorem PaysPayload.ne_segwitScript {payload script program : Bytes} {version : Nat} (h : PaysPayload c payload script)
    (hversion : version ≤ 16) : script ≠ segwitScript version program := by
  have hhead : ∀ n ≤ 16, (if n = 0 then (0 : UInt8) else UInt8.ofNat (OP_1 - 1 + n)) ≠ 0x76 ∧
      (if n = 0 then (0 : UInt8) else UInt8.ofNat (OP_1 - 1 + n)) ≠ 0xa9 := by decide
  intro he
  rcases h.2.2 with ⟨-, hscript⟩ | ⟨-, hscript⟩
  · rw [hscript] at he
    exact (hhead version hversion).1 (List.cons.inj he).1.symm
  · rw [hscript] at he
    exact (hhead version hversion).2 (List.cons.inj he).1.symm

theorem fromSegwit_eq_some {text data : Bytes} (h : fromSegwit codec text = some data) :
    ∃ hrp version, codec.segwit_addr_decode text = some (hrp, version, data) := by
  obtain ⟨⟨hrp, version, program⟩, hdecode, hdata⟩ := Option.map_eq_some_iff.1 h
  cases hdata
  exact ⟨hrp, version, hdecode⟩

/-- Exactly when what is decoded is of the kind its length is taken for: if `addressToPubScript`
    gives a script, the string is a Base58Check address or a segwit address of it. -/
theorem addressSound_iff (c : Crypto) (codec : Codec) (text : Bytes) :
    AddressSound c codec text ↔ KindFitsLength c codec text := by
  have hprogram : ∀ data : Bytes, (if isTestOrMain text then fromSegwit codec text else codec.Base58Decode text) = some data →
      data.length = 20 ∨ data.length = 32 → AddressSound c codec text →
        ∃ hrp, codec.segwit_addr_decode text = some (hrp, 0, data) ∧ (hrp = mainPrefix ∨ hrp = testPrefix) := by
    intro data hdecode hlen hsound
    rcases hsound _ ((addressToPubScript_eq_some text _).2 ⟨data, hdecode, .inl ⟨hlen, rfl⟩⟩) with hbase58 | hsegwit
    · obtain ⟨payload, -, hpays⟩ := hbase58
      exact absurd rfl (hpays.ne_segwitScript (Nat.zero_le 16))
    · obtain ⟨hrp, version, program, haddr, hknown, hversion, hsize, hscript⟩ := hsegwit
      obtain rfl := segwitScript_version (Nat.zero_le 16) hversion hscript
      obtain rfl := segwitScript_program (by omega) hsize hscript
      exact ⟨hrp, haddr, hknown⟩
  unfold KindFitsLength
  constructor
  · intro hsound
    split
    · rename_i hprefix
      intro hrp version program hdecode
      have hfrom : (if isTestOrMain text then fromSegwit codec text else codec.Base58Decode text) = some program := by
        rw [if_pos hprefix, fromSegwit, hdecode]
        rfl
      refine ⟨fun hlen => ?_, fun script hpays => ?_⟩
      · obtain ⟨hrp', haddr, hknown⟩ := hprogram program hfrom hlen hsound
        rw [hdecode] at haddr
        cases haddr
        exact ⟨rfl, hknown⟩
      · rcases hsound script ((addressToPubScript_eq_some text script).2 ⟨program, hfrom, .inr hpays⟩) with hbase58 | hsegwit
        · exact hbase58
        · obtain ⟨_, version', _, _, _, hversion, _, hscript⟩ := hsegwit
          exact absurd hscript (hpays.ne_segwitScript hversion)
    · rename_i hprefix
      intro data hdecode hlen
      exact hprogram data (by rw [if_neg hprefix, hdecode]) hlen hsound
  · intro hkind script hscript
    obtain ⟨data, hdecode, hof⟩ := (addressToPubScript_eq_some text script).1 hscript
    by_cases hprefix : isTestOrMain text
    · rw [if_pos hprefix] at hkind hdecode
      obtain ⟨hrp, version, haddr⟩ := fromSegwit_eq_some hdecode
      obtain ⟨hversion, hpayload⟩ := hkind hrp version data haddr
      rcases hof with ⟨hlen, rfl⟩ | hpays
      · obtain ⟨rfl, hknown⟩ := hversion hlen
        exact .inr ⟨hrp, 0, data, haddr, hknown, Nat.zero_le 16, by omega, rfl⟩
      · exact .inl (hpayload script hpays)
    · rw [if_neg hprefix] at hkind hdecode
      rcases hof with ⟨hlen, rfl⟩ | hpays
      · obtain ⟨hrp, haddr, hknown⟩ := hkind data hdecode hlen
        exact .inr ⟨hrp, 0, data, haddr, hknown, Nat.zero_le 16, by omega, rfl⟩
      · exact .inl ⟨data, hdecode, hpays⟩

/-- The 20 bytes 1 to 20. -/
def twentyBytes : Bytes := [1, 2, 3, 4, 5, 6, 7, 8, 9, 10, 11, 12, 13, 14, 15, 16, 17, 18, 19, 20]

/-- Their Base58 text, "pEbmSWqJdBuPadRGm8tDY4USQK". -/
def twentyText : Bytes :=
  [0x70, 0x45, 0x62, 0x6d, 0x53, 0x57, 0x71, 0x4a, 0x64, 0x42, 0x75, 0x50, 0x61, 0x64, 0x52, 0x47, 0x6d, 0x38, 0x74, 0x44,
    0x59, 0x34, 0x55, 0x53, 0x51, 0x4b]

/-- The encodings on this one text. -/
def oneTextCodec : Codec where
  Base58Encode b := if b = twentyBytes then twentyText else []
  Base58Decode text := if text = twentyText then some twentyBytes else none
  segwit_addr_encode _ _ _ := none
  segwit_addr_decode _ := none

/-- A Base58 text without a checksum gives a witness script. -/
theorem not_addressSound : ¬ ∀ (c : Crypto) (codec : Codec) (text : Bytes), AddressSound c codec text := by
  intro h
  rcases h plainCrypto oneTextCodec twentyText (segwitScript 0 twentyBytes) rfl with hbase58 | hsegwit
  · obtain ⟨payload, hdecode, hpays⟩ := hbase58
    exact absurd rfl (hpays.ne_segwitScript (Nat.zero_le 16))
  · obtain ⟨hrp, version, program, hdecode, -⟩ := hsegwit
    cases hdecode

end BitcoinSpoon
