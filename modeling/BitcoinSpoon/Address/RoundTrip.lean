/-
  BitcoinSpoon.Address.RoundTrip — from a script to its address and back.

  `pubScriptToAddress` looks at the number of tokens and their opcodes. That is enough: a
  push that ends too soon is the last token and leaves no bytes, so the script it names is
  the one `addressToPubScript` gives (`address_of_pubScript`). It always writes the address
  of the main network, so the addresses made for the test network do not come back
  (`survivesCheck_iff`).
-/

import BitcoinSpoon.Address.Sound
import BitcoinSpoon.Util.Tokens

namespace BitcoinSpoon

open Wire

variable {c : Crypto} {codec : Codec}

/-! ## The tokens of the standard scripts -/

theorem tokens_p2pkh {hash : Bytes} (h : hash.length = 20) :
    scriptToTokens (some (p2pkhPubScript (some hash))) =
      [opToken OP_DUP, opToken OP_HASH160, pushToken 20 hash, opToken OP_EQUALVERIFY, opToken OP_CHECKSIG] := by
  have hscript : p2pkhPubScript (some hash) = 0x76 :: 0xa9 :: 0x14 :: (hash ++ [0x88, 0xac]) := rfl
  rw [hscript, scriptToTokens_plain (by decide), scriptToTokens_plain (by decide),
    scriptToTokens_push (by decide) (by decide) (by rw [h]; rfl), scriptToTokens_plain (by decide),
    scriptToTokens_plain (by decide), scriptToTokens_nil]
  rfl

theorem tokens_p2sh {hash : Bytes} (h : hash.length = 20) :
    scriptToTokens (some (p2shPubScript (some hash))) = [opToken OP_HASH160, pushToken 20 hash, opToken OP_EQUAL] := by
  have hscript : p2shPubScript (some hash) = 0xa9 :: 0x14 :: (hash ++ [0x87]) := by
    unfold p2shPubScript scriptPush
    rw [length_some, h]
    rfl
  rw [hscript, scriptToTokens_plain (by decide), scriptToTokens_push (by decide) (by decide) (by rw [h]; rfl),
    scriptToTokens_plain (by decide), scriptToTokens_nil]
  rfl

theorem segwitScript_zero {program : Bytes} {size : Nat} (h : program.length = size) (hsize : size = 20 ∨ size = 32) :
    segwitScript 0 program = 0 :: UInt8.ofNat size :: program := by
  unfold segwitScript scriptPush
  rw [length_some, h]
  rcases hsize with rfl | rfl
  · rfl
  · rfl

theorem tokens_segwit {program : Bytes} {size : Nat} (h : program.length = size) (hsize : size = 20 ∨ size = 32) :
    scriptToTokens (some (segwitScript 0 program)) = [opToken 0, pushToken size program] := by
  have hbyte : (UInt8.ofNat size).toNat = size := by
    rcases hsize with rfl | rfl
    · rfl
    · rfl
  have hpush := @scriptToTokens_push (UInt8.ofNat size) program (by omega) (by unfold OP_PUSHDATA1; omega) (by omega) []
  rw [List.append_nil, hbyte] at hpush
  rw [segwitScript_zero h hsize, scriptToTokens_plain (by decide), hpush, scriptToTokens_nil]
  rfl

/-! ## The address of a standard script -/

theorem pubScriptToAddress_p2pkh {hash : Bytes} (h : hash.length = 20) :
    pubScriptToAddress c codec (some (p2pkhPubScript (some hash))) = base58AddressPayloadHash c codec (some hash) 0x00 := by
  unfold pubScriptToAddress
  rw [tokens_p2pkh h]
  rfl

theorem pubScriptToAddress_p2sh {hash : Bytes} (h : hash.length = 20) :
    pubScriptToAddress c codec (some (p2shPubScript (some hash))) = base58AddressPayloadHash c codec (some hash) 0x05 := by
  unfold pubScriptToAddress
  rw [tokens_p2sh h]
  rfl

theorem pubScriptToAddress_segwit {program : Bytes} (h : program.length = 20 ∨ program.length = 32) :
    pubScriptToAddress c codec (some (segwitScript 0 program)) = toSegwit codec (some program) mainPrefix := by
  unfold pubScriptToAddress
  rw [tokens_segwit rfl h]
  rcases h with h | h
  · rw [h]
    rfl
  · rw [h]
    rfl

/-! ## The script of an address the library makes -/

theorem base58Checksum_length (data : Bytes) : (base58Checksum c data).length = 4 := by
  rw [base58Checksum, List.length_take, c.sha256_length]
  rfl

theorem payload_parts (version : UInt8) {hash : Bytes} (h : hash.length = 20) :
    (version :: hash ++ base58Checksum c (version :: hash)).length = 25 ∧
      ((version :: hash ++ base58Checksum c (version :: hash)).drop 21).take 4 =
        base58Checksum c ((version :: hash ++ base58Checksum c (version :: hash)).take 21) ∧
      ((version :: hash ++ base58Checksum c (version :: hash)).drop 1).take 20 = hash := by
  have hlen : (version :: hash).length = 21 := by rw [List.length_cons, h]
  refine ⟨?_, ?_, ?_⟩
  · rw [List.length_append, base58Checksum_length, hlen]
  · rw [List.drop_left' hlen, List.take_left' hlen, List.take_of_length_le (by rw [base58Checksum_length])]
  · rw [List.cons_append, List.drop_succ_cons, List.drop_zero, List.take_left' h]

theorem addressToPubScript_payload (hlaw : codec.Lawful) {version : UInt8} {hash : Bytes} {script : Bytes} (h : hash.length = 20)
    (hscript : (version = 0x00 ∨ version = 0x6f) ∧ script = p2pkhPubScript (some hash) ∨
      (version = 0x05 ∨ version = 0xc4) ∧ script = p2shPubScript (some hash)) :
    addressToPubScript c codec (base58AddressPayloadHash c codec (some hash) version) = some script := by
  obtain ⟨hlen, hsum, hhash⟩ := @payload_parts c version hash h
  have hversion : version ∈ [0x00, 0x6f, 0x05, 0xc4] := by
    rcases hscript with ⟨rfl | rfl, -⟩ | ⟨rfl | rfl, -⟩ <;> decide
  have hno : isTestOrMain (codec.Base58Encode (version :: hash ++ base58Checksum c (version :: hash))) = false := by
    obtain ⟨hmain, htest⟩ := hlaw.base58_apart version hversion (hash ++ base58Checksum c (version :: hash))
      (by rw [List.length_append, h, base58Checksum_length])
    unfold isTestOrMain
    rw [Bool.or_eq_false_iff, ← Bool.not_eq_true, ← Bool.not_eq_true, List.isPrefixOf_iff_prefix, List.isPrefixOf_iff_prefix]
    exact ⟨htest, hmain⟩
  refine (addressToPubScript_eq_some _ script).2 ⟨_, ?_, .inr ⟨hlen, hsum, ?_⟩⟩
  · rw [toBytes_some, hno, if_neg Bool.false_ne_true]
    exact hlaw.base58_decode _
  · rw [hhash]
    exact hscript

theorem addressToPubScript_segwit (hlaw : codec.Lawful) {hrp program : Bytes} (hhrp : hrp ∈ [mainPrefix, testPrefix])
    (h : program.length = 20 ∨ program.length = 32) :
    addressToPubScript c codec (toSegwit codec (some program) hrp) = some (segwitScript 0 program) := by
  obtain ⟨text, hencode, hprefix, hdecode⟩ := hlaw.segwit_decode hrp hhrp program h
  have hyes : isTestOrMain text = true := by
    unfold isTestOrMain
    rw [Bool.or_eq_true, List.isPrefixOf_iff_prefix, List.isPrefixOf_iff_prefix]
    rcases List.mem_pair.1 hhrp with rfl | rfl
    · exact .inr hprefix
    · exact .inl hprefix
  rw [toSegwit, toBytes_some, hencode]
  refine (addressToPubScript_eq_some _ _).2 ⟨program, ?_, .inl ⟨h, rfl⟩⟩
  rw [if_pos hyes, fromSegwit, hdecode]
  rfl

/-! ## From the tokens to the script -/

theorem script_of_p2pkh {s : Bytes} {tokens : ScriptTokens} (htokens : scriptToTokens (some s) = tokens) (hcount : tokens.length = 5)
    (h0 : (scriptTokenI tokens 0).op = OP_DUP) (h1 : (scriptTokenI tokens 1).op = OP_HASH160)
    (h2 : (scriptTokenI tokens 2).op = 0x14) (h3 : (scriptTokenI tokens 3).op = OP_EQUALVERIFY)
    (h4 : (scriptTokenI tokens 4).op = OP_CHECKSIG) :
    ∃ hash, hash.length = 20 ∧ (scriptTokenI tokens 2).data = some hash ∧ s = p2pkhPubScript (some hash) := by
  obtain ⟨t0, tokens, rfl⟩ := List.exists_of_length_succ _ hcount
  obtain ⟨t1, tokens, rfl⟩ := List.exists_of_length_succ tokens (by simpa using hcount)
  obtain ⟨t2, tokens, rfl⟩ := List.exists_of_length_succ tokens (by simpa using hcount)
  obtain ⟨t3, tokens, rfl⟩ := List.exists_of_length_succ tokens (by simpa using hcount)
  obtain ⟨t4, tokens, rfl⟩ := List.exists_of_length_succ tokens (by simpa using hcount)
  have hend : tokens = [] := by simpa using hcount
  obtain ⟨s1, rfl, hs1⟩ := of_scriptToTokens_plain (x := 0x76) htokens h0 (by decide)
  obtain ⟨s2, rfl, hs2⟩ := of_scriptToTokens_plain (x := 0xa9) hs1 h1 (by decide)
  rcases of_scriptToTokens_push (x := 0x14) hs2 h2 (by decide) (by decide) with ⟨hash, s3, rfl, hlen, hdata, hs3⟩ | ⟨-, hnil⟩
  · obtain ⟨s4, rfl, hs4⟩ := of_scriptToTokens_plain (x := 0x88) hs3 h3 (by decide)
    obtain ⟨s5, rfl, hs5⟩ := of_scriptToTokens_plain (x := 0xac) hs4 h4 (by decide)
    rw [hend] at hs5
    rw [of_scriptToTokens_nil hs5]
    exact ⟨hash, hlen, hdata, rfl⟩
  · cases hnil

theorem script_of_p2sh {s : Bytes} {tokens : ScriptTokens} (htokens : scriptToTokens (some s) = tokens) (hcount : tokens.length = 3)
    (h0 : (scriptTokenI tokens 0).op = OP_HASH160) (h1 : (scriptTokenI tokens 1).op = 20)
    (h2 : (scriptTokenI tokens 2).op = OP_EQUAL) :
    ∃ hash, hash.length = 20 ∧ (scriptTokenI tokens 1).data = some hash ∧ s = p2shPubScript (some hash) := by
  obtain ⟨t0, tokens, rfl⟩ := List.exists_of_length_succ _ hcount
  obtain ⟨t1, tokens, rfl⟩ := List.exists_of_length_succ tokens (by simpa using hcount)
  obtain ⟨t2, tokens, rfl⟩ := List.exists_of_length_succ tokens (by simpa using hcount)
  have hend : tokens = [] := by simpa using hcount
  obtain ⟨s1, rfl, hs1⟩ := of_scriptToTokens_plain (x := 0xa9) htokens h0 (by decide)
  rcases of_scriptToTokens_push (x := 0x14) hs1 h1 (by decide) (by decide) with ⟨hash, s2, rfl, hlen, hdata, hs2⟩ | ⟨-, hnil⟩
  · obtain ⟨s3, rfl, hs3⟩ := of_scriptToTokens_plain (x := 0x87) hs2 h2 (by decide)
    rw [hend] at hs3
    rw [of_scriptToTokens_nil hs3]
    refine ⟨hash, hlen, hdata, ?_⟩
    unfold p2shPubScript scriptPush
    rw [length_some, show hash.length = 20 from hlen]
    rfl
  · cases hnil

/-- A program that ends too soon has no bytes left in its token. -/
theorem script_of_segwit {s : Bytes} {tokens : ScriptTokens} {size : Nat} (hsize : size = 20 ∨ size = 32)
    (htokens : scriptToTokens (some s) = tokens) (hcount : tokens.length = 2) (h0 : (scriptTokenI tokens 0).op = 0)
    (h1 : (scriptTokenI tokens 1).op = size) :
    (∃ program, program.length = size ∧ (scriptTokenI tokens 1).data = some program ∧ s = segwitScript 0 program) ∨
      (scriptTokenI tokens 1).data = none := by
  obtain ⟨t0, tokens, rfl⟩ := List.exists_of_length_succ _ hcount
  obtain ⟨t1, tokens, rfl⟩ := List.exists_of_length_succ tokens (by simpa using hcount)
  have hend : tokens = [] := by simpa using hcount
  have hbyte : (UInt8.ofNat size).toNat = size := by
    rcases hsize with rfl | rfl
    · rfl
    · rfl
  obtain ⟨s1, rfl, hs1⟩ := of_scriptToTokens_plain (x := 0) htokens h0 (by decide)
  rcases of_scriptToTokens_push (x := UInt8.ofNat size) hs1 (by rw [hbyte]; exact h1) (by omega)
    (by unfold OP_PUSHDATA1; omega) with ⟨program, s2, rfl, hlen, hdata, hs2⟩ | ⟨hnone, -⟩
  · rw [hend] at hs2
    rw [hbyte] at hlen
    refine .inl ⟨program, hlen, hdata, ?_⟩
    rw [of_scriptToTokens_nil hs2, segwitScript_zero hlen hsize, List.append_nil]
  · exact .inr hnone

theorem toSegwit_none (hlaw : codec.Lawful) (hrp : Bytes) : toSegwit codec none hrp = none :=
  hlaw.segwit_sizes hrp [] (by decide) (by decide)

theorem pubScript_of_address (hlaw : codec.Lawful) {pubScript address : Data} (haddress : address ≠ none)
    (h : pubScriptToAddress c codec pubScript = address) : addressToPubScript c codec address = pubScript := by
  unfold pubScriptToAddress at h
  cases pubScript with
  | none => exact absurd h.symm haddress
  | some s =>
    generalize htokens : scriptToTokens (some s) = tokens at h
    dsimp only at h
    split at h
    · exact absurd h.symm haddress
    split at h
    · exact absurd h.symm haddress
    split at h
    · rename_i hp
      obtain ⟨hash, hlen, hdata, rfl⟩ := script_of_p2pkh htokens hp.1 hp.2.1 hp.2.2.1 hp.2.2.2.1 hp.2.2.2.2.1 hp.2.2.2.2.2
      rw [← h, hdata]
      exact addressToPubScript_payload hlaw hlen (.inl ⟨.inl rfl, rfl⟩)
    split at h
    · rename_i hp
      obtain ⟨hash, hlen, hdata, rfl⟩ := script_of_p2sh htokens hp.1 hp.2.1 hp.2.2.1 hp.2.2.2
      rw [← h, hdata]
      exact addressToPubScript_payload hlaw hlen (.inr ⟨.inl rfl, rfl⟩)
    have hsegwit : ∀ size, size = 20 ∨ size = 32 → tokens.length = 2 → (scriptTokenI tokens 0).op = 0 →
        (scriptTokenI tokens 1).op = size → toSegwit codec (scriptTokenI tokens 1).data mainPrefix = address →
        addressToPubScript c codec address = some s := by
      intro size hsize hcount h0 h1 he
      rcases script_of_segwit hsize htokens hcount h0 h1 with ⟨program, hlen, hdata, rfl⟩ | hnone
      · rw [← he, hdata]
        exact addressToPubScript_segwit hlaw (by simp) (by omega)
      · rw [hnone, toSegwit_none hlaw] at he
        exact absurd he.symm haddress
    split at h
    · rename_i hp
      exact hsegwit 20 (.inl rfl) hp.1 hp.2.1 hp.2.2 h
    split at h
    · rename_i hp
      exact hsegwit 32 (.inr rfl) hp.1 hp.2.1 hp.2.2 h
    · exact absurd h.symm haddress

/-! ## The encodings on two programs -/

/-- A program of 20 bytes and its address "bc1qw508d6qejxtdg4y5r3zarvary0c5xw7kv8f3t4". -/
def keyProgram : Bytes :=
  [0x75, 0x1e, 0x76, 0xe8, 0x19, 0x91, 0x96, 0xd4, 0x54, 0x94, 0x1c, 0x45, 0xd1, 0xb3, 0xa3, 0x23, 0xf1, 0x43, 0x3b,
    0xd6]

def keyProgramText : Bytes :=
  [0x62, 0x63, 0x31, 0x71, 0x77, 0x35, 0x30, 0x38, 0x64, 0x36, 0x71, 0x65, 0x6a, 0x78, 0x74, 0x64, 0x67, 0x34, 0x79,
    0x35, 0x72, 0x33, 0x7a, 0x61, 0x72, 0x76, 0x61, 0x72, 0x79, 0x30, 0x63, 0x35, 0x78, 0x77, 0x37, 0x6b, 0x76, 0x38,
    0x66, 0x33, 0x74, 0x34]

/-- The program of the script OP_1 under `plainCrypto`, and its addresses
    "bc1qtyrsqqqqqqqqqqqqqqqqqqqqqqqqqqqqqqqqqqqqqqqqqqqqqqqq07aejy" and
    "tb1qtyrsqqqqqqqqqqqqqqqqqqqqqqqqqqqqqqqqqqqqqqqqqqqqqqqqcktkgt". -/
def scriptProgram : Bytes := [0x59, 0x07] ++ List.replicate 30 0

def scriptProgramText : Bytes :=
  [0x62, 0x63, 0x31, 0x71, 0x74, 0x79, 0x72, 0x73, 0x71, 0x71, 0x71, 0x71, 0x71, 0x71, 0x71, 0x71, 0x71, 0x71, 0x71,
    0x71, 0x71, 0x71, 0x71, 0x71, 0x71, 0x71, 0x71, 0x71, 0x71, 0x71, 0x71, 0x71, 0x71, 0x71, 0x71, 0x71, 0x71, 0x71,
    0x71, 0x71, 0x71, 0x71, 0x71, 0x71, 0x71, 0x71, 0x71, 0x71, 0x71, 0x71, 0x71, 0x71, 0x71, 0x71, 0x71, 0x71, 0x30,
    0x37, 0x61, 0x65, 0x6a, 0x79]

def scriptProgramTestText : Bytes :=
  [0x74, 0x62, 0x31, 0x71, 0x74, 0x79, 0x72, 0x73, 0x71, 0x71, 0x71, 0x71, 0x71, 0x71, 0x71, 0x71, 0x71, 0x71, 0x71,
    0x71, 0x71, 0x71, 0x71, 0x71, 0x71, 0x71, 0x71, 0x71, 0x71, 0x71, 0x71, 0x71, 0x71, 0x71, 0x71, 0x71, 0x71, 0x71,
    0x71, 0x71, 0x71, 0x71, 0x71, 0x71, 0x71, 0x71, 0x71, 0x71, 0x71, 0x71, 0x71, 0x71, 0x71, 0x71, 0x71, 0x71, 0x63,
    0x6b, 0x74, 0x6b, 0x67, 0x74]

/-- Segwit as it is on these two programs; other texts show their bytes. -/
def knownCodec : Codec where
  Base58Encode b := 0x7a :: b
  Base58Decode text := if text.head? = some 0x7a then some text.tail else none
  segwit_addr_encode hrp version program :=
    if version ≠ 0 ∨ program.length ≠ 20 ∧ program.length ≠ 32 then none
    else if hrp = mainPrefix ∧ program = keyProgram then some keyProgramText
    else if hrp = mainPrefix ∧ program = scriptProgram then some scriptProgramText
    else if hrp = testPrefix ∧ program = scriptProgram then some scriptProgramTestText
    else some (hrp ++ 0x31 :: program)
  segwit_addr_decode text :=
    if text = keyProgramText then some (mainPrefix, 0, keyProgram)
    else if text = scriptProgramText then some (mainPrefix, 0, scriptProgram)
    else if text = scriptProgramTestText then some (testPrefix, 0, scriptProgram)
    else some (text.take 2, 0, text.drop 3)

theorem knownCodec_lawful : knownCodec.Lawful where
  base58_decode _ := rfl
  base58_apart version _ b _ := by
    constructor
    · intro h
      exact absurd (List.cons_prefix_cons.1 h).1 (by decide)
    · intro h
      exact absurd (List.cons_prefix_cons.1 h).1 (by decide)
  segwit_decode hrp hhrp program hlen := by
    have hok : ¬ ((0 : Nat) ≠ 0 ∨ program.length ≠ 20 ∧ program.length ≠ 32) := by omega
    show ∃ text, (if (0 : Nat) ≠ 0 ∨ program.length ≠ 20 ∧ program.length ≠ 32 then none else _) = some text ∧ _
    rw [if_neg hok]
    by_cases hkey : hrp = mainPrefix ∧ program = keyProgram
    · rw [if_pos hkey, hkey.1, hkey.2]
      exact ⟨_, rfl, by decide, by decide +kernel⟩
    · rw [if_neg hkey]
      by_cases hscript : hrp = mainPrefix ∧ program = scriptProgram
      · rw [if_pos hscript, hscript.1, hscript.2]
        exact ⟨_, rfl, by decide, by decide +kernel⟩
      rw [if_neg hscript]
      by_cases htest : hrp = testPrefix ∧ program = scriptProgram
      · rw [if_pos htest, htest.1, htest.2]
        exact ⟨_, rfl, by decide, by decide +kernel⟩
      · rw [if_neg htest]
        have hhrp2 : hrp.length = 2 := by
          rcases List.mem_pair.1 hhrp with rfl | rfl
          · rfl
          · rfl
        have htext : (hrp ++ 0x31 :: program).length = program.length + 3 := by
          rw [List.length_append, List.length_cons, hhrp2]
          omega
        have hne : ∀ other : Bytes, other.length = 42 ∨ other.length = 62 → hrp ++ 0x31 :: program ≠ other := by
          intro other hother he
          rw [← he, htext] at hother
          omega
        refine ⟨_, rfl, List.prefix_append _ _, ?_⟩
        show (if hrp ++ 0x31 :: program = keyProgramText then _ else _) = _
        rw [if_neg (hne keyProgramText (.inl rfl)), if_neg (hne scriptProgramText (.inr rfl)),
          if_neg (hne scriptProgramTestText (.inr rfl)), List.take_left' hhrp2]
        have hdrop : (hrp ++ 0x31 :: program).drop 3 = program := by
          rw [List.append_cons, List.drop_left' (by rw [List.length_append, hhrp2]; rfl)]
        rw [hdrop]
  segwit_sizes hrp program h20 h32 := if_pos (.inr ⟨h20, h32⟩)

/-! ## The round trips -/

/-- A script that `pubScriptToAddress` names is the script of the address it writes. -/
theorem address_of_pubScript (c : Crypto) {codec : Codec} (hlaw : codec.Lawful) {pubScript : Data}
    (h : pubScriptToAddress c codec pubScript ≠ none) :
    addressToPubScript c codec (pubScriptToAddress c codec pubScript) = pubScript := pubScript_of_address hlaw h rfl

theorem address_of_pubScript_key :
    addressToPubScript plainCrypto knownCodec (pubScriptToAddress plainCrypto knownCodec (some (segwitScript 0 keyProgram))) =
      some (segwitScript 0 keyProgram) :=
  address_of_pubScript plainCrypto knownCodec_lawful (by decide +kernel)

inductive AddressKind where
  | p2pkh
  | p2sh
  | p2wpkh
  | p2wsh

/-- A public key that parses, or a script. -/
def AddressKind.Takes (c : Crypto) : AddressKind → Data → Prop
  | .p2pkh, publicKey => publicKeyCompress c (publicKeyParse c publicKey) ≠ none
  | .p2wpkh, publicKey => publicKeyCompress c (publicKeyParse c publicKey) ≠ none
  | .p2sh, scriptData => scriptData ≠ none
  | .p2wsh, scriptData => scriptData ≠ none

def AddressKind.pubScript (c : Crypto) : AddressKind → Data → Data
  | .p2pkh, publicKey => some (p2pkhPubScriptFromPubKey c publicKey)
  | .p2sh, scriptData => some (p2shPubScriptWithScript c scriptData)
  | .p2wpkh, publicKey => p2wpkhPubScriptFromPubKey c publicKey
  | .p2wsh, scriptData => some (p2wshPubScriptWithScript c scriptData)

def AddressKind.address (c : Crypto) (codec : Codec) : AddressKind → Bool → Data → Data
  | .p2pkh, testNet, publicKey => if testNet then p2pkhAddressTestNet c codec publicKey else p2pkhAddress c codec publicKey
  | .p2sh, testNet, scriptData => if testNet then p2shAddressTestNet c codec scriptData else p2shAddress c codec scriptData
  | .p2wpkh, testNet, publicKey => if testNet then p2wpkhAddressTestNet c codec publicKey else p2wpkhAddress c codec publicKey
  | .p2wsh, testNet, scriptData => if testNet then p2wshAddressTestNet c codec scriptData else p2wshAddress c codec scriptData

/-- The address gives the script, and the script gives the address back. -/
def SurvivesCheck (c : Crypto) (codec : Codec) (kind : AddressKind) (testNet : Bool) (payload : Data) : Prop :=
  addressToPubScript c codec (kind.address c codec testNet payload) = kind.pubScript c payload ∧
    pubScriptToAddress c codec (kind.pubScript c payload) = kind.address c codec testNet payload

theorem base58AddressPayloadHash_inj (hlaw : codec.Lawful) {hash : Data} {version version' : UInt8}
    (h : base58AddressPayloadHash c codec hash version = base58AddressPayloadHash c codec hash version') : version = version' := by
  have hdecode := congrArg codec.Base58Decode (Option.some.inj h)
  rw [hlaw.base58_decode, hlaw.base58_decode] at hdecode
  exact (List.cons.inj (Option.some.inj hdecode)).1

theorem toSegwit_inj (hlaw : codec.Lawful) {program : Bytes} (hsize : program.length = 20 ∨ program.length = 32)
    (h : toSegwit codec (some program) testPrefix = toSegwit codec (some program) mainPrefix) : False := by
  obtain ⟨text, hencode, -, hdecode⟩ := hlaw.segwit_decode testPrefix (by simp) program hsize
  obtain ⟨text', hencode', -, hdecode'⟩ := hlaw.segwit_decode mainPrefix (by simp) program hsize
  rw [toSegwit, toSegwit, toBytes_some, hencode, hencode', Option.some.injEq] at h
  rw [h, hdecode'] at hdecode
  exact absurd (Prod.mk.inj (Option.some.inj hdecode)).1 (by decide)

/-- Both networks have the script, and the script has the address of the main network. -/
theorem survivesCheck_iff_of {kind : AddressKind} {payload : Data} {testNet : Bool}
    (hread : ∀ testNet, addressToPubScript c codec (kind.address c codec testNet payload) = kind.pubScript c payload)
    (hwrite : pubScriptToAddress c codec (kind.pubScript c payload) = kind.address c codec false payload)
    (hapart : kind.address c codec true payload ≠ kind.address c codec false payload) :
    SurvivesCheck c codec kind testNet payload ↔ testNet = false := by
  constructor
  · intro h
    cases testNet with
    | true => exact absurd (h.2.symm.trans hwrite) hapart
    | false => rfl
  · rintro rfl
    exact ⟨hread false, hwrite⟩

/-- A Base58 address: its first byte is `main` or `test`. -/
theorem survivesCheck_iff_base58 (hlaw : codec.Lawful) {kind : AddressKind} {payload : Data} {testNet : Bool} {hash script : Bytes}
    {main test : UInt8} (hlen : hash.length = 20) (hscript : kind.pubScript c payload = some script)
    (haddress : ∀ testNet, kind.address c codec testNet payload =
      base58AddressPayloadHash c codec (some hash) (if testNet then test else main))
    (hversion : main = 0x00 ∧ test = 0x6f ∧ script = p2pkhPubScript (some hash) ∨
      main = 0x05 ∧ test = 0xc4 ∧ script = p2shPubScript (some hash)) :
    SurvivesCheck c codec kind testNet payload ↔ testNet = false := by
  refine survivesCheck_iff_of (fun testNet => ?_) ?_ ?_
  · rw [haddress, hscript]
    refine addressToPubScript_payload hlaw hlen ?_
    rcases hversion with ⟨rfl, rfl, hp2pkh⟩ | ⟨rfl, rfl, hp2sh⟩
    · exact .inl ⟨by cases testNet <;> simp, hp2pkh⟩
    · exact .inr ⟨by cases testNet <;> simp, hp2sh⟩
  · rw [haddress, hscript]
    rcases hversion with ⟨rfl, rfl, rfl⟩ | ⟨rfl, rfl, rfl⟩
    · exact pubScriptToAddress_p2pkh hlen
    · exact pubScriptToAddress_p2sh hlen
  · rw [haddress, haddress]
    intro h
    have hsame : test = main := base58AddressPayloadHash_inj hlaw h
    rcases hversion with ⟨rfl, rfl, -⟩ | ⟨rfl, rfl, -⟩ <;> exact absurd hsame (by decide)

theorem survivesCheck_iff_segwit (hlaw : codec.Lawful) {kind : AddressKind} {payload : Data} {testNet : Bool} {program : Bytes}
    (hlen : program.length = 20 ∨ program.length = 32) (hscript : kind.pubScript c payload = some (segwitScript 0 program))
    (haddress : ∀ testNet, kind.address c codec testNet payload =
      toSegwit codec (some program) (if testNet then testPrefix else mainPrefix)) :
    SurvivesCheck c codec kind testNet payload ↔ testNet = false := by
  refine survivesCheck_iff_of (fun testNet => ?_) ?_ ?_
  · rw [haddress, hscript]
    exact addressToPubScript_segwit hlaw (by cases testNet <;> simp) hlen
  · rw [haddress, hscript, pubScriptToAddress_segwit hlen]
    rfl
  · rw [haddress, haddress]
    exact fun h => toSegwit_inj hlaw hlen h

theorem hash160_some (c : Crypto) (data : Bytes) : ∃ hash, hash160 c (some data) = some hash ∧ hash.length = 20 :=
  ⟨_, rfl, c.ripemd160_length _⟩

theorem sha256_some (c : Crypto) (data : Bytes) : ∃ hash, sha256 c (some data) = some hash ∧ hash.length = 32 :=
  ⟨_, rfl, c.sha256_length _⟩

theorem p2wpkhPubScript_of_key {payload : Data} {key hash : Bytes} (hkey : publicKeyCompress c (publicKeyParse c payload) = some key)
    (hhash : hash160 c (some key) = some hash) : AddressKind.p2wpkh.pubScript c payload = some (segwitScript 0 hash) := by
  cases payload with
  | none => cases hkey
  | some publicKey =>
    show p2wpkhPubScriptFromPubKey c (some publicKey) = _
    unfold p2wpkhPubScriptFromPubKey
    rw [hkey]
    dsimp only
    rw [hhash]
    rfl

/-- A generated address survives the check exactly when it is one of the main network. -/
theorem survivesCheck_iff (c : Crypto) {codec : Codec} (hlaw : codec.Lawful) (kind : AddressKind) (testNet : Bool) {payload : Data}
    (htakes : kind.Takes c payload) : SurvivesCheck c codec kind testNet payload ↔ testNet = false := by
  cases kind with
  | p2pkh =>
    obtain ⟨key, hkey⟩ := Option.ne_none_iff_exists'.1 htakes
    obtain ⟨hash, hhash, hlen⟩ := hash160_some c key
    refine survivesCheck_iff_base58 hlaw hlen ?_ (fun testNet => ?_) (.inl ⟨rfl, rfl, rfl⟩)
    · rw [← hhash, ← hkey]
      rfl
    · rw [← hhash, ← hkey]
      cases testNet <;> rfl
  | p2sh =>
    obtain ⟨script, rfl⟩ := Option.ne_none_iff_exists'.1 htakes
    obtain ⟨hash, hhash, hlen⟩ := hash160_some c script
    refine survivesCheck_iff_base58 hlaw hlen ?_ (fun testNet => ?_) (.inr ⟨rfl, rfl, rfl⟩)
    · rw [← hhash]
      rfl
    · rw [← hhash]
      cases testNet <;> rfl
  | p2wpkh =>
    obtain ⟨key, hkey⟩ := Option.ne_none_iff_exists'.1 htakes
    obtain ⟨hash, hhash, hlen⟩ := hash160_some c key
    refine survivesCheck_iff_segwit hlaw (.inl hlen) (p2wpkhPubScript_of_key hkey hhash) fun testNet => ?_
    rw [← hhash, ← hkey]
    cases testNet <;> rfl
  | p2wsh =>
    obtain ⟨script, rfl⟩ := Option.ne_none_iff_exists'.1 htakes
    obtain ⟨hash, hhash, hlen⟩ := sha256_some c script
    refine survivesCheck_iff_segwit hlaw (.inr hlen) ?_ fun testNet => ?_
    · show some (p2wshPubScript (sha256 c (some script))) = _
      rw [hhash]
      rfl
    · rw [← hhash]
      cases testNet <;> rfl

theorem survivesCheck_iff_script : SurvivesCheck plainCrypto knownCodec .p2wsh false (some [0x51]) :=
  (survivesCheck_iff plainCrypto knownCodec_lawful .p2wsh false (Option.some_ne_none _)).2 rfl

/-- The script OP_1 on the test network. -/
theorem not_survivesCheck :
    ¬ ∀ (c : Crypto) (codec : Codec), codec.Lawful → ∀ (kind : AddressKind) (testNet : Bool) (payload : Data),
      kind.Takes c payload → SurvivesCheck c codec kind testNet payload := by
  intro h
  have hcheck := (h plainCrypto knownCodec knownCodec_lawful .p2wsh true (some [0x51]) (Option.some_ne_none _)).2
  exact absurd hcheck (by decide +kernel)

end BitcoinSpoon
