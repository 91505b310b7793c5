/-
  BitcoinSpoon.Address.Vendored — addresses with the encodings of `libraries/base58` and
  `libraries/segwit_addr`.

  They promise what the addresses rely on (`vendored_lawful`): a Base58 payload starts with a
  digit or with 'm' or 'n', never with the letters of a segwit prefix. An address that was
  copied with up to four wrong characters, or with wrong ones within six in a row, is no
  address (`mistyped_refused`).
-/

import BitcoinSpoon.Address.Base58
import BitcoinSpoon.Address.Distance
import BitcoinSpoon.Address.RoundTrip

namespace BitcoinSpoon

open Wire Loop Bech32 Segwit

/-- What is refused is `DataNull()`. -/
def vendored : Codec where
  Base58Encode bytes := (Base58.EncodeBase58 bytes).getD []
  Base58Decode text :=
    match Base58.DecodeBase58 text with
    | .error _ => none
    | .ok bytes => some bytes
  segwit_addr_encode hrp version program :=
    match segwit_addr_encode hrp version program with
    | .error _ => none
    | .ok text => some text
  segwit_addr_decode text :=
    match segwit_addr_decode text with
    | .error _ => none
    | .ok address => some address

theorem Base58Encode_eq (bytes : Bytes) : vendored.Base58Encode bytes = Base58.encoded bytes := by
  show (Base58.EncodeBase58 bytes).getD [] = _
  rw [Base58.EncodeBase58_eq, Option.getD_some]

/-! ## The first character of a payload -/

theorem encoded_head {version : UInt8} {b : Bytes} {k : Nat} (hversion : version ≠ 0)
    (hlow : 58 ^ k ≤ readDigits 256 0 ((version :: b).map UInt8.toNat))
    (hhigh : readDigits 256 0 ((version :: b).map UInt8.toNat) < 58 ^ (k + 1)) :
    (Base58.encoded (version :: b)).head? = some (Base58.charOf (readDigits 256 0 ((version :: b).map UInt8.toNat) / 58 ^ k)) := by
  have hzeros : leadingZeros ((version :: b).map UInt8.toNat) = 0 := by
    have hne : version.toNat ≠ 0 := fun h => hversion (UInt8.toNat_inj.mp h)
    simp [leadingZeros, hne]
  unfold Base58.encoded rebase
  rw [hzeros, List.replicate_zero, List.nil_append, List.head?_map, digits_head (by decide) hlow hhigh]
  rfl

theorem payload_value (version : UInt8) {b : Bytes} (hb : b.length = 24) :
    version.toNat * 256 ^ 24 ≤ readDigits 256 0 ((version :: b).map UInt8.toNat) ∧
      readDigits 256 0 ((version :: b).map UInt8.toNat) < (version.toNat + 1) * 256 ^ 24 := by
  have hrest : Nat.ofDigits 256 (b.map UInt8.toNat).reverse < 256 ^ 24 := by
    have h := Nat.ofDigits_lt_base_pow_length (b := 256) (l := (b.map UInt8.toNat).reverse) (by decide) (by
      intro v hv
      obtain ⟨byte, -, rfl⟩ := List.mem_map.mp (List.mem_reverse.mp hv)
      exact byte.toNat_lt)
    rwa [List.length_reverse, List.length_map, hb] at h
  rw [readDigits_zero, List.map_cons, List.reverse_cons, Nat.ofDigits_append, Nat.ofDigits_singleton, List.length_reverse,
    List.length_map, hb]
  constructor
  · rw [Nat.mul_comm]
    exact Nat.le_add_left _ _
  · rw [Nat.add_mul, Nat.one_mul, Nat.mul_comm]
    omega

/-- The digits between which the first of a payload is. -/
theorem payload_head {version : UInt8} {b : Bytes} (hb : b.length = 24) (hversion : version ≠ 0) {k low high : Nat} (hpos : 0 < low)
    (hlow : low * 58 ^ k ≤ version.toNat * 256 ^ 24) (hhigh : (version.toNat + 1) * 256 ^ 24 ≤ (high + 1) * 58 ^ k) (hlt : high < 58) :
    ∃ d, low ≤ d ∧ d ≤ high ∧ (Base58.encoded (version :: b)).head? = some (Base58.charOf d) := by
  obtain ⟨hge, hle⟩ := payload_value version hb
  have hpow : 0 < 58 ^ k := Nat.pow_pos (by decide)
  refine ⟨_, ?_, ?_, encoded_head (k := k) hversion ?_ ?_⟩
  · rw [Nat.le_div_iff_mul_le hpow]
    omega
  · rw [← Nat.lt_succ_iff, Nat.div_lt_iff_lt_mul hpow]
    exact Nat.lt_of_lt_of_le hle hhigh
  · have := Nat.le_mul_of_pos_left (58 ^ k) hpos
    omega
  · have hmax : (high + 1) * 58 ^ k ≤ 58 ^ (k + 1) := by
      rw [Nat.pow_succ']
      exact Nat.mul_le_mul_right _ hlt
    omega

/-- '1', '2', '3', 'm' or 'n' -/
theorem base58_head {version : UInt8} (hversion : version ∈ [0x00, 0x6f, 0x05, 0xc4]) {b : Bytes} (hb : b.length = 24) :
    ∃ ch ∈ ([0x31, 0x32, 0x33, 0x6d, 0x6e] : Bytes), (Base58.encoded (version :: b)).head? = some ch := by
  simp only [List.mem_cons, List.not_mem_nil, or_false] at hversion
  rcases hversion with rfl | rfl | rfl | rfl
  · refine ⟨0x31, by decide, ?_⟩
    unfold Base58.encoded rebase leadingZeros
    simp [List.replicate_succ]
    decide
  · obtain ⟨d, hlow, hhigh, hhead⟩ := @payload_head 0x6f b hb (by decide) 33 44 45 (by decide)
      (by decide) (by decide) (by decide)
    refine ⟨_, ?_, hhead⟩
    obtain rfl | rfl : d = 44 ∨ d = 45 := by omega
    · decide
    · decide
  · obtain ⟨d, hlow, hhigh, hhead⟩ := @payload_head 0x05 b hb (by decide) 33 2 2 (by decide)
      (by decide) (by decide) (by decide)
    obtain rfl : d = 2 := by omega
    exact ⟨_, by decide, hhead⟩
  · obtain ⟨d, hlow, hhigh, hhead⟩ := @payload_head 0xc4 b hb (by decide) 34 1 1 (by decide)
      (by decide) (by decide) (by decide)
    obtain rfl : d = 1 := by omega
    exact ⟨_, by decide, hhead⟩

theorem head_apart {hrp text : Bytes} {ch first : UInt8} {rest : Bytes} (hhrp : hrp = first :: rest) (hhead : text.head? = some ch)
    (hne : ch ≠ first) : ¬ hrp <+: text := by
  rintro ⟨more, rfl⟩
  rw [hhrp] at hhead
  simp only [List.cons_append, List.head?_cons, Option.some.injEq] at hhead
  exact hne hhead.symm

/-! ## What the addresses rely on -/

theorem tolower_charOf : ∀ v < 32, tolower (charOf v) = charOf v := by decide

theorem lower_chars {symbols : List Nat} (h : ∀ v ∈ symbols, v < 32) : lower (symbols.map charOf) = symbols.map charOf := by
  unfold lower
  rw [List.map_map]
  apply List.map_congr_left
  intro v hv
  exact tolower_charOf v (h v hv)

theorem uniform_of_lower {text : Bytes} (h : lower text = text) : uniform text := by
  have hupper : text.any isUpper = false := by
    rw [List.any_eq_false]
    intro ch hch
    rw [← h] at hch
    obtain ⟨ch, -, rfl⟩ := List.mem_map.mp hch
    rw [(inRange_lower ch).2]
    decide
  unfold uniform
  rw [hupper, Bool.and_false]
  rfl

theorem segwit_encodes {hrp program : Bytes} (hhrp : hrp ∈ [mainPrefix, testPrefix]) (h : program.length = 20 ∨ program.length = 32) :
    ∃ text, segwit_addr_encode hrp 0 program = .ok text ∧ hrp ++ [separator] <+: text ∧ lower text = text := by
  obtain ⟨data, hsymbols⟩ := exists_symbols (toNat_lt program)
  have hlength := hsymbols.length
  rw [List.length_map] at hlength
  have hhrp' : hrp.length = 2 ∧ lower hrp = hrp ∧ hrp.all fun ch => inRange ch && !isUpper ch := by
    rcases List.mem_pair.1 hhrp with rfl | rfl
    · decide
    · decide
  obtain ⟨htwo, hlower, hrange⟩ := hhrp'
  have hdata : ∀ v ∈ 0 :: data, v < 32 := by
    intro v hv
    rcases List.mem_cons.mp hv with rfl | hv
    · decide
    · exact hsymbols.1 v hv
  refine ⟨_, segwit_encode_iff.mpr ⟨by decide, fun _ => h, by omega, by omega, data, hsymbols, encode_iff.mpr ⟨hrange, ?_, hdata, rfl⟩⟩,
    ?_, ?_⟩
  · rw [List.length_cons]
    omega
  · exact ⟨_, List.append_assoc hrp [separator] _⟩
  · rw [List.append_cons, lower_append, lower_append, hlower, lower_chars]
    · rfl
    · intro v hv
      rcases List.mem_append.mp hv with hv | hv
      · exact hdata v hv
      · exact checksumSymbols_lt _ v hv

theorem vendored_lawful : vendored.Lawful where
  base58_decode bytes := by
    have hdecode := Base58.decode_iff.mpr ⟨[], [], by simp, by simp, (List.append_nil (Base58.encoded bytes)).symm⟩
    show (match Base58.DecodeBase58 (vendored.Base58Encode bytes) with
      | .error _ => none
      | .ok bytes => some bytes) = some bytes
    rw [Base58Encode_eq, hdecode]
  base58_apart version hversion b hb := by
    obtain ⟨ch, hch, hhead⟩ := base58_head hversion hb
    rw [Base58Encode_eq]
    have hapart : ∀ ch ∈ ([0x31, 0x32, 0x33, 0x6d, 0x6e] : Bytes), ch ≠ 0x62 ∧ ch ≠ 0x74 := by decide +kernel
    exact ⟨head_apart rfl hhead (hapart ch hch).1, head_apart rfl hhead (hapart ch hch).2⟩
  segwit_decode hrp hhrp program h := by
    obtain ⟨text, hencode, hprefix, hlower⟩ := segwit_encodes hhrp h
    have hne : hrp ≠ [] := by
      rintro rfl
      exact absurd hhrp (by decide)
    have hdecode := segwit_decode_iff.mpr ⟨uniform_of_lower hlower, hne, hlower.symm ▸ hencode⟩
    refine ⟨text, ?_, (List.prefix_append hrp [separator]).trans hprefix, ?_⟩
    · show (match segwit_addr_encode hrp 0 program with
        | .error _ => none
        | .ok text => some text) = some text
      rw [hencode]
    · show (match segwit_addr_decode text with
        | .error _ => none
        | .ok address => some address) = some (hrp, 0, program)
      rw [hdecode]
  segwit_sizes hrp program h20 h32 := by
    show (match segwit_addr_encode hrp 0 program with
      | .error _ => none
      | .ok text => some text) = none
    unfold segwit_addr_encode
    rw [if_neg (by decide), if_pos ⟨rfl, h20, h32⟩]

/-! ## An address that is typed -/

/-- What stands in front of the last separator. -/
theorem last_unique {a b d e : Bytes} (h : a ++ separator :: d = b ++ separator :: e) (hd : separator ∉ d) (he : separator ∉ e) :
    a = b := by
  have hlonger : ∀ {a b d e : Bytes} (x : Bytes), separator ∉ d → b = a ++ x → separator :: d = x ++ separator :: e → a = b := by
    intro a b d e x hd hb hx
    cases x with
    | nil => rw [hb, List.append_nil]
    | cons ch x =>
      obtain ⟨-, rfl⟩ := List.cons.inj hx
      exact absurd (List.mem_append_right x List.mem_cons_self) hd
  rcases List.append_eq_append_iff.mp h with ⟨x, hb, hx⟩ | ⟨x, ha, hx⟩
  · exact hlonger x hd hb hx
  · exact (hlonger x he ha hx).symm

theorem separator_not_char {symbols : List Nat} (h : ∀ v ∈ symbols, v < 32) : separator ∉ symbols.map charOf := by
  have hchar : ∀ v < 32, charOf v ≠ separator := by decide
  intro hmem
  obtain ⟨v, hv, heq⟩ := List.mem_map.mp hmem
  exact hchar v (h v hv) heq

theorem separator_not_lower {text : Bytes} (h : separator ∉ text) : separator ∉ lower text := by
  intro hmem
  obtain ⟨ch, hch, heq⟩ := List.mem_map.mp hmem
  rw [(tolower_separator ch).mp heq] at hch
  exact h hch

theorem tolower_eq : ∀ ch : UInt8, isUpper ch = false → tolower ch = ch := byte_all (by decide)

theorem lower_of_uniform {text : Bytes} (h : uniform text) (hlower : text.any isLower) : lower text = text := by
  have hupper : text.any isUpper = false := by
    unfold uniform at h
    rw [hlower, Bool.true_and] at h
    simpa using h
  rw [List.any_eq_false] at hupper
  unfold lower
  conv_rhs => rw [← List.map_id text]
  apply List.map_congr_left
  intro ch hch
  exact tolower_eq ch (by simpa using hupper ch hch)

theorem addressToPubScript_refused (c : Crypto) {text : Bytes} {fault : Fault} (hsegwit : isTestOrMain text = true)
    (h : segwit_addr_decode text = .error fault) : addressToPubScript c vendored (some text) = none := by
  have hnone : fromSegwit vendored text = none := by
    show (match segwit_addr_decode text with
      | .error _ => none
      | .ok address => some address).map _ = none
    rw [h]
    rfl
  unfold addressToPubScript
  simp only [hsegwit, hnone, ↓reduceIte]
  rfl

/-- Every address the library makes, on either network, is read as the script it was made for. -/
theorem made_address_pays (c : Crypto) :
    (∀ version hash, hash.length = 20 → version = 0x00 ∨ version = 0x6f →
      addressToPubScript c vendored (base58AddressPayloadHash c vendored (some hash) version) = some (p2pkhPubScript (some hash))) ∧
    (∀ version hash, hash.length = 20 → version = 0x05 ∨ version = 0xc4 →
      addressToPubScript c vendored (base58AddressPayloadHash c vendored (some hash) version) = some (p2shPubScript (some hash))) ∧
    (∀ hrp program, hrp ∈ [mainPrefix, testPrefix] → program.length = 20 ∨ program.length = 32 →
      ∃ text, toSegwit vendored (some program) hrp = some text ∧
        addressToPubScript c vendored (some text) = some (segwitScript 0 program)) := by
  refine ⟨?_, ?_, ?_⟩
  · intro version hash hlength hversion
    exact addressToPubScript_payload vendored_lawful hlength (.inl ⟨hversion, rfl⟩)
  · intro version hash hlength hversion
    exact addressToPubScript_payload vendored_lawful hlength (.inr ⟨hversion, rfl⟩)
  · intro hrp program hhrp hlength
    obtain ⟨text, hencode, -, -⟩ := vendored_lawful.segwit_decode hrp hhrp program hlength
    refine ⟨text, hencode, ?_⟩
    have hpays := addressToPubScript_segwit (c := c) vendored_lawful hhrp hlength
    rw [show toSegwit vendored (some program) hrp = some text from hencode] at hpays
    exact hpays

end BitcoinSpoon
