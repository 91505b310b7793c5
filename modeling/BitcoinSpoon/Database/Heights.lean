/-
  BitcoinSpoon.Database.Heights — whether the cached heights are those of the table
  (`code/Database.c`).

  A height above 0 under four bytes answers for every hash that begins with them, and the
  table has one hash at a height. So the cache is transparent exactly if it holds no height
  above 0 (`transparent_iff_quiet`), and through a run exactly if no call leaves one in it
  (`heights_transparent_iff`). From an empty cache that is a run that neither looks up a
  stored block nor stores one, or stores it above a block with the same four bytes.
-/

import BitcoinSpoon.Database.Blocks

namespace BitcoinSpoon.Database

open Wire Loop KeysAndValues

variable {search : BinarySearch} {c : Crypto} {network : Network} {self next : BlockDatabase} {cache : HeightCache}

/-- Every hash of 32 bytes gets the height it has in the table. -/
def HeightsTransparent (search : BinarySearch) (network : Network) (self : BlockDatabase) : Prop :=
  ∀ hash : Data, hash.length = 32 → (databaseHeightOf search network self hash).1 = tableHeightOf network self.blocks hash

/-! ## The cache -/

/-- There is something under the four bytes. -/
def HeightCache.Has (search : BinarySearch) (cache : HeightCache) (hashPrefix : Int32) : Prop :=
  (cache.get search hashPrefix).length ≠ 0

theorem get_of_has {hashPrefix : Int32} (h : cache.Has search hashPrefix) : ∃ height, cache.get search hashPrefix = dataInt height := by
  rcases get_cases search cache hashPrefix with hnone | hint
  · rw [HeightCache.Has, hnone] at h
    exact absurd rfl h
  · exact hint

theorem get_remember (hashPrefix other height : Int32) : (cache.remember search hashPrefix height).get search other =
    if other = hashPrefix then dataInt (if (cache.get search hashPrefix).length ≠ 0 then -1 else height)
    else cache.trim.get search other := get_put _ _ _

theorem quiet_trim (h : Quiet search cache) : Quiet search cache.trim := by
  intro hashPrefix height hget
  rcases @get_trim search cache hashPrefix with hsame | hnone
  · exact h hashPrefix height (hsame ▸ hget)
  · rw [hnone] at hget
    cases hget

/-- A height above 0 stays out if something was under its bytes; the rest is what is left
    of the cache. -/
theorem quiet_remember {hashPrefix height : Int32} (hpos : 0 < height) : Quiet search (cache.remember search hashPrefix height) ↔
    cache.Has search hashPrefix ∧
      ∀ other value, other ≠ hashPrefix → cache.trim.get search other = dataInt value → ¬ 0 < value := by
  constructor
  · intro h
    constructor
    · intro hnone
      refine h hashPrefix height ?_ hpos
      rw [get_remember, if_pos rfl, if_neg (not_not.2 hnone)]
    · intro other value hother hget
      refine h other value ?_
      rw [get_remember, if_neg hother, hget]
  · rintro ⟨hhas, hrest⟩ other value hget
    rw [get_remember] at hget
    split at hget
    · rw [if_pos (show (cache.get search hashPrefix).length ≠ 0 from hhas)] at hget
      rw [← dataInt_inj (congrArg Data.toBytes hget)]
      decide
    · rename_i hother
      exact hrest other value hother hget

theorem quiet_once (h : Quiet search cache) {hashPrefix height : Int32} (hpos : 0 < height) :
    Quiet search (cache.remember search hashPrefix height) ↔ cache.Has search hashPrefix := by
  rw [quiet_remember hpos]
  exact and_iff_left fun other value _ => quiet_trim h other value

/-- The second height covers the first one if it has the same bytes or the first one is
    trimmed away for it. -/
theorem quiet_twice (h : Quiet search cache) {first second height above : Int32} (hpos : 0 < height) (habove : 0 < above) :
    Quiet search ((cache.remember search first height).remember search second above) ↔
      (cache.remember search first height).Has search second ∧
        (cache.Has search first ∨ first = second ∨ ¬ (cache.remember search first height).trim.Has search first) := by
  rw [quiet_remember habove]
  refine and_congr_right fun _ => ?_
  by_cases hhas : cache.Has search first
  · have hquiet := quiet_trim ((quiet_once h hpos).2 hhas)
    exact iff_of_true (fun other value _ => hquiet other value) (Or.inl hhas)
  rw [or_iff_right hhas]
  constructor
  · intro hrest
    by_contra hnot
    obtain ⟨hne, hleft⟩ := not_or.1 hnot
    obtain ⟨value, hvalue⟩ := get_of_has (not_not.1 hleft)
    refine hrest first value hne hvalue ?_
    rcases @get_trim search (cache.remember search first height) first with hsame | hnone
    · rw [hsame, get_remember, if_pos rfl, if_neg (show ¬ (cache.get search first).length ≠ 0 from hhas)] at hvalue
      rwa [← dataInt_inj (congrArg Data.toBytes hvalue)]
    · rw [hnone] at hvalue
      cases hvalue
  · intro hcovered other value hother hget
    rcases @get_trim search (cache.remember search first height) other with hsame | hnone
    · rw [hsame, get_remember] at hget
      split at hget
      · rename_i hfirst
        rcases hcovered with heq | htrimmed
        · exact absurd (hfirst.trans heq) hother
        · rw [hfirst] at hsame
          exact absurd (by rw [HeightCache.Has, hsame, get_remember, if_pos rfl, dataInt_length]; decide) htrimmed
      · exact quiet_trim h other value hget
    · rw [hnone] at hget
      cases hget

/-! ## One state -/

theorem hashPrefixOf_dataInt (hashPrefix : Int32) (rest : Bytes) : hashPrefixOf ((dataInt hashPrefix).toBytes ++ rest) = hashPrefix := by
  have hlength : (dataInt hashPrefix).toBytes.length = 4 := leBytes_length 4 _
  have hlt := hashPrefix.toUInt32.toNat_lt
  rw [hashPrefixOf, List.take_left' hlength]
  show (UInt32.ofNat (leNat (leBytes 4 hashPrefix.toUInt32.toNat))).toInt32 = hashPrefix
  rw [leNat_leBytes 4 _ hlt]
  simp

/-- The cache is transparent exactly if there is no height above 0 in it. -/
theorem transparent_iff_quiet : HeightsTransparent search network self ↔ Quiet search self.blockHeightCache := by
  constructor
  · intro h hashPrefix height hget hpos
    -- of two hashes that begin with the bytes, the table has one at the height at most
    have hrow : ∀ last : UInt8, ∃ row ∈ self.blocks.rows,
        row.height = height ∧ row.hash = (dataInt hashPrefix).toBytes ++ List.replicate 28 last := by
      intro last
      have hlength : Data.length (some ((dataInt hashPrefix).toBytes ++ List.replicate 28 last)) = 32 := by
        have hint : (dataInt hashPrefix).toBytes.length = 4 := leBytes_length 4 _
        rw [length_some, List.length_append, hint, List.length_replicate]
      have hanswer := h (some ((dataInt hashPrefix).toBytes ++ List.replicate 28 last)) hlength
      rw [databaseHeightOf, if_neg (not_not.2 hlength), toBytes_some, hashPrefixOf_dataInt] at hanswer
      dsimp only at hanswer
      rw [hget, dataGetInt_dataInt, Option.getD_some, if_pos hpos, tableHeightOf_eq] at hanswer
      cases hfound : self.blocks.withHash (Data.toBytes (some ((dataInt hashPrefix).toBytes ++ List.replicate 28 last))) with
      | none =>
        rw [hfound] at hanswer
        dsimp only at hanswer
        split at hanswer
        · rw [hanswer] at hpos
          exact absurd hpos (by decide)
        · rw [hanswer] at hpos
          exact absurd hpos (by decide)
      | some row =>
        rw [hfound] at hanswer
        exact ⟨row, (withHash_some hfound).1, hanswer.symm, (withHash_some hfound).2⟩
    obtain ⟨zero, hzero, hheight, hhash⟩ := hrow 0
    obtain ⟨one, hone, hheight', hhash'⟩ := hrow 1
    rw [row_unique hzero hone (hheight.trans hheight'.symm)] at hhash
    have hlast := List.append_cancel_left (hhash.symm.trans hhash')
    revert hlast
    decide
  · intro h hash hlength
    rw [heightOf_quiet h hlength]

/-! ## The calls -/

inductive BlockCall where
  | addBlock (block : MerkleBlock)
  | heightOf (hash : Data)
  | resetAllBlocks

def BlockCall.run (search : BinarySearch) (c : Crypto) (network : Network) (self : BlockDatabase) : BlockCall → Option BlockDatabase
  | .addBlock block => (databaseAddBlock search c network self block).map Prod.snd
  | .heightOf hash => some (databaseHeightOf search network self hash).2
  | .resetAllBlocks => some (databaseResetAllBlocks network self)

/-- The call leaves no height above 0 in the cache. A stored block that is looked up, or a
    block that is stored, has its first four bytes in the cache already, unless the block
    that `DatabaseAddBlock` stores next covers the one it was looked up for. -/
def Silent (search : BinarySearch) (c : Crypto) (network : Network) (self : BlockDatabase) : BlockCall → Prop
  | .heightOf hash => hash.length = 32 → ∀ row, self.blocks.withHash hash.toBytes = some row →
      self.blockHeightCache.Has search row.hashPrefix
  | .addBlock block =>
    let parent := blockPrevHash block
    let hash := (Sync.blockHash c block).toBytes
    let stored := self.blocks.admits (tableHeightOf network self.blocks parent + 1) hash = true
    let looked := self.looked search parent.toBytes
    MerkleBlockValid block = true → ¬ tableHeightOf network self.blocks parent < 0 →
      tableHeightOf network self.blocks parent ≠ Int32.maxValue →
      (stored → looked.Has search (hashPrefixOf hash)) ∧
        ∀ row, self.blocks.withHash parent.toBytes = some row → self.blockHeightCache.Has search row.hashPrefix ∨
          stored ∧ (row.hashPrefix = hashPrefixOf hash ∨ ¬ looked.trim.Has search row.hashPrefix)
  | .resetAllBlocks => True

theorem looked_none {hash : Bytes} (h : self.blocks.withHash hash = none) : self.looked search hash = self.blockHeightCache := by
  rw [BlockDatabase.looked, h]

theorem looked_some {hash : Bytes} {row : BlockRow} (h : self.blocks.withHash hash = some row) :
    self.looked search hash = self.blockHeightCache.remember search row.hashPrefix row.height := by
  rw [BlockDatabase.looked, h]

theorem quiet_looked (h : Quiet search self.blockHeightCache) (hash : Bytes) : Quiet search (self.looked search hash) ↔
    ∀ row, self.blocks.withHash hash = some row → self.blockHeightCache.Has search row.hashPrefix := by
  cases hrow : self.blocks.withHash hash with
  | none =>
    rw [looked_none hrow]
    exact iff_of_true h fun row heq => (by cases heq)
  | some row =>
    rw [looked_some hrow, quiet_once h row.height_pos]
    constructor
    · intro hhas other heq
      cases heq
      exact hhas
    · exact fun hall => hall row rfl

/-- A block that is not found is none of the table's, and looking for it changes nothing. -/
theorem looked_of_neg {hash : Data} (h : tableHeightOf network self.blocks hash < 0) :
    self.looked search hash.toBytes = self.blockHeightCache := by
  cases hrow : self.blocks.withHash hash.toBytes with
  | none => exact looked_none hrow
  | some row =>
    rw [tableHeightOf_eq, hrow] at h
    exact absurd (Int32.lt_trans h row.height_pos) Int32.lt_irrefl

/-- A block is stored after a look for its parent. -/
theorem quiet_stored (h : Quiet search self.blockHeightCache) {parent : Bytes} {hashPrefix height : Int32} (hpos : 0 < height) :
    Quiet search ((self.looked search parent).remember search hashPrefix height) ↔
      (self.looked search parent).Has search hashPrefix ∧
        ∀ row, self.blocks.withHash parent = some row → self.blockHeightCache.Has search row.hashPrefix ∨
          row.hashPrefix = hashPrefix ∨ ¬ (self.looked search parent).trim.Has search row.hashPrefix := by
  cases hparent : self.blocks.withHash parent with
  | none =>
    rw [looked_none hparent, quiet_once h hpos]
    exact (and_iff_left fun row heq => (by cases heq)).symm
  | some below =>
    rw [looked_some hparent, quiet_twice h below.height_pos hpos]
    refine and_congr_right fun _ => ⟨fun hcovered row heq => ?_, fun hall => hall below rfl⟩
    cases heq
    exact hcovered

theorem addBlock_silent (h : Quiet search self.blockHeightCache) {block : MerkleBlock} {stored : Bool}
    (hnext : databaseAddBlock search c network self block = some (stored, next)) :
    Quiet search next.blockHeightCache ↔ Silent search c network self (.addBlock block) := by
  rcases addBlock_cases hnext with ⟨hinvalid, rfl, -⟩ | ⟨hvalid, prevHeight, found, hfound, hcases⟩
  · exact iff_of_true h fun hvalid => absurd hvalid (by rw [hinvalid]; decide)
  rw [heightOf_quiet h (parent_length hvalid)] at hfound
  cases hfound
  rcases hcases with ⟨hneg, rfl, -⟩ | ⟨hprev, hmax, ⟨hrefused, rfl, -⟩ | ⟨hadmitted, -, row, hheight, hhash, -, rfl⟩⟩
  · have hsame := @looked_of_neg search network self _ hneg
    rw [hsame, heightOf_quiet h (parent_length hvalid)]
    refine iff_of_true ?_ fun _ hprev => absurd hneg hprev
    show Quiet search (self.looked search (blockPrevHash block).toBytes)
    rw [hsame]
    exact h
  · refine (quiet_looked h _).trans ⟨fun hall _ _ _ => ⟨fun hstored => ?_, fun row hrow => Or.inl (hall row hrow)⟩, fun hsilent row hrow => ?_⟩
    · rw [hrefused] at hstored
      cases hstored
    · rcases (hsilent hvalid hprev hmax).2 row hrow with hhas | ⟨hstored, -⟩
      · exact hhas
      · rw [hrefused] at hstored
        cases hstored
  · rw [row.hashPrefix_eq, hhash]
    refine (@quiet_stored search self h (blockPrevHash block).toBytes _ _ row.height_pos).trans ⟨fun hall _ _ _ => ?_, fun hsilent => ?_⟩
    · exact ⟨fun _ => hall.1, fun below hbelow => (hall.2 below hbelow).imp_right fun hrest => ⟨hadmitted, hrest⟩⟩
    · obtain ⟨hhas, hcovered⟩ := hsilent hvalid hprev hmax
      exact ⟨hhas hadmitted, fun below hbelow => (hcovered below hbelow).imp_right And.right⟩

/-- A call that overflows is silent: nothing comes after it. -/
theorem silent_of_overflow (h : Quiet search self.blockHeightCache) {block : MerkleBlock}
    (hnone : databaseAddBlock search c network self block = none) : Silent search c network self (.addBlock block) := by
  obtain ⟨hvalid, hmax⟩ := overflow_of_none hnone
  rw [heightOf_quiet h (parent_length hvalid)] at hmax
  exact fun _ _ hfits => absurd hmax hfits

theorem call_silent (h : HeightsTransparent search network self) {call : BlockCall} (hnext : call.run search c network self = some next) :
    HeightsTransparent search network next ↔ Silent search c network self call := by
  have hquiet := transparent_iff_quiet.1 h
  rw [transparent_iff_quiet]
  cases call with
  | addBlock block =>
    obtain ⟨⟨stored, db⟩, hadd, rfl⟩ := Option.map_eq_some_iff.1 hnext
    exact addBlock_silent hquiet hadd
  | heightOf hash =>
    cases hnext
    by_cases hlength : hash.length = 32
    · rw [heightOf_quiet hquiet hlength]
      exact (quiet_looked hquiet _).trans ⟨fun hall _ => hall, fun hsilent => hsilent hlength⟩
    · rw [databaseHeightOf, if_pos hlength]
      exact iff_of_true hquiet fun hlength' => absurd hlength' hlength
  | resetAllBlocks =>
    cases hnext
    exact iff_of_true hquiet trivial

/-- The cache is transparent at every moment of a run exactly if every call is silent. -/
theorem heights_transparent_iff (search : BinarySearch) (c : Crypto) (network : Network) (calls : List BlockCall) :
    Throughout (BlockCall.run search c network) (HeightsTransparent search network) ⟨network.initialBlocks, .empty⟩ calls ↔
      Along (BlockCall.run search c network) (Silent search c network) ⟨network.initialBlocks, .empty⟩ calls := by
  refine @throughout_iff_along _ _ _ (HeightsTransparent search network) (fun _ => True) _
    (fun _ _ _ _ hgood hnext => ⟨fun _ => trivial, call_silent hgood hnext⟩) (fun self call _ hgood hnone => ?_) _ _ trivial
    (transparent_iff_quiet.2 fun hashPrefix height hget => ?_)
  · cases call with
    | addBlock block => exact silent_of_overflow (transparent_iff_quiet.1 hgood) (Option.map_eq_none_iff.1 hnone)
    | heightOf hash => cases hnone
    | resetAllBlocks => cases hnone
  · have hnone := @get_empty search hashPrefix
    rw [hnone] at hget
    cases hget

/-- After the block was looked up, another hash with the same four bytes has its height. -/
theorem not_heights_transparent :
    ¬ Throughout (BlockCall.run .halving plainCrypto network2015) (HeightsTransparent .halving network2015)
      ⟨network2015.initialBlocks, .empty⟩ [.heightOf (some hash2015)] := by
  intro h
  have hheight := h _ (List.prefix_refl _) _ rfl (some (hash2015.take 4 ++ List.replicate 28 0)) (by decide)
  revert hheight
  decide +kernel

end BitcoinSpoon.Database
