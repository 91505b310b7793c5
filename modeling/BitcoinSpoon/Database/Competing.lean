/-
  BitcoinSpoon.Database.Competing — headers that extend one stored parent
  (`code/Database.c`, `code/Database.h`).

  Of the headers added on a parent, and the one that was stored above it before, the one
  with the smallest hash is left, whatever the order (`adopt_least`): each call either
  replaces a greater hash or changes nothing. That rests on the height `DatabaseHeightOf`
  gives for the parent. A height the cache has under the same four bytes for another hash
  sends every one of the headers to another place (`competing_iff`).
-/

import BitcoinSpoon.Database.Chain
import BitcoinSpoon.Database.Heights

namespace BitcoinSpoon.Database

open Wire Loop

/-! ## The least one -/

section Least

variable {α : Type} (number : α → Nat)

/-- A smaller one takes the place of what is kept. -/
def adopt (kept : Option α) (new : α) : Option α :=
  match kept with
  | none => some new
  | some old => if number new < number old then some new else some old

variable {number}

/-- Adopting one after another leaves a least one of all, in any order. -/
theorem adopt_least {kept : Option α} {news : List α} {new : α} (h : (news.foldl (adopt number) kept) = some new) :
    (new ∈ news ∨ kept = some new) ∧ ∀ other, other ∈ news ∨ kept = some other → number new ≤ number other := by
  induction news generalizing kept with
  | nil =>
    refine ⟨Or.inr h, fun other hother => ?_⟩
    rcases hother with hmem | hkept
    · cases hmem
    · rw [List.foldl_nil, hkept] at h
      rw [Option.some.inj h]
  | cons first news ih =>
    obtain ⟨hmem, hleast⟩ := ih h
    cases kept with
    | none =>
      constructor
      · rcases hmem with hmem | hfirst
        · exact Or.inl (List.mem_cons_of_mem _ hmem)
        · exact Or.inl (List.mem_cons.2 (Or.inl (Option.some.inj hfirst).symm))
      · intro other hother
        rcases hother with hother | hother
        · rcases List.mem_cons.1 hother with rfl | hother
          · exact hleast other (Or.inr rfl)
          · exact hleast other (Or.inl hother)
        · cases hother
    | some old =>
      rw [adopt] at hmem hleast
      by_cases hsmaller : number first < number old
      · rw [if_pos hsmaller] at hmem hleast
        constructor
        · rcases hmem with hmem | hfirst
          · exact Or.inl (List.mem_cons_of_mem _ hmem)
          · exact Or.inl (List.mem_cons.2 (Or.inl (Option.some.inj hfirst).symm))
        · intro other hother
          rcases hother with hother | hother
          · rcases List.mem_cons.1 hother with rfl | hother
            · exact hleast other (Or.inr rfl)
            · exact hleast other (Or.inl hother)
          · obtain rfl := Option.some.inj hother
            exact Nat.le_trans (hleast first (Or.inr rfl)) (Nat.le_of_lt hsmaller)
      · rw [if_neg hsmaller] at hmem hleast
        constructor
        · exact hmem.imp_left (List.mem_cons_of_mem _)
        · intro other hother
          rcases hother with hother | hother
          · rcases List.mem_cons.1 hother with rfl | hother
            · exact Nat.le_trans (hleast old (Or.inr rfl)) (Nat.le_of_not_lt hsmaller)
            · exact hleast other (Or.inl hother)
          · exact hleast other (Or.inr hother)

theorem adopt_isSome {kept : Option α} {news : List α} (h : news ≠ []) : ((news.foldl (adopt number) kept)).isSome := by
  have hkept : ∀ (news : List α) (old : α), (news.foldl (adopt number) (some old)).isSome := by
    intro news
    induction news with
    | nil => exact fun old => rfl
    | cons first news ih =>
      intro old
      rw [List.foldl_cons, adopt]
      split
      · exact ih first
      · exact ih old
  cases news with
  | nil => exact absurd rfl h
  | cons first news =>
    rw [List.foldl_cons]
    cases kept with
    | none => exact hkept news first
    | some old =>
      rw [adopt]
      split
      · exact hkept news first
      · exact hkept news old

end Least

/-- The hash stored at a height. -/
def BlockTable.hashAt (blocks : BlockTable) (height : Int32) : Option Bytes := (blocks.atHeight height).map BlockRow.hash

/-- The call returns 1 exactly if it changes the block at the height. -/
def Reports (search : BinarySearch) (c : Crypto) (network : Network) (height : Int32) (self : BlockDatabase) (block : MerkleBlock) : Prop :=
  ∀ stored next, databaseAddBlock search c network self block = some (stored, next) →
    (stored = true ↔ next.blocks.hashAt height ≠ self.blocks.hashAt height)

/-- The headers and what was stored at the height before leave the smallest of their hashes
    there, as numbers, and each call reports whether it changed it. -/
def Resolves (search : BinarySearch) (c : Crypto) (network : Network) (self : BlockDatabase) (height : Int32)
    (headers : List MerkleBlock) : Prop :=
  let hashes := headers.map fun block => (Sync.blockHash c block).toBytes
  Along (addStep search c network) (Reports search c network height) self headers ∧
    ∃ next, after (addStep search c network) self headers = some next ∧
      ∃ hash, next.blocks.hashAt height = some hash ∧ (hash ∈ hashes ∨ self.blocks.hashAt height = some hash) ∧
        ∀ other, other ∈ hashes ∨ self.blocks.hashAt height = some other → leNat hash ≤ leNat other

/-- The row is the one of its hash, in a table of 32-byte hashes. -/
structure StoredParent (blocks : BlockTable) (row : BlockRow) : Prop where
  found : blocks.withHash row.hash = some row
  hashes : ∀ other ∈ blocks.rows, other.hash.length = 32

/-- There is a height above the parent's, and the cache has no other height for the parent. -/
def HeightKnown (search : BinarySearch) (self : BlockDatabase) (row : BlockRow) : Prop :=
  row.height ≠ Int32.maxValue ∧ (0 < self.cachedHeight search (some row.hash) → self.cachedHeight search (some row.hash) = row.height)

/-- A hash at least as small is stored wherever the headers may go. -/
def AllRefused (search : BinarySearch) (c : Crypto) (self : BlockDatabase) (row : BlockRow) (headers : List MerkleBlock) : Prop :=
  let cached := self.cachedHeight search (some row.hash)
  0 < cached ∧ cached ≠ Int32.maxValue ∧ ∀ block ∈ headers, self.blocks.admits (cached + 1) (Sync.blockHash c block).toBytes = false ∧
    self.blocks.admits (row.height + 1) (Sync.blockHash c block).toBytes = false

variable {search : BinarySearch} {c : Crypto} {network : Network} {self next : BlockDatabase} {blocks : BlockTable} {row : BlockRow}
  {headers : List MerkleBlock}

/-! ## The table -/

/-- The comparison of flipped bytes is the one of numbers. -/
theorem compare_reverse {a b : Bytes} (h : a.length = b.length) : dataCompare.go a b < 0 ↔ leNat a.reverse < leNat b.reverse := by
  have happend : ∀ (xs : Bytes) (x : UInt8), leNat (xs ++ [x]) = leNat xs + 256 ^ xs.length * x.toNat := by
    intro xs x
    induction xs with
    | nil => simp [leNat]
    | cons y ys ih =>
      simp only [List.cons_append, leNat, ih, List.length_cons, Nat.pow_succ]
      ring
  induction a generalizing b with
  | nil =>
    obtain rfl := List.length_eq_zero_iff.1 h.symm
    simp [dataCompare.go]
  | cons x xs ih =>
    cases b with
    | nil => cases h
    | cons y ys =>
      have hlen : xs.length = ys.length := Nat.succ.inj h
      rw [dataCompare.go, List.reverse_cons, List.reverse_cons, happend, happend, List.length_reverse, List.length_reverse, ← hlen]
      have hx := leNat_lt xs.reverse
      have hy := leNat_lt ys.reverse
      rw [List.length_reverse] at hx hy
      rw [← hlen] at hy
      split
      · rename_i heq
        rw [heq]
        refine (ih hlen).trans ?_
        omega
      · rename_i hne
        have hnat : x.toNat ≠ y.toNat := fun heq => hne (UInt8.toNat_inj.1 heq)
        rcases Nat.lt_or_gt_of_ne hnat with hlt | hgt
        · have hmul : 256 ^ xs.length * (x.toNat + 1) ≤ 256 ^ xs.length * y.toNat := Nat.mul_le_mul_left _ hlt
          rw [Nat.mul_succ] at hmul
          exact iff_of_true (by omega) (by omega)
        · have hmul : 256 ^ xs.length * (y.toNat + 1) ≤ 256 ^ xs.length * x.toNat := Nat.mul_le_mul_left _ hgt
          rw [Nat.mul_succ] at hmul
          exact iff_of_false (by omega) (by omega)

theorem hashAt_put (new : BlockRow) (height : Int32) :
    (blocks.put new).hashAt height = if height = new.height then some new.hash else blocks.hashAt height := by
  split
  · rename_i hsame
    rw [BlockTable.hashAt, atHeight_iff.2 ⟨mem_put.2 (Or.inl rfl), hsame.symm⟩]
    rfl
  · rename_i hother
    refine congrArg (Option.map BlockRow.hash) (Option.ext fun row => ?_)
    rw [atHeight_iff, atHeight_iff, mem_put]
    constructor
    · rintro ⟨rfl | ⟨hmem, -⟩, hheight⟩
      · exact absurd hheight.symm hother
      · exact ⟨hmem, hheight⟩
    · rintro ⟨hmem, hheight⟩
      exact ⟨Or.inr ⟨hmem, by rw [hheight]; exact hother⟩, hheight⟩

/-- A row below the new one is still the first with its hash. -/
theorem withHash_put {new : BlockRow} (h : blocks.withHash row.hash = some row) (hbelow : row.height < new.height) :
    (blocks.put new).withHash row.hash = some row := by
  rw [withHash_eq] at h ⊢
  obtain ⟨hhash, before, rest, hrows, hbefore⟩ := List.find?_eq_some_iff_append.1 h
  rw [BlockTable.put, List.find?_append, List.find?_filter, hrows, List.find?_append]
  rw [List.find?_eq_none.2, List.find?_cons_of_pos (by simpa using hbelow)]
  · rfl
  · intro a ha
    have hmiss := hbefore a ha
    simp only [Bool.not_eq_true', decide_eq_false_iff_not] at hmiss
    simp [hmiss]

theorem admits_iff (hhashes : ∀ row ∈ blocks.rows, row.hash.length = 32) {hash : Bytes} (hlength : hash.length = 32) (height : Int32) :
    blocks.admits height hash = true ↔ ∀ old, blocks.hashAt height = some old → leNat hash < leNat old := by
  rw [BlockTable.admits, BlockTable.hashAt]
  cases hrow : blocks.atHeight height with
  | none => simp
  | some row =>
    have hold := hhashes row (atHeight_iff.1 hrow).1
    rw [decide_eq_true_iff]
    show dataCompare.go hash.reverse row.hash.reverse < 0 ↔ _
    rw [compare_reverse (by rw [List.length_reverse, List.length_reverse, hlength, hold]), List.reverse_reverse, List.reverse_reverse]
    simp

/-! ## The height of the parent is known -/

theorem hash_length {block : MerkleBlock} (h : MerkleBlockValid block = true) : (Sync.blockHash c block).toBytes.length = 32 := by
  have hlength := length_of_valid h
  rw [Sync.blockHash, if_neg (Nat.not_lt.2 hlength)]
  exact c.sha256_length _

theorem cachedHeight_of_get {hash : Data} {height : Int32}
    (h : self.blockHeightCache.get search (hashPrefixOf hash.toBytes) = dataInt height) : self.cachedHeight search hash = height := by
  rw [BlockDatabase.cachedHeight, h, dataGetInt_dataInt]
  rfl

/-- What is under the four bytes after another height has been remembered. -/
theorem cachedHeight_remember (h : 0 < self.cachedHeight search (some row.hash) → self.cachedHeight search (some row.hash) = row.height)
    (hhas : self.blockHeightCache.Has search (hashPrefixOf row.hash)) (hashPrefix height : Int32) (blocks : BlockTable) :
    let after : BlockDatabase := ⟨blocks, self.blockHeightCache.remember search hashPrefix height⟩
    0 < after.cachedHeight search (some row.hash) → after.cachedHeight search (some row.hash) = row.height := by
  intro after hpos
  have hget := @get_remember search self.blockHeightCache hashPrefix (hashPrefixOf row.hash) height
  by_cases hsame : hashPrefixOf row.hash = hashPrefix
  · rw [if_pos hsame, if_pos (by rw [← hsame]; exact hhas)] at hget
    have hcached : after.cachedHeight search (some row.hash) = -1 := cachedHeight_of_get hget
    rw [hcached] at hpos
    exact absurd hpos (by decide)
  · rw [if_neg hsame] at hget
    rcases @get_trim search self.blockHeightCache (hashPrefixOf row.hash) with hkept | hgone
    · have hcached : after.cachedHeight search (some row.hash) = self.cachedHeight search (some row.hash) := by
        show (dataGetInt ((self.blockHeightCache.remember search hashPrefix height).get search (hashPrefixOf row.hash))).getD 0 = _
        rw [hget, hkept]
        rfl
      rw [hcached] at hpos ⊢
      exact h hpos
    · have hcached : after.cachedHeight search (some row.hash) = 0 := by
        show (dataGetInt ((self.blockHeightCache.remember search hashPrefix height).get search (hashPrefixOf row.hash))).getD 0 = 0
        rw [hget, hgone]
        rfl
      rw [hcached] at hpos
      exact absurd hpos (by decide)

/-- The parent is found at its height, and something is under its four bytes from then on. -/
theorem heightOf_known (hparent : StoredParent self.blocks row) (hknown : HeightKnown search self row) :
    ∃ found : BlockDatabase, databaseHeightOf search network self (some row.hash) = (row.height, found) ∧ found.blocks = self.blocks ∧
      HeightKnown search found row ∧ found.blockHeightCache.Has search (hashPrefixOf row.hash) := by
  have hlength : Data.length (some row.hash) = 32 := hparent.hashes row (withHash_some hparent.found).1
  rw [databaseHeightOf, if_neg (not_not.2 hlength)]
  dsimp only
  by_cases hpos : 0 < self.cachedHeight search (some row.hash)
  · refine ⟨self, ?_, rfl, hknown, fun hnone => ?_⟩
    · rw [← hknown.2 hpos]
      exact if_pos hpos
    · rcases get_cases search self.blockHeightCache (hashPrefixOf row.hash) with hget | ⟨height, hget⟩
      · have hzero : self.cachedHeight search (some row.hash) = 0 := by
          show (dataGetInt (self.blockHeightCache.get search (hashPrefixOf row.hash))).getD 0 = 0
          rw [hget]
          rfl
        rw [hzero] at hpos
        exact absurd hpos (by decide)
      · rw [hget, dataInt_length] at hnone
        cases hnone
  · let found : BlockDatabase := ⟨self.blocks, self.blockHeightCache.remember search (hashPrefixOf row.hash) row.height⟩
    have hget : found.blockHeightCache.get search (hashPrefixOf row.hash) =
        dataInt (if (self.blockHeightCache.get search (hashPrefixOf row.hash)).length ≠ 0 then -1 else row.height) :=
      (get_remember _ _ _).trans (if_pos rfl)
    have hcached : found.cachedHeight search (some row.hash) =
        if (self.blockHeightCache.get search (hashPrefixOf row.hash)).length ≠ 0 then -1 else row.height :=
      @cachedHeight_of_get search found (some row.hash) _ hget
    refine ⟨found, ?_, rfl, ⟨hknown.1, fun hafter => ?_⟩, ?_⟩
    · refine (if_neg hpos).trans ?_
      rw [toBytes_some, hparent.found]
    · rw [hcached] at hafter ⊢
      split at hafter
      · exact absurd hafter (by decide)
      · rename_i hempty
        exact if_neg hempty
    · rw [HeightCache.Has, hget, dataInt_length]
      decide

theorem storedParent_put (hparent : StoredParent blocks row) {new : BlockRow} (hlength : new.hash.length = 32)
    (hbelow : row.height < new.height) : StoredParent (blocks.put new) row := by
  refine ⟨withHash_put hparent.found hbelow, fun other hother => ?_⟩
  rcases mem_put.1 hother with rfl | ⟨hold, -⟩
  · exact hlength
  · exact hparent.hashes other hold

theorem lt_succ_height {height : Int32} (hpos : 0 < height) (hmax : height ≠ Int32.maxValue) : height < height + 1 := by
  have hnonneg : ¬ height < 0 := by
    rw [Int32.lt_iff_toInt_lt] at hpos ⊢
    omega
  rw [Int32.lt_iff_toInt_lt, succ_toInt hnonneg hmax]
  omega

/-- One header on the parent: it is adopted, and reported. -/
theorem addBlock_known (hparent : StoredParent self.blocks row) (hknown : HeightKnown search self row) {block : MerkleBlock}
    (hvalid : MerkleBlockValid block = true) (hextends : blockPrevHash block = some row.hash) :
    ∃ stored next, databaseAddBlock search c network self block = some (stored, next) ∧ StoredParent next.blocks row ∧
      HeightKnown search next row ∧
      next.blocks.hashAt (row.height + 1) = adopt leNat (self.blocks.hashAt (row.height + 1)) (Sync.blockHash c block).toBytes ∧
      (stored = true ↔ next.blocks.hashAt (row.height + 1) ≠ self.blocks.hashAt (row.height + 1)) := by
  obtain ⟨found, hfound, hblocks, hknown', hhas⟩ := @heightOf_known search network self row hparent hknown
  have hlength := @hash_length c block hvalid
  have hnonneg : ¬ row.height < 0 := by
    have hpos := row.height_pos
    rw [Int32.lt_iff_toInt_lt] at hpos ⊢
    omega
  have hadmits := admits_iff hparent.hashes hlength (row.height + 1)
  cases hadd : databaseAddBlock search c network self block with
  | none =>
    obtain ⟨-, hmax⟩ := overflow_of_none hadd
    rw [hextends, hfound] at hmax
    exact absurd hmax hknown.1
  | some result =>
    obtain ⟨stored, next⟩ := result
    refine ⟨stored, next, rfl, ?_⟩
    rcases addBlock_cases hadd with ⟨hinvalid, -, -⟩ | ⟨-, prevHeight, found', hfound', hcases⟩
    · rw [hvalid] at hinvalid
      cases hinvalid
    rw [hextends, hfound] at hfound'
    cases hfound'
    rw [hblocks] at hcases
    rcases hcases with ⟨hneg, -, -⟩ | ⟨-, -, ⟨hrefused, rfl, rfl⟩ | ⟨hadmitted, rfl, new, hheight, hhash, -, rfl⟩⟩
    · exact absurd hneg hnonneg
    · -- what is stored is at least as small
      refine ⟨by rw [hblocks]; exact hparent, hknown', ?_⟩
      rw [hblocks]
      refine ⟨?_, by simp⟩
      have hnot : ¬ ∀ old, self.blocks.hashAt (row.height + 1) = some old → leNat (Sync.blockHash c block).toBytes < leNat old := by
        rw [← hadmits, hrefused]
        exact Bool.false_ne_true
      cases hold : self.blocks.hashAt (row.height + 1) with
      | none => exact absurd (fun old h => by rw [hold] at h; cases h) hnot
      | some old =>
        rw [adopt, if_neg]
        intro hlt
        refine hnot fun old' h => ?_
        rw [hold] at h
        exact Option.some.inj h ▸ hlt
    · -- nothing is stored, or a greater hash
      have hsmaller := hadmits.1 hadmitted
      refine ⟨storedParent_put hparent (by rw [hhash]; exact hlength) (by rw [hheight]; exact lt_succ_height row.height_pos hknown.1),
        ⟨hknown.1, cachedHeight_remember hknown'.2 hhas _ _ _⟩, ?_⟩
      rw [hashAt_put, if_pos hheight.symm, hhash]
      cases hold : self.blocks.hashAt (row.height + 1) with
      | none => simp [adopt]
      | some old =>
        have hlt := hsmaller old hold
        refine ⟨by rw [adopt, if_pos hlt], iff_of_true rfl fun heq => ?_⟩
        rw [Option.some.inj heq] at hlt
        exact Nat.lt_irrefl _ hlt

/-- A run of headers on the parent. -/
theorem run_known (hparent : StoredParent self.blocks row) (hknown : HeightKnown search self row)
    (hextend : ∀ block ∈ headers, MerkleBlockValid block = true ∧ blockPrevHash block = some row.hash) :
    Along (addStep search c network) (Reports search c network (row.height + 1)) self headers ∧
      ∃ next, after (addStep search c network) self headers = some next ∧ next.blocks.hashAt (row.height + 1) =
        (headers.map fun block => (Sync.blockHash c block).toBytes).foldl (adopt leNat) (self.blocks.hashAt (row.height + 1)) := by
  induction headers generalizing self with
  | nil => exact ⟨trivial, self, rfl, rfl⟩
  | cons block headers ih =>
    obtain ⟨hvalid, hparenthash⟩ := hextend block List.mem_cons_self
    obtain ⟨stored, db, hadd, hparent', hknown', hadopted, hreported⟩ := @addBlock_known search c network self row hparent hknown block hvalid hparenthash
    have hstep : addStep search c network self block = some db := by rw [addStep, hadd, Option.map_some]
    obtain ⟨halong, next, hnext, hleast⟩ := ih hparent' hknown' fun b hb => hextend b (List.mem_cons_of_mem _ hb)
    refine ⟨⟨fun stored' next' h => ?_, fun next' h => ?_⟩, next, by rw [after_cons hstep, hnext], by rw [hleast, hadopted]; rfl⟩
    · rw [hadd] at h
      cases h
      exact hreported
    · rw [hstep] at h
      cases h
      exact halong

/-! ## It is another one -/

/-- With another height in the cache a header is stored elsewhere, or nothing changes. -/
theorem addBlock_elsewhere (hlength : row.hash.length = 32) (hpos : 0 < self.cachedHeight search (some row.hash))
    (hmax : self.cachedHeight search (some row.hash) ≠ Int32.maxValue) (hother : self.cachedHeight search (some row.hash) ≠ row.height)
    {block : MerkleBlock} (hvalid : MerkleBlockValid block = true) (hextends : blockPrevHash block = some row.hash) :
    ∃ next, databaseAddBlock search c network self block =
        some (self.blocks.admits (self.cachedHeight search (some row.hash) + 1) (Sync.blockHash c block).toBytes, next) ∧
      next.blocks.hashAt (row.height + 1) = self.blocks.hashAt (row.height + 1) ∧
      (self.blocks.admits (self.cachedHeight search (some row.hash) + 1) (Sync.blockHash c block).toBytes = false → next = self) := by
  have hfound : databaseHeightOf search network self (some row.hash) = (self.cachedHeight search (some row.hash), self) := by
    rw [databaseHeightOf, if_neg (not_not.2 (show Data.length (some row.hash) = 32 from hlength))]
    exact if_pos hpos
  have hnonneg : ¬ self.cachedHeight search (some row.hash) < 0 := by
    rw [Int32.lt_iff_toInt_lt] at hpos ⊢
    omega
  cases hadd : databaseAddBlock search c network self block with
  | none =>
    obtain ⟨-, hmax'⟩ := overflow_of_none hadd
    rw [hextends, hfound] at hmax'
    exact absurd hmax' hmax
  | some result =>
    obtain ⟨stored, next⟩ := result
    rcases addBlock_cases hadd with ⟨hinvalid, -, -⟩ | ⟨-, prevHeight, found', hfound', hcases⟩
    · rw [hvalid] at hinvalid
      cases hinvalid
    rw [hextends, hfound] at hfound'
    cases hfound'
    rcases hcases with ⟨hneg, -, -⟩ | ⟨-, -, ⟨hrefused, rfl, rfl⟩ | ⟨hadmitted, rfl, new, hheight, -, -, rfl⟩⟩
    · exact absurd hneg hnonneg
    · rw [hrefused]
      exact ⟨next, rfl, rfl, fun _ => rfl⟩
    · rw [hadmitted]
      refine ⟨_, rfl, ?_, fun h => by cases h⟩
      rw [hashAt_put, hheight, if_neg]
      intro heq
      exact hother ((Int32.add_left_inj 1).1 heq).symm

theorem run_elsewhere (hparent : StoredParent self.blocks row) (hpos : 0 < self.cachedHeight search (some row.hash))
    (hmax : self.cachedHeight search (some row.hash) ≠ Int32.maxValue) (hother : self.cachedHeight search (some row.hash) ≠ row.height)
    (hextend : ∀ block ∈ headers, MerkleBlockValid block = true ∧ blockPrevHash block = some row.hash) :
    Along (addStep search c network) (Reports search c network (row.height + 1)) self headers ↔
      ∀ block ∈ headers, self.blocks.admits (self.cachedHeight search (some row.hash) + 1) (Sync.blockHash c block).toBytes = false := by
  induction headers with
  | nil => exact iff_of_true trivial fun block hblock => by cases hblock
  | cons block headers ih =>
    obtain ⟨hvalid, hparenthash⟩ := hextend block List.mem_cons_self
    obtain ⟨next, hadd, hsame, hstays⟩ := @addBlock_elsewhere search c network self row
      (hparent.hashes row (withHash_some hparent.found).1) hpos hmax hother block hvalid hparenthash
    have hrest := ih fun b hb => hextend b (List.mem_cons_of_mem _ hb)
    rw [List.forall_mem_cons, ← hrest]
    constructor
    · rintro ⟨hreport, hnext⟩
      have hrefused : self.blocks.admits (self.cachedHeight search (some row.hash) + 1) (Sync.blockHash c block).toBytes = false := by
        rw [← Bool.not_eq_true, hreport _ next hadd, not_not]
        exact hsame
      refine ⟨hrefused, hnext self ?_⟩
      rw [addStep, hadd, hstays hrefused, Option.map_some]
    · rintro ⟨hrefused, hnext⟩
      obtain rfl := hstays hrefused
      refine ⟨fun stored next h => ?_, fun next h => ?_⟩
      · rw [hadd, hrefused] at h
        cases h
        exact ⟨fun h => (Bool.false_ne_true h).elim, fun h => absurd rfl h⟩
      · rw [addStep, hadd, Option.map_some] at h
        cases h
        exact hnext

theorem after_elsewhere (hparent : StoredParent self.blocks row) (hpos : 0 < self.cachedHeight search (some row.hash))
    (hmax : self.cachedHeight search (some row.hash) ≠ Int32.maxValue) (hother : self.cachedHeight search (some row.hash) ≠ row.height)
    (hextend : ∀ block ∈ headers, MerkleBlockValid block = true ∧ blockPrevHash block = some row.hash)
    (hrefused : ∀ block ∈ headers,
      self.blocks.admits (self.cachedHeight search (some row.hash) + 1) (Sync.blockHash c block).toBytes = false) :
    after (addStep search c network) self headers = some self := by
  induction headers with
  | nil => rfl
  | cons block headers ih =>
    obtain ⟨hvalid, hparenthash⟩ := hextend block List.mem_cons_self
    obtain ⟨next, hadd, -, hstays⟩ := @addBlock_elsewhere search c network self row
      (hparent.hashes row (withHash_some hparent.found).1) hpos hmax hother block hvalid hparenthash
    obtain rfl := hstays (hrefused block List.mem_cons_self)
    rw [after_cons (by rw [addStep, hadd, Option.map_some])]
    exact ih (fun b hb => hextend b (List.mem_cons_of_mem _ hb)) fun b hb => hrefused b (List.mem_cons_of_mem _ hb)

/-- A refused header is not smaller than what is stored. -/
theorem refused_iff (hparent : StoredParent blocks row) {block : MerkleBlock} (hvalid : MerkleBlockValid block = true) {height : Int32} :
    blocks.admits height (Sync.blockHash c block).toBytes = false ↔
      ∃ old, blocks.hashAt height = some old ∧ leNat old ≤ leNat (Sync.blockHash c block).toBytes := by
  rw [← Bool.not_eq_true, admits_iff hparent.hashes (hash_length hvalid)]
  simp only [not_forall, not_lt, exists_prop]

/-! ## Resolved or not -/

/-- Without a height above the parent's nothing is stored. -/
theorem heightFor_ne_max (hparent : StoredParent self.blocks row) {block : MerkleBlock} {rest : List MerkleBlock}
    (hextends : blockPrevHash block = some row.hash) (hvalid : MerkleBlockValid block = true)
    (h : after (addStep search c network) self (block :: rest) = some next) :
    0 < self.cachedHeight search (some row.hash) ∧ self.cachedHeight search (some row.hash) ≠ Int32.maxValue ∨
      ¬ 0 < self.cachedHeight search (some row.hash) ∧ row.height ≠ Int32.maxValue := by
  obtain ⟨db, hdb, -⟩ := Option.bind_eq_some_iff.1 h
  obtain ⟨⟨stored, db⟩, hadd, rfl⟩ := Option.map_eq_some_iff.1 hdb
  have hlength : Data.length (some row.hash) = 32 := hparent.hashes row (withHash_some hparent.found).1
  have hheight : self.heightFor search network (some row.hash) ≠ Int32.maxValue := by
    rw [← heightOf_eq hlength]
    rcases addBlock_cases hadd with ⟨hinvalid, -, -⟩ | ⟨-, prevHeight, found, hfound, hcases⟩
    · rw [hvalid] at hinvalid
      cases hinvalid
    rw [hextends] at hfound
    rw [hfound]
    rcases hcases with ⟨hneg, -, -⟩ | ⟨-, hmax, -⟩
    · intro heq
      change prevHeight = Int32.maxValue at heq
      rw [heq] at hneg
      exact absurd hneg (by decide)
    · exact hmax
  rw [BlockDatabase.heightFor] at hheight
  split at hheight
  · rename_i hpos
    exact Or.inl ⟨hpos, hheight⟩
  · rename_i hpos
    rw [tableHeightOf_eq, toBytes_some, hparent.found] at hheight
    exact Or.inr ⟨hpos, hheight⟩

/-- Headers on one stored parent resolve exactly if the height of the parent is known, or all
    of them are refused wherever they may go. -/
theorem competing_iff (hparent : StoredParent self.blocks row) (hne : headers ≠ [])
    (hextend : ∀ block ∈ headers, MerkleBlockValid block = true ∧ blockPrevHash block = some row.hash) :
    Resolves search c network self (row.height + 1) headers ↔
      HeightKnown search self row ∨ AllRefused search c self row headers := by
  by_cases hknown : HeightKnown search self row
  · refine iff_of_true ?_ (Or.inl hknown)
    obtain ⟨halong, next, hnext, hfold⟩ := @run_known search c network self row headers hparent hknown hextend
    obtain ⟨hash, hhash⟩ := Option.isSome_iff_exists.1
      (@adopt_isSome _ leNat (self.blocks.hashAt (row.height + 1)) (headers.map fun block => (Sync.blockHash c block).toBytes) (by simpa using hne))
    exact ⟨halong, next, hnext, hash, hfold.trans hhash, adopt_least hhash⟩
  rw [or_iff_right hknown]
  obtain ⟨first, rest, rfl⟩ := List.exists_cons_of_ne_nil hne
  obtain ⟨hvalid, hparenthash⟩ := hextend first List.mem_cons_self
  constructor
  · rintro ⟨halong, next, hnext, hash, hget, -, hleast⟩
    obtain ⟨hpos, hmax⟩ | ⟨hzero, hmax⟩ := heightFor_ne_max hparent hparenthash hvalid hnext
    swap
    · exact absurd ⟨hmax, fun hpos => absurd hpos hzero⟩ hknown
    have hother : self.cachedHeight search (some row.hash) ≠ row.height := fun heq => hknown ⟨by rw [← heq]; exact hmax, fun _ => heq⟩
    have hrefused := (run_elsewhere hparent hpos hmax hother hextend).1 halong
    rw [after_elsewhere hparent hpos hmax hother hextend hrefused] at hnext
    cases hnext
    refine ⟨hpos, hmax, fun block hblock => ⟨hrefused block hblock, (refused_iff hparent (hextend block hblock).1).2 ?_⟩⟩
    exact ⟨hash, hget, hleast _ (Or.inl (List.mem_map_of_mem hblock))⟩
  · rintro ⟨hpos, hmax, hrefused⟩
    have hother : self.cachedHeight search (some row.hash) ≠ row.height := fun heq => hknown ⟨by rw [← heq]; exact hmax, fun _ => heq⟩
    refine ⟨(run_elsewhere hparent hpos hmax hother hextend).2 fun block hblock => (hrefused block hblock).1, self,
      after_elsewhere hparent hpos hmax hother hextend fun block hblock => (hrefused block hblock).1, ?_⟩
    have hstored := fun block hblock => (refused_iff hparent (hextend block hblock).1).1 (hrefused block hblock).2
    obtain ⟨hash, hget, -⟩ := hstored first List.mem_cons_self
    refine ⟨hash, hget, Or.inr hget, fun other hmem => ?_⟩
    rcases hmem with hmem | hold
    · obtain ⟨block, hblock, rfl⟩ := List.mem_map.1 hmem
      obtain ⟨old, hold, hle⟩ := hstored block hblock
      rw [hget] at hold
      cases hold
      exact hle
    · rw [hget] at hold
      cases hold
      exact Nat.le_refl _

/-- The starting block of `network2015`. -/
theorem competing_resolved_two :
    Resolves .halving plainCrypto network2015 ⟨network2015.initialBlocks, .empty⟩ 2016
      [headerOn (some hash2015) 1, headerOn (some hash2015) 0, headerOn (some hash2015) 1] := by
  have hparent : StoredParent network2015.initialBlocks row2015 := by
    refine ⟨rfl, fun other hother => ?_⟩
    rw [List.mem_singleton.1 hother]
    rfl
  have hextend : ∀ block ∈ [headerOn (some hash2015) 1, headerOn (some hash2015) 0, headerOn (some hash2015) 1],
      MerkleBlockValid block = true ∧ blockPrevHash block = some row2015.hash := by
    simp only [List.forall_mem_cons, List.not_mem_nil, false_implies, implies_true, and_true]
    decide +kernel
  refine (competing_iff hparent (by simp) hextend).2 (Or.inl ⟨by decide, fun hpos => absurd hpos ?_⟩)
  decide +kernel

/-- A header on the first block; its hash begins with the four bytes of `hash2015`. -/
def collidingHeader : MerkleBlock where
  data := some (List.replicate 4 0 ++ blockZero.toBytes ++ List.replicate 12 0 ++
    [0x0d, 0x92, 0x46, 0xa3, 0x49, 0x88, 0x36, 0x65, 0xaf, 0x99, 0xb8, 0x70, 0x84, 0x09, 0x0b, 0xc3,
      0xaa, 0x82, 0x05, 0x84, 0x48, 0xf5, 0x7a, 0x2d, 0xf1, 0x9a, 0x7d, 0x74, 0xed, 0x91, 0xdd, 0x53])
  length_lt := by decide

/-- Block 2015 has the height 1 of the header in the cache, and what extends it is stored at
    height 2. -/
theorem not_competing_resolved :
    ∃ reached, after (addStep .halving plainCrypto network2015) ⟨network2015.initialBlocks, .empty⟩ [collidingHeader] = some reached ∧
      (reached.blocks.withHash hash2015).map (·.height) = some 2015 ∧
      ¬ Resolves .halving plainCrypto network2015 reached 2016 [headerOn (some hash2015) 0] := by
  have hrun : (after (addStep .halving plainCrypto network2015) ⟨network2015.initialBlocks, .empty⟩ [collidingHeader]).map
      (fun reached => ((reached.blocks.withHash hash2015).map (·.height),
        (after (addStep .halving plainCrypto network2015) reached [headerOn (some hash2015) 0]).map fun next => next.blocks.hashAt 2016)) =
      some (some 2015, some none) := by decide +kernel
  obtain ⟨reached, hreached, hvalues⟩ := Option.map_eq_some_iff.1 hrun
  obtain ⟨hheight, hnone⟩ := Prod.mk.inj hvalues
  refine ⟨reached, hreached, hheight, ?_⟩
  rintro ⟨-, next, hnext, hash, hget, -⟩
  rw [hnext, Option.map_some, hget] at hnone
  cases hnone

end BitcoinSpoon.Database
