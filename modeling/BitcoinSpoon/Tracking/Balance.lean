/-
  BitcoinSpoon.Tracking.Balance — which calls leave the track stack as it was
  (`blockHeadersWork`, `code/NodeManager.c`; the others are in `Tracking.Wallets` and
  `Tracking.Packets`).

  A call is balanced if it ends at the depth it began at, whatever that is. `hdWallet` and
  `childKeyDerivation` always are; `publicHdWallet` is for a wallet that is not public yet,
  `processInputBuffer` for whole packets, `blockHeadersWork` for headers of at least 80 bytes
  (`balanced_iff`).
-/

import BitcoinSpoon.Database.Blocks
import BitcoinSpoon.Mnemonic.Restore
import BitcoinSpoon.Tracking.Packets

namespace BitcoinSpoon.Tracking

open Wire Loop Connection Database

/-- What `blockHeadersWork` hands to the main thread. -/
structure HeadersWork where
  hash : Data
  addCount : Nat
  rejectCount : Nat

section

variable (c : Crypto)

def blockHash (block : Data) : Scoped Data :=
  if block.length < 80 then pure none else hash256 c (some (block.toBytes.take 80))

variable (search : BinarySearch) (network : Network)

/-- The loop over the headers; `none` where it returns. The hashes of `DatabaseAddBlock` pop
    what they push (`hash256_shifts`). -/
def addHeaders : List MerkleBlock → Nat → Nat → BlockDatabase → Scoped (Option (Nat × Nat) × BlockDatabase)
  | [], addCount, rejectCount, database => pure (some (addCount, rejectCount), database)
  | block :: headers, addCount, rejectCount, database => do
    push
    if block.data.length < 80 then pure (none, database)
    else
      let (stored, database) ← unscoped (databaseAddBlock search c network database block)
      pop
      if stored then addHeaders headers (addCount + 1) rejectCount database
      else addHeaders headers addCount (rejectCount + 1) database

/-- A header is a `Data`, and `MerkleBlockNew` makes a block of it. -/
def blockHeadersWork (headers : List MerkleBlock) (database : BlockDatabase) : Scoped (Option HeadersWork × BlockDatabase) := do
  let hash ← blockHash c ((headers.getLast?.map MerkleBlock.data).getD none)
  let (counts, database) ← addHeaders c search network headers 0 0 database
  pure (counts.map fun (addCount, rejectCount) => ⟨hash, addCount, rejectCount⟩, database)

/-- Each header has 80 bytes. The last clause is about heights: from 2³¹ - 1 on they are not
    defined. -/
def WholeHeaders : List MerkleBlock → BlockDatabase → Prop
  | [], _ => True
  | block :: headers, database =>
    80 ≤ block.data.length ∧
      ∀ stored next, databaseAddBlock search c network database block = some (stored, next) → WholeHeaders headers next

end

variable {c : Crypto} {search : BinarySearch} {network : Network}

theorem blockHash_shifts (block : Data) : ∃ hash, Shifts (blockHash c block) (some hash) 0 0 := by
  unfold blockHash
  split
  · exact ⟨_, shifts_pure _⟩
  · exact ⟨_, hash256_shifts c _⟩

theorem addHeaders_spec (c : Crypto) (search : BinarySearch) (network : Network) (headers : List MerkleBlock)
    (addCount rejectCount : Nat) (database : BlockDatabase) :
    (WholeHeaders c search network headers database → Balanced (addHeaders c search network headers addCount rejectCount database)) ∧
      (¬WholeHeaders c search network headers database →
        ∃ result, Shifts (addHeaders c search network headers addCount rejectCount database) (some result) 0 1) := by
  induction headers generalizing addCount rejectCount database with
  | nil => exact ⟨fun _ => ⟨_, shifts_pure _⟩, fun h => (h trivial).elim⟩
  | cons block headers ih =>
    rw [addHeaders, WholeHeaders]
    by_cases hshort : block.data.length < 80
    · refine ⟨fun h => absurd h.1 (Nat.not_le.2 hshort), fun _ => ⟨(none, database), shifts_push.bind ?_⟩⟩
      rw [if_pos hshort]
      exact shifts_pure _
    cases hadd : databaseAddBlock search c network database block with
    | none =>
      refine ⟨fun _ => ⟨none, shifts_push.bind ?_⟩, fun h => (h ⟨Nat.not_lt.1 hshort, nofun⟩).elim⟩
      rw [if_neg hshort]
      exact (shifts_unscoped none).bind_some (fun _ => rfl) nofun
    | some result =>
      obtain ⟨stored, next⟩ := result
      obtain ⟨addCount', rejectCount', hnext⟩ : ∃ addCount' rejectCount',
          (if stored then addHeaders c search network headers (addCount + 1) rejectCount next
            else addHeaders c search network headers addCount (rejectCount + 1) next) =
            addHeaders c search network headers addCount' rejectCount' next := by
        cases stored <;> exact ⟨_, _, rfl⟩
      obtain ⟨hwhole, hshort'⟩ := ih addCount' rejectCount' next
      have hround {result : Option (Option (Nat × Nat) × BlockDatabase)} {left : Nat}
          (h : Shifts (addHeaders c search network headers addCount' rejectCount' next) result 0 left) :
          Shifts (unscoped (some (stored, next)) >>= fun result => do
            pop
            if result.1 then addHeaders c search network headers (addCount + 1) rejectCount result.2
            else addHeaders c search network headers addCount (rejectCount + 1) result.2) result 1 left :=
        (shifts_unscoped _).bind (shifts_pop.bind (hnext ▸ h))
      rw [if_neg hshort]
      constructor
      · rintro ⟨-, h⟩
        obtain ⟨value, hvalue⟩ := hwhole (h stored next rfl)
        exact ⟨value, shifts_push.bind (hround hvalue)⟩
      · intro h
        obtain ⟨value, hvalue⟩ := hshort' fun hnext' => h ⟨Nat.not_lt.1 hshort, fun stored' next' heq => by cases heq; exact hnext'⟩
        exact ⟨value, shifts_push.bind (hround hvalue)⟩

theorem blockHeadersWork_iff (headers : List MerkleBlock) (database : BlockDatabase) :
    Balanced (blockHeadersWork c search network headers database) ↔ WholeHeaders c search network headers database := by
  obtain ⟨hash, hhash⟩ := blockHash_shifts (c := c) ((headers.getLast?.map MerkleBlock.data).getD none)
  obtain ⟨hwhole, hshort⟩ := addHeaders_spec c search network headers 0 0 database
  by_cases h : WholeHeaders c search network headers database
  · obtain ⟨value, hvalue⟩ := hwhole h
    refine iff_of_true ⟨value.map fun result => (result.1.map fun counts => ⟨hash, counts.1, counts.2⟩, result.2), hhash.bind ?_⟩ h
    refine hvalue.bind_some (fun hnone => by rw [hnone]; rfl) fun result hresult => ?_
    rw [hresult]
    exact shifts_pure _
  · obtain ⟨result, hresult⟩ := hshort h
    refine iff_of_false (fun hbalanced => ?_) h
    have hrun : Shifts (blockHeadersWork c search network headers database)
        (some (result.1.map fun counts => ⟨hash, counts.1, counts.2⟩, result.2)) 0 1 :=
      hhash.bind (hresult.bind (shifts_pure _))
    exact absurd (hrun.balanced_iff.1 hbalanced) Nat.one_ne_zero

/-! ## The calls -/

inductive TrackedCall where
  | processInputBuffer (env : Environment) (node : Connection.Node)
  | publicHdWallet (wallet : Data)
  | childKeyDerivation (wallet : Data) (index : Nat)
  | hdWallet (wallet : Data) (path : Bytes)
  | blockHeadersWork (headers : List MerkleBlock) (database : BlockDatabase)

variable (c : HdCrypto) (search : BinarySearch) (network : Network)

/-- The call ends at the depth it began at. -/
def TrackedCall.Balances : TrackedCall → Prop
  | .processInputBuffer env node => Balanced (Tracking.processInputBuffer c.toCrypto env node)
  | .publicHdWallet wallet => Balanced (Tracking.publicHdWallet c wallet)
  | .childKeyDerivation wallet index => Balanced (Tracking.childKeyDerivation c wallet index)
  | .hdWallet wallet path => Balanced (Tracking.hdWallet c wallet path)
  | .blockHeadersWork headers database => Balanced (Tracking.blockHeadersWork c.toCrypto search network headers database)

/-- The call has nothing to skip, to drop or to return early. -/
def TrackedCall.IsWhole : TrackedCall → Prop
  | .processInputBuffer env node => WholePackets c.toCrypto env PACKETS_PER_PROCESS node node.inputBuffer.toBytes
  | .publicHdWallet wallet => ¬IsPublicWallet wallet
  | .childKeyDerivation _ _ => True
  | .hdWallet _ _ => True
  | .blockHeadersWork headers database => WholeHeaders c.toCrypto search network headers database

/-- The calls that leave the track stack as it was. -/
theorem balances_iff (call : TrackedCall) : call.Balances c search network ↔ call.IsWhole c search network := by
  cases call with
  | processInputBuffer env node =>
    obtain ⟨left, hrun, hiff⟩ := processInputBuffer_shifts (c := c.toCrypto) env node
    exact hrun.balanced_iff.trans hiff
  | publicHdWallet wallet =>
    have hrun := publicHdWallet_shifts c wallet
    by_cases hpublic : IsPublicWallet wallet
    · rw [if_pos hpublic, publicHdWallet_public c hpublic] at hrun
      exact iff_of_false (fun h => absurd (hrun.balanced_iff.1 h) Nat.one_ne_zero) (not_not.2 hpublic)
    · rw [if_neg hpublic] at hrun
      exact iff_of_true ⟨_, hrun⟩ hpublic
  | childKeyDerivation wallet index => exact iff_of_true ⟨_, childKeyDerivation_shifts c wallet index⟩ trivial
  | hdWallet wallet path => exact iff_of_true ⟨_, hdWallet_shifts c wallet path⟩ trivial
  | blockHeadersWork headers database => exact blockHeadersWork_iff headers database

/-- A wallet that is public: the version of a public wallet and 78 zeros. -/
theorem not_balances :
    ¬ ∀ (c : HdCrypto) (search : BinarySearch) (network : Network) (call : TrackedCall), call.Balances c search network := by
  intro h
  obtain ⟨value, hvalue⟩ := h zerosCrypto .halving network2015
    (.publicHdWallet (some ([0x04, 0x88, 0xb2, 0x1e] ++ List.replicate 78 0)))
  have hrun : publicHdWallet zerosCrypto (some ([0x04, 0x88, 0xb2, 0x1e] ++ List.replicate 78 0)) 0 =
      some (some ([0x04, 0x88, 0xb2, 0x1e] ++ List.replicate 78 0), 1) := rfl
  have heq := hrun.symm.trans (hvalue 0)
  cases value <;> cases heq

end BitcoinSpoon.Tracking
