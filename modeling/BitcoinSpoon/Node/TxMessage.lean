/-
  BitcoinSpoon.Node.TxMessage — the handler of a peer's `tx` message (`tx`,
  `code/NodeManager.c`).

  The payload is parsed, the sends that wait for the transaction are called back and taken
  off the list, and work is queued if the node is the active one. What else the manager
  holds is not looked at, so the handler is stated once, for any entries of
  `sendTxOnResults`, and the models of the manager apply its `TxEffect` to their state.

  Where it does not return, the process ends (`tx_ok_iff`). `TransactionNew` calls `abort()`
  on bytes left over. The loops of the parser append an entry for every count, long after
  the payload has ended; a list that outgrows the `Room` is written through NULL. And
  `DataGetDict` puts every entry that stays on the track stack: the frame's pop releases it,
  and the next handler that comes to it reads released memory.
-/

import BitcoinSpoon.Transaction.Format

namespace BitcoinSpoon

open Wire

/-! ## What the parser may append -/

/-- The size of so many entries, `sizeof(Data)` each, is 0 in the `unsigned int` of
    `DataResize`. -/
def DATAS_LIMIT : Nat := 268435456

/-- What can be had of the allocator and put on the track stack at this moment. -/
structure Room where
  holds : Transaction → Bool
  holds_lt : ∀ trans, holds trans = true →
    trans.inputs.length < DATAS_LIMIT ∧ trans.outputs.length < DATAS_LIMIT ∧
      ∀ input ∈ trans.inputs, input.witnessStack.length < DATAS_LIMIT

/-- Room for all that a list can hold. -/
def Room.whole : Room where
  holds trans :=
    decide (trans.inputs.length < DATAS_LIMIT) && decide (trans.outputs.length < DATAS_LIMIT) &&
      trans.inputs.all fun input => decide (input.witnessStack.length < DATAS_LIMIT)
  holds_lt trans h := by simpa [and_assoc] using h

/-- `TransactionNew` in this room. -/
def transactionNewIn (room : Room) (data : Data) : Option Transaction := (transactionNew data).filter room.holds

/-! ## The handler -/

/-- An entry of `sendTxOnResults`. -/
structure SendTxOnResult where
  txid : Data
  wtxid : Data
  /-- NULL for no callback. -/
  onResult : Option Nat
  ptr : Nat
  deriving DecidableEq, Repr

/-- `sendTxOnResults`, its entries of any kind. `released`: they are back in the heap. -/
structure PendingSends (α : Type) where
  entries : List α
  released : Bool

/-- The node that has received the message. -/
structure Node where
  id : Nat
  /-- `lastMerkleBlock.data`. -/
  lastMerkleBlock : Data
  deriving DecidableEq, Repr

/-- The dictionary handed to `txWorker`. -/
structure TxWork where
  node : Nat
  txData : Data
  blockData : Data
  deriving DecidableEq, Repr

inductive Failure where
  /-- At a call of `abort()`. -/
  | aborts
  | outgrowsRoom
  | usesReleased
  deriving DecidableEq, Repr

structure TxEffect (α : Type) where
  /-- `onResult(NodeManagerErrorNone, ptr)` is called for these, if they have one. -/
  reported : List α
  /-- When the frame of the message is popped. -/
  sends : PendingSends α
  /-- For the thread "TxProcessing". -/
  work : Option TxWork

section

variable (c : Crypto)

/-- The entry waits for `trans`. -/
def isWaitingFor (trans : Transaction) (entry : SendTxOnResult) : Bool :=
  dataEqual entry.txid (transactionTxid c trans) || dataEqual entry.wtxid (transactionWtxid c trans)

variable {α : Type} (toEntry : α → SendTxOnResult) (room : Room)

/-- The loop over `sendTxOnResults`, and what is queued behind it. -/
def txEffect (transaction : Transaction) (node : Node) (activeNode : Option Nat) (entries : List α) (txUnsafe : Data) :
    TxEffect α :=
  let kept := entries.filter fun entry => !isWaitingFor c transaction (toEntry entry)
  { reported := entries.filter fun entry => isWaitingFor c transaction (toEntry entry)
    -- DataGetDict has tracked those that stay
    sends := ⟨kept, !kept.isEmpty⟩
    work :=
      if activeNode = some node.id then some { node := node.id, txData := txUnsafe, blockData := node.lastMerkleBlock }
      else none }

/-- `tx` of the node manager, and the `tx` branch of `received`. -/
def tx (node : Node) (activeNode : Option Nat) (sends : PendingSends α) (txUnsafe : Data) : Except Failure (TxEffect α) :=
  match transactionNew txUnsafe with
  | none => .error .aborts
  | some transaction =>
    if room.holds transaction = false then .error .outgrowsRoom
    else if sends.released && !sends.entries.isEmpty then .error .usesReleased
    else .ok (txEffect c toEntry transaction node activeNode sends.entries txUnsafe)

end

/-! ## Where it returns -/

variable {c : Crypto} {α : Type} {toEntry : α → SendTxOnResult} {room : Room}

theorem transactionNewIn_isSome_iff (data : Data) :
    (transactionNewIn room data).isSome = true ↔
      (¬ ∃ trans p rest, IsWhole trans p ∧ rest ≠ [] ∧ data.toBytes = p ++ rest) ∧
        ∀ trans, transactionNew data = some trans → room.holds trans = true := by
  rw [← transactionNew_eq_none_iff, transactionNewIn]
  cases transactionNew data with
  | none => simp
  | some transaction => simp [Option.filter]

theorem tx_of_none {txUnsafe : Data} (h : transactionNewIn room txUnsafe = none) (node : Node) (activeNode : Option Nat)
    (sends : PendingSends α) : ∃ failure, tx c toEntry room node activeNode sends txUnsafe = .error failure := by
  unfold tx
  cases hnew : transactionNew txUnsafe with
  | none => exact ⟨.aborts, rfl⟩
  | some transaction =>
    have hholds : room.holds transaction = false := by simpa [transactionNewIn, hnew, Option.filter] using h
    exact ⟨.outgrowsRoom, if_pos hholds⟩

theorem tx_of_some {txUnsafe : Data} {transaction : Transaction} (h : transactionNewIn room txUnsafe = some transaction)
    (node : Node) (activeNode : Option Nat) (sends : PendingSends α) :
    tx c toEntry room node activeNode sends txUnsafe =
      if sends.released && !sends.entries.isEmpty then .error .usesReleased
      else .ok (txEffect c toEntry transaction node activeNode sends.entries txUnsafe) := by
  obtain ⟨hnew, hholds⟩ := Option.filter_eq_some_iff.1 h
  unfold tx
  rw [hnew]
  dsimp only
  rw [if_neg (by simp [hholds])]

/-- The handler returns exactly if the payload parses in the room there is and no entry is looked
    at that has been released. -/
theorem tx_ok_iff (node : Node) (activeNode : Option Nat) (sends : PendingSends α) (txUnsafe : Data) :
    (∃ effect, tx c toEntry room node activeNode sends txUnsafe = .ok effect) ↔
      (transactionNewIn room txUnsafe).isSome = true ∧ (sends.released = true → sends.entries = []) := by
  cases hnew : transactionNewIn room txUnsafe with
  | none =>
    obtain ⟨failure, herror⟩ := @tx_of_none c _ toEntry _ _ hnew node activeNode sends
    simp [herror]
  | some transaction =>
    rw [tx_of_some hnew]
    cases hreleased : sends.released with
    | false => simp
    | true =>
      cases hentries : sends.entries with
      | nil => simp
      | cons entry entries => simp

/-- What the handler leaves in the list is released behind it. -/
theorem tx_releases {node : Node} {activeNode : Option Nat} {sends : PendingSends α} {txUnsafe : Data} {effect : TxEffect α}
    (h : tx c toEntry room node activeNode sends txUnsafe = .ok effect) (hleft : effect.sends.entries ≠ []) :
    effect.sends.released = true := by
  obtain ⟨transaction, hnew⟩ := Option.isSome_iff_exists.1 (tx_ok_iff node activeNode sends txUnsafe |>.1 ⟨effect, h⟩).1
  rw [tx_of_some hnew] at h
  split at h
  · cases h
  · cases h
    simpa [txEffect] using hleft

/-! ## Counts -/

/-- A count that no list can hold is not one byte long. -/
theorem isVarInt_cons {n : Nat} {p : Bytes} (h : IsVarInt n p) (hn : DATAS_LIMIT ≤ n) :
    ∃ first bytes, first ≠ 0 ∧ p = first :: bytes := by
  unfold DATAS_LIMIT at hn
  rcases h with ⟨h, rfl⟩ | ⟨h, rfl⟩ | ⟨h, rfl⟩ | ⟨h, rfl⟩
  · omega
  · omega
  · exact ⟨0xfe, _, by decide, rfl⟩
  · exact ⟨0xff, _, by decide, rfl⟩

/-- Without a witness section the inputs are those the count names. -/
theorem readBody_inputs (version : UInt32) (b : Bytes) :
    (readBody version false b).1.inputs = (readCounted readInput b).1 := by
  simp only [readBody, readWitnessSection, bind_run, pure_run, Bool.false_eq_true, if_false]

/-- Behind the version, a count of inputs that no list can hold outgrows every room, whatever
    follows. -/
theorem transactionNewIn_counted (room : Room) (version : UInt32) {n : Nat} {p : Bytes} (h : IsVarInt n p)
    (hn : DATAS_LIMIT ≤ n) (rest : Bytes) :
    transactionNewIn room (some (uint32D version.toNat ++ (p ++ rest))) = none := by
  rw [transactionNewIn, Option.filter_eq_none_iff]
  intro transaction hnew hholds
  have hlength : transaction.inputs.length = n := by
    obtain ⟨first, bytes, hfirst, hp⟩ := isVarInt_cons h hn
    have hmarker : hasWitnessMarker (p ++ rest) = false := by
      rw [hp, List.cons_append]
      cases bytes ++ rest with
      | nil => rfl
      | cons flag bytes => simp [hasWitnessMarker, hfirst]
    have hversion : readTransaction (uint32D version.toNat ++ (p ++ rest)) = readMarkedBody version (p ++ rest) := by
      have hread : Reads uint32readP (uint32D version.toNat) version.toNat := Reads.readLE version.toNat_lt
      rw [readTransaction, bind_run, hread, UInt32.ofNat_toNat]
    rw [transactionNew_eq, Data.toBytes, Option.getD_some, hversion, readMarkedBody_unmarked version hmarker] at hnew
    split at hnew
    · cases hnew
    · rw [← Option.some.inj hnew, readBody_inputs, readCounted, bind_run, grammar_readVarInt.reads h, many_length]
  have hlt := (room.holds_lt transaction hholds).1
  omega

end BitcoinSpoon
