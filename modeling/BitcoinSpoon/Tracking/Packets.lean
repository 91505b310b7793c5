/-
  BitcoinSpoon.Tracking.Packets — the scopes of `processInputBuffer` (`code/Node.c`).

  A round of the loop pushes a scope and pops it behind the callback. What leaves the round
  before that does not: a byte that is skipped, a packet with a wrong checksum, a packet that
  is not complete, the round above `PACKETS_PER_PROCESS`. So the call is balanced only when
  it reads whole packets, no more than the rounds (`processInputBuffer_shifts`). The node is
  that of `Node.Connection`, and what happens to it is the same.
-/

import BitcoinSpoon.Node.Connection
import BitcoinSpoon.Tracking.Wallets

namespace BitcoinSpoon.Tracking

open Wire Loop Connection

variable (c : Crypto)

/-- `DTPopi` -/
def nodeSend (node : Connection.Node) (str : Bytes) (payload : Data) : Scoped Connection.Node := do
  push
  if 12 < str.length then DTPop node
  else
    let hash ← hash256 c (some payload.toBytes)
    if hash.length ≠ 32 then DTPop node else DTPop (processVersionAndOutputBuffer (queuePacket c node str payload.toBytes))

def act (node : Connection.Node) : Action → Scoped Connection.Node
  | .send str payload _ => nodeSend c node str payload
  | .close => pure (nodeClose node)

/-- The callbacks push nothing themselves. -/
def received (env : Environment) (node : Connection.Node) (command payload : Bytes) : Scoped Connection.Node :=
  match reply command payload with
  | some (str, data) => nodeSend c node str data
  | none =>
    if command = verackCommand then pure { node with connectionReady := true }
    else if command ∈ callbackCommands then (env.delegate node command payload).foldlM (act c) node
    else pure node

def processPackets (env : Environment) : Nat → Connection.Node → Bytes → Scoped (Connection.Node × Bytes)
  | 0, node, ptr =>
    if ptr.length < 24 then pure (node, ptr)
    else do
      push
      -- `++count > PACKETS_PER_PROCESS`
      pure (node, ptr)
  | rounds + 1, node, ptr =>
    if ptr.length < 24 then pure (node, ptr)
    else do
      push
      let (node, ptr) := if node.inputBuffer = none then (node.happen .readReleased, env.released ptr) else (node, ptr)
      if ptr.take 4 ≠ magicOf node.testnet then processPackets env rounds node (ptr.drop 1)
      else
        let length := leNat ((ptr.drop 16).take 4)
        if ptr.length < 24 + length then pure (node, ptr)
        else
          let payload := (ptr.drop 24).take length
          let command := cString ((ptr.drop 4).take 12)
          let rest := ptr.drop (24 + length)
          let hash ← hash256 c (some payload)
          if hash.length < 4 ∨ (ptr.drop 20).take 4 ≠ hash.toBytes.take 4 then processPackets env rounds node rest
          else do
            let node ← received c env (node.happen (.delivered command payload)) command payload
            pop
            processPackets env rounds node rest

def processInputBuffer (env : Environment) (node : Connection.Node) : Scoped Connection.Node := do
  push
  let (node', rest) ← processPackets c env PACKETS_PER_PROCESS node node.inputBuffer.toBytes
  let usedBytes := node.inputBuffer.length - rest.length
  DTPop { node' with inputBuffer := node'.inputBuffer.map (List.drop usedBytes) }

/-! ## The scopes that are left -/

/-- A packet with the right magic and checksum is before `rest`. -/
def WholePacket (testnet : Bool) (ptr : Bytes) : Bool :=
  let length := leNat ((ptr.drop 16).take 4)
  ptr.take 4 = magicOf testnet && 24 + length ≤ ptr.length && (ptr.drop 20).take 4 = checksum c ((ptr.drop 24).take length)

/-- What the loop reads is no more packets than rounds, and less than a header behind them. -/
def WholePackets (env : Environment) : Nat → Connection.Node → Bytes → Prop
  | 0, _, ptr => ptr.length < 24
  | rounds + 1, node, ptr =>
    ptr.length < 24 ∨
      let (node, ptr) := if node.inputBuffer = none then (node.happen .readReleased, env.released ptr) else (node, ptr)
      let length := leNat ((ptr.drop 16).take 4)
      let command := cString ((ptr.drop 4).take 12)
      let payload := (ptr.drop 24).take length
      WholePacket c node.testnet ptr = true ∧
        WholePackets env rounds (Connection.received c env (node.happen (.delivered command payload)) command payload)
          (ptr.drop (24 + length))

variable {c}

theorem hash256_length (payload : Bytes) : (BitcoinSpoon.hash256 c (some payload)).length = 32 := c.sha256_length _

theorem nodeSend_shifts (node : Connection.Node) (str : Bytes) (payload : Data) :
    Shifts (nodeSend c node str payload) (some (Connection.nodeSend c node str payload)) 0 0 := by
  refine shifts_push.bind ?_
  rw [Connection.nodeSend]
  by_cases hlong : 12 < str.length
  · simpa only [if_pos hlong] using dtPop_shifts _
  simp only [if_neg hlong]
  refine (hash256_shifts c _).above.bind ?_
  rw [if_neg (by rw [hash256_length]; decide)]
  exact dtPop_shifts _

theorem act_shifts (node : Connection.Node) (action : Action) : Shifts (act c node action) (some (Connection.act c node action)) 0 0 := by
  cases action with
  | send str payload sized => exact nodeSend_shifts node str payload
  | close => exact shifts_pure _

theorem actions_shifts (actions : List Action) (node : Connection.Node) :
    Shifts (actions.foldlM (act c) node) (some (actions.foldl (Connection.act c) node)) 0 0 := by
  induction actions generalizing node with
  | nil => exact shifts_pure node
  | cons action actions ih =>
    rw [List.foldlM_cons]
    exact (act_shifts node action).bind (ih _)

theorem received_shifts (env : Environment) (node : Connection.Node) (command payload : Bytes) :
    Shifts (received c env node command payload) (some (Connection.received c env node command payload)) 0 0 := by
  rw [received, Connection.received]
  cases reply command payload with
  | some answer => exact nodeSend_shifts node _ _
  | none =>
    dsimp only
    by_cases hverack : command = verackCommand
    · simpa only [if_pos hverack] using shifts_pure _
    by_cases hcallback : command ∈ callbackCommands
    · simpa only [if_neg hverack, if_pos hcallback] using actions_shifts _ node
    · simpa only [if_neg hverack, if_neg hcallback] using shifts_pure _

/-- The loop leaves a scope for every round that is not a whole packet. -/
theorem processPackets_shifts (env : Environment) (rounds : Nat) (node : Connection.Node) (ptr : Bytes) :
    ∃ left, Shifts (processPackets c env rounds node ptr) (some (Connection.processPackets c env rounds node ptr)) 0 left ∧
      (left = 0 ↔ WholePackets c env rounds node ptr) := by
  induction rounds generalizing node ptr with
  | zero =>
    rw [processPackets, WholePackets]
    by_cases hshort : ptr.length < 24
    · refine ⟨0, ?_, by simp [hshort]⟩
      rw [if_pos hshort]
      exact shifts_pure _
    · refine ⟨1, ?_, by simp [hshort]⟩
      rw [if_neg hshort]
      exact shifts_push.bind (shifts_pure _)
  | succ rounds ih =>
    rw [processPackets, Connection.processPackets, WholePackets]
    by_cases hshort : ptr.length < 24
    · refine ⟨0, ?_, by simp [hshort]⟩
      rw [if_pos hshort, if_pos hshort]
      exact shifts_pure _
    simp only [if_neg hshort]
    generalize (if node.inputBuffer = none then (node.happen .readReleased, env.released ptr) else (node, ptr)) = read
    obtain ⟨node', ptr'⟩ := read
    dsimp only
    by_cases hmagic : ptr'.take 4 ≠ magicOf node'.testnet
    · -- a byte is skipped
      obtain ⟨left, hrun, -⟩ := ih node' (ptr'.drop 1)
      refine ⟨1 + left, shifts_push.bind ?_, iff_of_false (by omega) (by simp [hshort, WholePacket, hmagic])⟩
      simpa only [if_pos hmagic] using hrun.above
    by_cases hpart : ptr'.length < 24 + leNat ((ptr'.drop 16).take 4)
    · refine ⟨1, shifts_push.bind ?_, iff_of_false Nat.one_ne_zero (by simp [hshort, WholePacket, Nat.not_le.2 hpart])⟩
      simpa only [if_neg hmagic, if_pos hpart] using shifts_pure _
    simp only [if_neg hmagic, if_neg hpart]
    generalize hpayload : (ptr'.drop 24).take (leNat ((ptr'.drop 16).take 4)) = payload
    have hhash := (hash256_shifts c (some payload)).above (i := 1)
    have hchecksum : (BitcoinSpoon.hash256 c (some payload)).toBytes.take 4 = checksum c payload := rfl
    by_cases hcorrupt : (ptr'.drop 20).take 4 ≠ checksum c payload
    · -- the packet is dropped
      obtain ⟨left, hrun, -⟩ := ih node' (ptr'.drop (24 + leNat ((ptr'.drop 16).take 4)))
      refine ⟨1 + left, shifts_push.bind (hhash.bind ?_), iff_of_false (by omega) (by simp [hshort, WholePacket, hpayload, hcorrupt])⟩
      rw [hchecksum, if_pos (Or.inr hcorrupt)]
      simpa only [if_pos hcorrupt] using hrun.above
    · obtain ⟨left, hrun, hiff⟩ := ih _ _
      refine ⟨left, shifts_push.bind (hhash.bind ?_), hiff.trans ?_⟩
      · rw [hchecksum, hash256_length, if_neg (not_or.2 ⟨by decide, hcorrupt⟩)]
        simp only [if_neg hcorrupt]
        exact (received_shifts env _ _ _).above.bind (shifts_pop.bind hrun)
      · simp [hshort, WholePacket, hpayload, not_not.1 hmagic, not_not.1 hcorrupt, Nat.not_lt.1 hpart]

theorem processInputBuffer_shifts (env : Environment) (node : Connection.Node) :
    ∃ left, Shifts (processInputBuffer c env node) (some (Connection.processInputBuffer c env node)) 0 left ∧
      (left = 0 ↔ WholePackets c env PACKETS_PER_PROCESS node node.inputBuffer.toBytes) := by
  obtain ⟨left, hrun, hiff⟩ := processPackets_shifts (c := c) env PACKETS_PER_PROCESS node node.inputBuffer.toBytes
  refine ⟨left, shifts_push.bind (hrun.above.bind ?_), hiff⟩
  rw [Nat.zero_add, Nat.add_comm 1]
  exact dtPop_shifts _

/-- A byte that is skipped leaves a scope. -/
example :
    (processInputBuffer plainCrypto silent { nodeNew false with inputBuffer := some (List.replicate 24 0) } 0).map Prod.snd =
      some 1 := rfl

end BitcoinSpoon.Tracking
