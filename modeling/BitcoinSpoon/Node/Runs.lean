/-
  BitcoinSpoon.Node.Runs — runs of calls on a node, and what each call can do.

  `perform` is one call, with what the socket answers and what the callbacks do meanwhile;
  `run` is a row of calls. Handling a packet only queues packets, passes bytes to the
  socket, closes the node or marks it ready (`Handling`); the other calls add what is read
  and what is delivered (`Move`). Each invariant of a connection is proved once for every
  move and holds after every run (`run_moves`).
-/

import BitcoinSpoon.Node.Connection
import BitcoinSpoon.Wire.Framing
import Mathlib.Logic.Relation

namespace BitcoinSpoon.Connection

open Wire Relation

variable (c : Crypto)

/-! ## What the log tells -/

/-- What has happened since the last `NodeConnect`. -/
def sinceConnect (log : List Happening) : List Happening := (log.reverse.takeWhile (· ≠ .connect)).reverse

def builtPackets (log : List Happening) : List Bytes :=
  log.filterMap fun
    | .built _ packet => some packet
    | _ => none

/-- The bytes passed to the socket from `versionPacket` (or from `outputBuffer`). -/
def passedFrom (ofVersionPacket : Bool) (log : List Happening) : Bytes :=
  log.flatMap fun
    | .passed o bytes => if o = ofVersionPacket then bytes else []
    | _ => []

/-- The bytes passed to the socket. -/
def wire (log : List Happening) : Bytes :=
  log.flatMap fun
    | .passed _ bytes => bytes
    | _ => []

/-- What was handed to `received`. -/
def deliveries (log : List Happening) : List (Bytes × Bytes) :=
  log.filterMap fun
    | .delivered command payload => some (command, payload)
    | _ => none

@[simp] theorem sinceConnect_connect (log : List Happening) : sinceConnect (log ++ [.connect]) = [] := by
  simp [sinceConnect]

theorem sinceConnect_append (log : List Happening) {more : List Happening} (h : Happening.connect ∉ more) :
    sinceConnect (log ++ more) = sinceConnect log ++ more := by
  unfold sinceConnect
  rw [List.reverse_append, List.takeWhile_append_of_pos, List.reverse_append, List.reverse_reverse]
  intro x hx
  simp only [ne_eq, decide_not, Bool.not_eq_true', decide_eq_false_iff_not]
  rintro rfl
  exact h (List.mem_reverse.1 hx)

/-! ## Calls -/

inductive Call where
  | connectionThread
  /-- NodeSendVersion, NodeSendTx, NodeGetData and the like. -/
  | send (str : Bytes) (payload : Data) (sized : payload.length < 2 ^ 32)
  | read (result : RecvResult)
  | processInputBuffer
  | processVersionAndOutputBuffer
  | close

/-- A call, and what its surroundings do while it runs. -/
structure Step where
  env : Environment
  sendResults : List SendResult
  call : Call

def perform (node : Node) (step : Step) : Node :=
  let node := { node with sendResults := step.sendResults }
  match step.call with
  | .connectionThread => connectionThread node
  | .send str payload _ => nodeSend c node str payload
  | .read result => nodeProcessRead c step.env node result
  | .processInputBuffer => processInputBuffer c step.env node
  | .processVersionAndOutputBuffer => processVersionAndOutputBuffer node
  | .close => nodeClose node

def run (node : Node) (steps : List Step) : Node := steps.foldl (perform c) node

/-! ## Handling -/

theorem sendLoop_append (results : List SendResult) (buffer : Bytes) :
    (sendLoop results buffer).1 ++ (sendLoop results buffer).2.1 = buffer := by
  induction results generalizing buffer with
  | nil => cases buffer <;> rfl
  | cons result results ih =>
    cases buffer with
    | nil => rfl
    | cons b buffer =>
      cases result with
      | error => rfl
      | again => rfl
      | sent n =>
        cases n with
        | zero => rfl
        | succ n =>
          have h := ih ((b :: buffer).drop (n + 1))
          show (b :: buffer).take (n + 1) ++ (sendLoop results ((b :: buffer).drop (n + 1))).1 ++
            (sendLoop results ((b :: buffer).drop (n + 1))).2.1 = _
          rw [List.append_assoc, h, List.take_append_drop]

/-- What a handler does to the node, one thing at a time. -/
inductive Handling (node : Node) : Node → Prop
  | queue (str : Bytes) (payload : Bytes) : str.length ≤ 12 → payload.length < 2 ^ 32 →
      Handling node (queuePacket c node str payload)
  | passVersion : node.connected = true → Handling node (sendVersionPacket node).1
  | passOutput : node.connected = true → node.versionPacket.length = 0 → node.verackSent = true →
      Handling node (sendOutputBuffer node).1
  | close : Handling node (nodeClose node)
  | ready : Handling node { node with connectionReady := true }

variable {c}

theorem flush_handling (node : Node) : ReflTransGen (Handling c) node (processVersionAndOutputBuffer node) := by
  unfold processVersionAndOutputBuffer
  split
  · exact .refl
  · rename_i hc
    have hc : node.connected = true := by simpa using hc
    have h1 : ReflTransGen (Handling c) node (sendVersionPacket node).1 := .single (.passVersion hc)
    dsimp only
    split
    · exact h1.tail .close
    · split
      · exact h1
      · rename_i hv
        simp only [ne_eq, Bool.or_eq_true, decide_eq_true_eq, Bool.not_eq_true', not_or, not_not,
          Bool.not_eq_false] at hv
        have h2 := h1.tail (.passOutput hc hv.1 hv.2)
        split
        · exact h2.tail .close
        · exact h2

theorem nodeSend_handling (node : Node) (str : Bytes) {payload : Data} (h : payload.length < 2 ^ 32) :
    ReflTransGen (Handling c) node (nodeSend c node str payload) := by
  unfold nodeSend
  split
  · exact .refl
  · exact .head (.queue str _ (by omega) h) (flush_handling _)

theorem act_handling (node : Node) (action : Action) : ReflTransGen (Handling c) node (act c node action) := by
  cases action with
  | send str payload h => exact nodeSend_handling node str h
  | close => exact .single .close

theorem reply_sized {command payload str : Bytes} {data : Data} (h : reply command payload = some (str, data)) :
    data.length < 2 ^ 32 := by
  unfold reply at h
  split at h
  · split at h
    · cases h
      simp
    · cases h
  · split at h
    · cases h
      rw [length_some, List.length_take]
      omega
    · cases h

/-- `received` does nothing else. -/
theorem received_handling (env : Environment) (node : Node) (command payload : Bytes) :
    ReflTransGen (Handling c) node (received c env node command payload) := by
  unfold received
  split
  · rename_i str data h
    exact nodeSend_handling node str (reply_sized h)
  · split
    · exact .single .ready
    · split
      · generalize env.delegate node command payload = actions
        induction actions generalizing node with
        | nil => exact .refl
        | cons action actions ih => exact (act_handling node action).trans (ih _)
      · exact .refl

/-! ## Moves -/

/-- What the loop of `processInputBuffer` does to the node, one thing at a time. -/
inductive Turn (c : Crypto) (node : Node) : Node → Prop
  | handling {node' : Node} : Handling c node node' → Turn c node node'
  | delivered (command payload : Bytes) : Turn c node (node.happen (.delivered command payload))
  | readReleased : Turn c node (node.happen .readReleased)

/-- What a call does to the node, one thing at a time. -/
inductive Move (c : Crypto) (node : Node) : Node → Prop
  | turn {node' : Node} : Turn c node node' → Move c node node'
  | input (inputBuffer : Data) : Move c node { node with inputBuffer := inputBuffer }
  | answers (sendResults : List SendResult) : Move c node { node with sendResults := sendResults }
  | connectionThread : Move c node (connectionThread node)

theorem turns_of_handling {node node' : Node} (h : ReflTransGen (Handling c) node node') :
    ReflTransGen (Turn c) node node' := by
  induction h with
  | refl => exact .refl
  | tail _ h ih => exact ih.tail (.handling h)

theorem moves_of_turns {node node' : Node} (h : ReflTransGen (Turn c) node node') : ReflTransGen (Move c) node node' := by
  induction h with
  | refl => exact .refl
  | tail _ h ih => exact ih.tail (.turn h)

theorem processPackets_turns (env : Environment) (rounds : Nat) (node : Node) (ptr : Bytes) :
    ReflTransGen (Turn c) node (processPackets c env rounds node ptr).1 := by
  induction rounds generalizing node ptr with
  | zero => exact .refl
  | succ rounds ih =>
    unfold processPackets
    split
    · exact .refl
    · -- the header is read first, from the buffer or from what was one
      have hread : ∀ node' ptr', ReflTransGen (Turn c) node node' →
          ReflTransGen (Turn c) node
            (if ptr'.take 4 ≠ magicOf node'.testnet then processPackets c env rounds node' (ptr'.drop 1)
            else
              let length := leNat ((ptr'.drop 16).take 4)
              if ptr'.length < 24 + length then (node', ptr')
              else
                let payload := (ptr'.drop 24).take length
                let command := cString ((ptr'.drop 4).take 12)
                let rest := ptr'.drop (24 + length)
                if (ptr'.drop 20).take 4 ≠ checksum c payload then processPackets c env rounds node' rest
                else
                  processPackets c env rounds (received c env (node'.happen (.delivered command payload)) command payload)
                    rest).1 := by
        intro node' ptr' h
        split
        · exact h.trans (ih _ _)
        · dsimp only
          split
          · exact h
          · split
            · exact h.trans (ih _ _)
            · exact (h.tail (.delivered _ _)).trans ((turns_of_handling (received_handling env _ _ _)).trans (ih _ _))
      by_cases hr : node.inputBuffer = none
      · simp only [hr, if_true]
        exact hread _ _ (.single .readReleased)
      · simp only [hr, if_false]
        exact hread _ _ .refl

theorem processInputBuffer_moves (env : Environment) (node : Node) :
    ReflTransGen (Move c) node (processInputBuffer c env node) := by
  unfold processInputBuffer
  exact (moves_of_turns (processPackets_turns env PACKETS_PER_PROCESS node node.inputBuffer.toBytes)).tail (.input _)

theorem moves_of_handling {node node' : Node} (h : ReflTransGen (Handling c) node node') :
    ReflTransGen (Move c) node node' := moves_of_turns (turns_of_handling h)

theorem perform_moves (node : Node) (step : Step) : ReflTransGen (Move c) node (perform c node step) := by
  have h0 : ReflTransGen (Move c) node { node with sendResults := step.sendResults } := .single (.answers _)
  unfold perform
  refine h0.trans ?_
  cases step.call with
  | connectionThread => exact .single .connectionThread
  | send str payload h => exact moves_of_handling (nodeSend_handling _ str h)
  | read result =>
    unfold nodeProcessRead
    cases result with
    | bytes chunk =>
      dsimp only
      split
      · exact .single (.turn (.handling .close))
      · exact .head (.input _) (processInputBuffer_moves _ _)
    | ended => exact .single (.turn (.handling .close))
    | error => exact .single (.turn (.handling .close))
  | processInputBuffer => exact processInputBuffer_moves _ _
  | processVersionAndOutputBuffer => exact moves_of_handling (flush_handling _)
  | close => exact .single (.turn (.handling .close))

theorem run_moves (node : Node) (steps : List Step) : ReflTransGen (Move c) node (run c node steps) := by
  induction steps generalizing node with
  | nil => exact .refl
  | cons step steps ih => exact (perform_moves node step).trans (ih _)

end BitcoinSpoon.Connection
