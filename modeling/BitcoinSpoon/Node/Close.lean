/-
  BitcoinSpoon.Node.Close — closing the node while a packet is handled.

  `processInputBuffer` keeps its pointers into the input buffer over the call of `received`.
  A handler that closes the node (a callback, or a reply that cannot be sent) releases the
  buffer, and the loop goes on in it: it reads the next header there, and delivers what it
  takes for a packet (`not_nothingAfterClose`). Nothing happens after the close exactly when
  the loop has no turn left to take, and the callbacks send nothing on the node they have
  closed (`nothingAfterClose_iff`).
-/

import BitcoinSpoon.Node.Stream

namespace BitcoinSpoon.Connection

open Wire Relation

variable (c : Crypto)

/-! ## What is asked of a close -/

def Emptied (node : Node) : Prop :=
  node.inputBuffer.length = 0 ∧ node.outputBuffer.length = 0 ∧ node.versionPacket.length = 0

/-- Neither a delivery nor a read of the released buffer. -/
def Still (happenings : List Happening) : Prop :=
  Happening.readReleased ∉ happenings ∧ ∀ command payload, Happening.delivered command payload ∉ happenings

/-- Between `before` and `after`: once the node has been closed nothing is read and nothing
    is delivered, and its buffers stay empty. -/
def NothingAfterClose (before after : Node) : Prop :=
  ∀ p q, after.log = before.log ++ (p ++ .closed :: q) → Still q ∧ Emptied after

/-- What a callback does once it has closed the node: each packet it sends is followed by one
    more close. -/
def quietTail : List Action → Prop
  | [] => True
  | .close :: actions => quietTail actions
  | .send str _ _ :: actions => (str.length ≤ 12 → .close ∈ actions) ∧ quietTail actions

def quietOnceClosed : Node → List Action → Prop
  | _, [] => True
  | node, action :: actions =>
    if (act c node action).inputBuffer = none then quietTail actions else quietOnceClosed (act c node action) actions

/-- What the callbacks do with the packet. Replies send one packet and nothing after it. -/
def quietHandling (env : Environment) (node : Node) (command payload : Bytes) : Prop :=
  reply command payload = none → command ∈ callbackCommands →
    quietOnceClosed c node (env.delegate node command payload)

/-- The packet that closes the node is the last one the loop comes to, and its callbacks are
    quiet about it. -/
def ClosesLast (env : Environment) : Nat → Node → Bytes → Prop
  | 0, _, _ => True
  | rounds + 1, node, ptr =>
    match frameStep c node.testnet ptr with
    | none => True
    | some (none, rest) => ClosesLast env rounds node rest
    | some (some (command, payload), rest) =>
      let node := node.happen (.delivered command payload)
      let node' := received c env node command payload
      if node'.inputBuffer = none then (rounds = 0 ∨ rest.length < 24) ∧ quietHandling c env node command payload
      else ClosesLast env rounds node' rest

/-! ## Handlers -/

variable {c} {node node' : Node}

theorem emptied_nodeClose (node : Node) : Emptied (nodeClose node) := ⟨rfl, rfl, rfl⟩

/-- A flush that closes the node ends with that. -/
theorem flush_cases (node : Node) :
    (processVersionAndOutputBuffer node).inputBuffer = node.inputBuffer ∧
      (processVersionAndOutputBuffer node).connected = node.connected ∨
    ∃ n, processVersionAndOutputBuffer node = nodeClose n := by
  unfold processVersionAndOutputBuffer
  split
  · exact .inl ⟨rfl, rfl⟩
  · dsimp only
    split
    · exact .inr ⟨_, rfl⟩
    · split
      · exact .inl ⟨rfl, rfl⟩
      · split
        · exact .inr ⟨_, rfl⟩
        · exact .inl ⟨rfl, rfl⟩

theorem queuePacket_fields (node : Node) (str payload : Bytes) :
    (queuePacket c node str payload).inputBuffer = node.inputBuffer ∧
      (queuePacket c node str payload).connected = node.connected := by
  unfold queuePacket
  dsimp only
  split
  · exact ⟨rfl, rfl⟩
  · split <;> exact ⟨rfl, rfl⟩

theorem nodeSend_cases (node : Node) (str : Bytes) (payload : Data) :
    (nodeSend c node str payload).inputBuffer = node.inputBuffer ∧
      (nodeSend c node str payload).connected = node.connected ∨ ∃ n, nodeSend c node str payload = nodeClose n := by
  unfold nodeSend
  split
  · exact .inl ⟨rfl, rfl⟩
  · obtain ⟨hi, hc⟩ := queuePacket_fields (c := c) node str payload.toBytes
    rcases flush_cases (queuePacket c node str payload.toBytes) with ⟨h1, h2⟩ | h
    · exact .inl ⟨h1.trans hi, h2.trans hc⟩
    · exact .inr h

/-- Closed: `NodeClose` has run and nothing has connected the node since. -/
def Closed (node : Node) : Prop := node.inputBuffer = none ∧ node.connected = false

/-- On a closed node a packet stays in its buffer. -/
theorem nodeSend_closed {str : Bytes} {payload : Data} (h : Closed node) (hlen : str.length ≤ 12) :
    Closed (nodeSend c node str payload) ∧ ¬ Emptied (nodeSend c node str payload) := by
  obtain ⟨hi, hc⟩ := queuePacket_fields (c := c) node str payload.toBytes
  have hflush : nodeSend c node str payload = queuePacket c node str payload.toBytes := by
    rw [nodeSend, if_neg (by omega), processVersionAndOutputBuffer, hc, h.2]
    rfl
  rw [hflush]
  refine ⟨⟨hi.trans h.1, hc.trans h.2⟩, ?_⟩
  have hheader : 24 ≤ (packetHeader c node.testnet str payload.toBytes).length := by
    simp only [packetHeader, List.length_append, magicOf_length, strncpy12_length, checksum_length]
    have : (uint32D payload.toBytes.length).length = 4 := leBytes_length 4 _
    omega
  rintro ⟨-, ho, hv⟩
  unfold queuePacket at ho hv
  dsimp only at ho hv
  split at ho
  · simp only [length_some, List.length_append] at ho
    omega
  · rename_i hne
    rw [if_neg hne] at hv
    split at ho
    · rename_i hversion
      rw [if_pos hversion] at hv
      simp only [length_some, List.length_append] at hv
      omega
    · simp only [length_some, List.length_append] at ho
      omega

/-- What a callback leaves of a closed node. -/
theorem foldl_act_closed {actions : List Action} (h : Closed node) :
    Closed (actions.foldl (act c) node) ∧
      (Emptied (actions.foldl (act c) node) ↔ quietTail actions ∧ (Action.close ∈ actions ∨ Emptied node)) := by
  induction actions generalizing node with
  | nil => exact ⟨h, by simp [quietTail]⟩
  | cons action actions ih =>
    cases action with
    | close =>
      have hnow : Closed (nodeClose node) := ⟨rfl, rfl⟩
      obtain ⟨h1, h2⟩ := ih hnow
      refine ⟨h1, h2.trans ?_⟩
      simp [quietTail, emptied_nodeClose]
    | send str payload hsized =>
      by_cases hlen : str.length ≤ 12
      · obtain ⟨hclosed, hfull⟩ := @nodeSend_closed c node str payload h hlen
        obtain ⟨h1, h2⟩ := ih hclosed
        refine ⟨h1, h2.trans ?_⟩
        simp only [quietTail, hfull, or_false, hlen, true_implies, List.mem_cons, reduceCtorEq, false_or]
        tauto
      · have hsame : act c node (.send str payload hsized) = node := by
          rw [act, nodeSend, if_pos (by omega)]
        rw [List.foldl_cons, hsame]
        obtain ⟨h1, h2⟩ := ih h
        refine ⟨h1, h2.trans ?_⟩
        simp [quietTail, hlen]

theorem act_cases (node : Node) (action : Action) :
    (act c node action).inputBuffer = node.inputBuffer ∨ ∃ n, act c node action = nodeClose n := by
  cases action with
  | send str payload h =>
    rcases nodeSend_cases (c := c) node str payload with ⟨h, -⟩ | h
    · exact .inl h
    · exact .inr h
  | close => exact .inr ⟨node, rfl⟩

theorem foldl_act_open {actions : List Action} (hopen : node.inputBuffer ≠ none)
    (hclosed : (actions.foldl (act c) node).inputBuffer = none) :
    Emptied (actions.foldl (act c) node) ↔ quietOnceClosed c node actions := by
  induction actions generalizing node with
  | nil => exact absurd hclosed hopen
  | cons action actions ih =>
    rw [List.foldl_cons] at hclosed ⊢
    unfold quietOnceClosed
    split
    · rename_i hnow
      rcases act_cases (c := c) node action with h | ⟨n, h⟩
      · exact absurd (h.symm.trans hnow) hopen
      · have hclosed : Closed (nodeClose n) := ⟨rfl, rfl⟩
        rw [h, (foldl_act_closed hclosed).2]
        simp [emptied_nodeClose]
    · rename_i hnow
      exact ih hnow hclosed

/-- A handler that has closed the node leaves its buffers empty exactly when the callbacks are
    quiet. -/
theorem received_emptied (env : Environment) {command payload : Bytes} (hopen : node.inputBuffer ≠ none)
    (hclosed : (received c env node command payload).inputBuffer = none) :
    Emptied (received c env node command payload) ↔ quietHandling c env node command payload := by
  unfold received at hclosed ⊢
  unfold quietHandling
  split at hclosed
  · rename_i str data hreply
    rw [hreply]
    rcases nodeSend_cases (c := c) node str data with ⟨h, -⟩ | ⟨n, h⟩
    · exact absurd (h.symm.trans hclosed) hopen
    · simp only [h, emptied_nodeClose, reduceCtorEq, false_implies]
  · rename_i hreply
    rw [hreply]
    split at hclosed
    · exact absurd hclosed hopen
    · rename_i hverack
      rw [if_neg hverack]
      split at hclosed
      · rename_i hcallback
        rw [if_pos hcallback, foldl_act_open hopen hclosed]
        simp [hcallback]
      · exact absurd hclosed hopen

/-! ## The loop -/

theorem nothingAfterClose_of_same (h : node'.log = node.log) : NothingAfterClose node node' := by
  intro p q hlog
  rw [h] at hlog
  have := congrArg List.length hlog
  simp at this

/-- The loop has no turn left. -/
theorem processPackets_end (env : Environment) {rounds : Nat} {rest : Bytes} (h : rounds = 0 ∨ rest.length < 24) :
    processPackets c env rounds node rest = (node, rest) := by
  cases rounds with
  | zero => rfl
  | succ rounds =>
    rw [processPackets, if_pos]
    simpa using h

/-- A turn after the close begins with a read of the released buffer. -/
theorem processPackets_reads (env : Environment) (rounds : Nat) {rest : Bytes} (hnone : node.inputBuffer = none)
    (h24 : 24 ≤ rest.length) :
    ∃ more, (processPackets c env (rounds + 1) node rest).1.log = node.log ++ .readReleased :: more := by
  -- whatever the turn goes on with
  have hlater : ∀ node' ptr, (node.happen .readReleased).log <+: node'.log →
      ∃ more, (processPackets c env rounds node' ptr).1.log = node.log ++ .readReleased :: more := by
    rintro node' ptr ⟨more, hmore⟩
    obtain ⟨later, hl⟩ := extends_of_turns (processPackets_turns (c := c) env rounds node' ptr)
    refine ⟨more ++ later, ?_⟩
    rw [hl.log, ← hmore]
    simp [Node.happen]
  rw [processPackets, if_neg (by omega), if_pos hnone]
  dsimp only
  split
  · exact hlater _ _ (List.prefix_refl _)
  · split
    · exact ⟨[], rfl⟩
    · split
      · exact hlater _ _ (List.prefix_refl _)
      · obtain ⟨handling, hh⟩ := handled_of_handling (received_handling (c := c) env
          ((node.happen .readReleased).happen (.delivered (cString (((env.released rest).drop 4).take 12))
            (((env.released rest).drop 24).take (leNat (((env.released rest).drop 16).take 4))))) _ _)
        refine hlater _ _ ?_
        rw [hh.log]
        exact ⟨_, (List.append_assoc _ _ _).symm⟩

/-- What comes before a close does not matter. -/
theorem nothingAfterClose_iff_of_extends {now : List Happening} {last : Node} (h : Extends node node' now)
    (hnow : Happening.closed ∉ now) (hlast : ∃ later, last.log = node'.log ++ later) :
    NothingAfterClose node last ↔ NothingAfterClose node' last := by
  obtain ⟨later, hlater⟩ := hlast
  constructor
  · intro hn p q hlog
    refine hn (now ++ p) q ?_
    rw [hlog, h.log]
    simp only [List.append_assoc]
  · intro hn p q hlog
    have he : p ++ .closed :: q = now ++ later := by
      rw [hlater, h.log, List.append_assoc] at hlog
      exact (List.append_cancel_left hlog).symm
    rcases List.append_eq_append_iff.1 he with ⟨r, hr, hq⟩ | ⟨r, hr, hq⟩
    · -- the close would be among what came before
      cases r with
      | nil =>
        refine hn [] q ?_
        rw [hlater, ← hq.symm.trans (List.nil_append _)]
        rfl
      | cons x r =>
        obtain ⟨rfl, -⟩ := List.cons.inj hq
        rw [hr] at hnow
        simp at hnow
    · refine hn r q ?_
      rw [hlater, hq]

theorem nothingAfterClose_loop (env : Environment) (rounds : Nat) {ptr : Bytes} (hopen : node.inputBuffer ≠ none) :
    NothingAfterClose node (processPackets c env rounds node ptr).1 ↔ ClosesLast c env rounds node ptr := by
  induction rounds generalizing node ptr with
  | zero => exact iff_of_true (nothingAfterClose_of_same rfl) trivial
  | succ rounds ih =>
    rw [processPackets_succ c env rounds ptr hopen, ClosesLast]
    rcases hstep : frameStep c node.testnet ptr with _ | ⟨_ | ⟨command, payload⟩, rest⟩
    · exact iff_of_true (nothingAfterClose_of_same rfl) trivial
    · exact ih hopen
    · dsimp only
      have hopen1 : (node.happen (.delivered command payload)).inputBuffer ≠ none := hopen
      obtain ⟨handling, hh⟩ := handled_of_handling
        (received_handling (c := c) env (node.happen (.delivered command payload)) command payload)
      have hemptied := @received_emptied c _ env command payload hopen1
      generalize received c env (node.happen (.delivered command payload)) command payload = node2 at *
      have h2 : Extends node node2 (.delivered command payload :: handling) := by
        refine ⟨hh.testnet, by rw [hh.log]; simp [Node.happen], by simp [hh.connects], ?_⟩
        rw [hh.input]
        simp [Node.happen]
      obtain ⟨later, hl⟩ := extends_of_turns (processPackets_turns (c := c) env rounds node2 rest)
      split
      · rename_i hnone
        have hmem : Happening.closed ∈ handling := by
          by_contra hno
          rw [hh.input, if_neg hno] at hnone
          exact hopen1 hnone
        constructor
        · intro hn
          obtain ⟨p, q, hpq⟩ := List.append_of_mem hmem
          have hlog : (processPackets c env rounds node2 rest).1.log =
              node.log ++ ((.delivered command payload :: p) ++ .closed :: (q ++ later)) := by
            rw [hl.log, h2.log, hpq]
            simp only [List.append_assoc, List.cons_append]
          obtain ⟨hstill, hempty⟩ := hn _ _ hlog
          by_cases hend : rounds = 0 ∨ rest.length < 24
          · rw [processPackets_end env hend] at hempty
            exact ⟨hend, (hemptied hnone).1 hempty⟩
          · rw [not_or, Nat.not_lt] at hend
            obtain ⟨rounds, rfl⟩ := Nat.exists_eq_succ_of_ne_zero hend.1
            obtain ⟨more, hmore⟩ := processPackets_reads (c := c) env rounds hnone hend.2
            rw [hl.log] at hmore
            have hread : Happening.readReleased ∈ q ++ later := by
              rw [List.append_cancel_left hmore]
              simp
            exact absurd hread hstill.1
        · rintro ⟨hend, hquiet⟩ p q hlog
          rw [processPackets_end env hend] at hlog ⊢
          refine ⟨?_, (hemptied hnone).2 hquiet⟩
          rw [h2.log] at hlog
          have he := List.append_cancel_left hlog
          have hsub : ∀ x ∈ q, x ∈ handling := by
            intro x hx
            cases p with
            | nil => cases he
            | cons y p =>
              obtain ⟨-, he⟩ := List.cons.inj he
              rw [he]
              simp [hx]
          exact ⟨fun hx => hh.reads (hsub _ hx), fun command payload hx => hh.quiet command payload (hsub _ hx)⟩
      · rename_i hstays
        have hno : Happening.closed ∉ (.delivered command payload :: handling) := by
          intro hmem
          rw [h2.input, if_pos hmem] at hstays
          exact hstays rfl
        rw [nothingAfterClose_iff_of_extends h2 hno ⟨later, hl.log⟩]
        exact ih hstays

/-- Once `NodeClose` has run, `processInputBuffer` reads no byte more of the released buffer,
    delivers nothing and leaves the buffers empty exactly when the packet that closes the
    node is the last one it comes to and the callbacks send nothing after they have closed
    the node. -/
theorem nothingAfterClose_iff (env : Environment) (node : Node) :
    NothingAfterClose node (processInputBuffer c env node) ↔
      ClosesLast c env PACKETS_PER_PROCESS node node.inputBuffer.toBytes := by
  by_cases hopen : node.inputBuffer = none
  · have hsame : processPackets c env PACKETS_PER_PROCESS node node.inputBuffer.toBytes = (node, node.inputBuffer.toBytes) := by
      rw [hopen]
      exact processPackets_end env (.inr (by simp))
    refine iff_of_true (nothingAfterClose_of_same ?_) ?_
    · unfold processInputBuffer
      rw [hsame]
    · rw [hopen]
      trivial
  · rw [← nothingAfterClose_loop env PACKETS_PER_PROCESS hopen]
    obtain ⟨more, hm⟩ := extends_of_turns
      (processPackets_turns (c := c) env PACKETS_PER_PROCESS node node.inputBuffer.toBytes)
    have hnone : ∀ p q, (processPackets c env PACKETS_PER_PROCESS node node.inputBuffer.toBytes).1.log =
        node.log ++ (p ++ .closed :: q) →
        (processPackets c env PACKETS_PER_PROCESS node node.inputBuffer.toBytes).1.inputBuffer = none := by
      intro p q hlog
      rw [hm.log] at hlog
      rw [hm.input, List.append_cancel_left hlog, if_pos (by simp)]
    unfold processInputBuffer
    dsimp only
    constructor
    · intro hn p q hlog
      obtain ⟨hstill, hempty⟩ := hn p q hlog
      exact ⟨hstill, by rw [hnone p q hlog]; rfl, hempty.2⟩
    · intro hn p q hlog
      obtain ⟨hstill, hempty⟩ := hn p q hlog
      refine ⟨hstill, ?_, hempty.2⟩
      show Data.length (Option.map _ _) = 0
      rw [hnone p q hlog]
      rfl

/-- After the handshake: a "ping" whose answer cannot be sent, and a packet behind it. -/
def pingThenPong : Node :=
  { nodeNew false with
    connected := true
    verackSent := true
    inputBuffer := some (packet plainCrypto false pingCommand (List.replicate 8 0) ++ packet plainCrypto false pongCommand [])
    outputBuffer := some []
    versionPacket := some []
    sendResults := [.error] }

theorem not_nothingAfterClose :
    ¬ ∀ (c : Crypto) (env : Environment) (node : Node), NothingAfterClose node (processInputBuffer c env node) := by
  intro h
  have hstill := h plainCrypto silent pingThenPong
    [.delivered pingCommand (List.replicate 8 0),
      .built pongCommand (packet plainCrypto false pongCommand (List.replicate 8 0)), .passed true [], .passed false []]
    [.readReleased, .delivered pongCommand []] (by decide +kernel)
  exact hstill.1.1 (by simp)

end BitcoinSpoon.Connection
