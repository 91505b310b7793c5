/-
  BitcoinSpoon.Node.Stream — the incoming stream of a connection.

  One turn of the loop of `processInputBuffer` is a step of a framer (`frames`), as long as
  the node has not been closed (`processPackets_spec`). So what is delivered does not depend
  on how the stream was cut into chunks (`deliveries_of_stream`), and the packets a node
  builds are read back one by one, whatever they carry (`packets_delivered`). One call reads
  at most `PACKETS_PER_PROCESS` of them.
-/

import BitcoinSpoon.Node.Runs

namespace BitcoinSpoon.Connection

open Wire Relation

variable (c : Crypto)

/-! ## The framer -/

/-- One turn of the loop, without handling what it found. -/
def frameStep (testnet : Bool) (ptr : Bytes) : Option (Option (Bytes × Bytes) × Bytes) :=
  if ptr.length < 24 then none
  else if ptr.take 4 ≠ magicOf testnet then some (none, ptr.drop 1)
  else
    let length := leNat ((ptr.drop 16).take 4)
    if ptr.length < 24 + length then none
    else
      let payload := (ptr.drop 24).take length
      let rest := ptr.drop (24 + length)
      if (ptr.drop 20).take 4 ≠ checksum c payload then some (none, rest)
      else some (some (cString ((ptr.drop 4).take 12), payload), rest)

theorem field_append {b more : Bytes} {k n : Nat} (h : k + n ≤ b.length) :
    ((b ++ more).drop k).take n = (b.drop k).take n := by
  have hn : n ≤ (b.drop k).length := by rw [List.length_drop]; omega
  rw [List.drop_append_of_le_length (by omega), List.take_append_of_le_length hn]

/-- A step looks at nothing behind the packet. -/
theorem frameStep_append {testnet : Bool} {b more rest : Bytes} {frame : Option (Bytes × Bytes)}
    (h : frameStep c testnet b = some (frame, rest)) :
    frameStep c testnet (b ++ more) = some (frame, rest ++ more) := by
  unfold frameStep at h
  split at h
  · cases h
  · rename_i h24
    have hmagic : (b ++ more).take 4 = b.take 4 := List.take_append_of_le_length (by omega)
    have hlength : ((b ++ more).drop 16).take 4 = (b.drop 16).take 4 := field_append (by omega)
    have hsum : ((b ++ more).drop 20).take 4 = (b.drop 20).take 4 := field_append (by omega)
    have hcommand : ((b ++ more).drop 4).take 12 = (b.drop 4).take 12 := field_append (by omega)
    unfold frameStep
    rw [if_neg (by rw [List.length_append]; omega), hmagic, hlength, hsum, hcommand]
    split at h
    · rename_i hne
      cases h
      rw [if_pos hne, List.drop_append_of_le_length (by omega)]
    · rename_i hne
      rw [if_neg hne]
      dsimp only at h ⊢
      split at h
      · cases h
      · rename_i hlen
        rw [if_neg (by rw [List.length_append]; omega), field_append (by omega),
          List.drop_append_of_le_length (by omega)]
        split at h
        · rename_i hbad
          cases h
          rw [if_pos hbad]
        · rename_i hok
          cases h
          rw [if_neg hok]

theorem frameStep_drops {testnet : Bool} {b rest : Bytes} {frame : Option (Bytes × Bytes)}
    (h : frameStep c testnet b = some (frame, rest)) : 24 ≤ b.length ∧ ∃ k, 0 < k ∧ rest = b.drop k := by
  unfold frameStep at h
  split at h
  · cases h
  · refine ⟨by omega, ?_⟩
    split at h
    · cases h
      exact ⟨1, by omega, rfl⟩
    · dsimp only at h
      split at h
      · cases h
      · split at h <;> cases h <;> exact ⟨_, by omega, rfl⟩

def frames (testnet : Bool) : Framer UInt8 (Bytes × Bytes) where
  step := frameStep c testnet
  step_append := frameStep_append c
  step_shorter h := by
    obtain ⟨h24, k, hk, rfl⟩ := frameStep_drops c h
    rw [List.length_drop]
    omega
  step_suffix h := by
    obtain ⟨-, k, -, rfl⟩ := frameStep_drops c h
    exact List.drop_suffix k _

@[simp] theorem frames_step (testnet : Bool) : (frames c testnet).step = frameStep c testnet := rfl

/-! ## The loop is the framer -/

/-- While the input buffer is there. -/
theorem processPackets_succ (env : Environment) (rounds : Nat) {node : Node} (ptr : Bytes) (h : node.inputBuffer ≠ none) :
    processPackets c env (rounds + 1) node ptr =
      match frameStep c node.testnet ptr with
      | none => (node, ptr)
      | some (none, rest) => processPackets c env rounds node rest
      | some (some (command, payload), rest) =>
        processPackets c env rounds (received c env (node.happen (.delivered command payload)) command payload) rest := by
  rw [processPackets, frameStep, if_neg h]
  dsimp only
  split
  · rfl
  · split
    · rfl
    · split
      · rfl
      · split <;> rfl

variable {c}

/-- What the loop leaves: the log with `more` behind it; the input buffer is lost by closing
    alone. -/
structure Extends (node node' : Node) (more : List Happening) : Prop where
  testnet : node'.testnet = node.testnet
  log : node'.log = node.log ++ more
  connects : Happening.connect ∉ more
  input : node'.inputBuffer = if .closed ∈ more then none else node.inputBuffer

theorem Extends.refl (node : Node) : Extends node node [] := ⟨rfl, by simp, by simp, by simp⟩

theorem Extends.trans {a b d : Node} {more more' : List Happening} (h : Extends a b more) (h' : Extends b d more') :
    Extends a d (more ++ more') := by
  refine ⟨h'.testnet.trans h.testnet, by rw [h'.log, h.log, List.append_assoc], ?_, ?_⟩
  · rw [List.mem_append, not_or]
    exact ⟨h.connects, h'.connects⟩
  · rw [h'.input, h.input]
    by_cases h1 : Happening.closed ∈ more <;> by_cases h2 : Happening.closed ∈ more' <;> simp [h1, h2]

/-- Handling delivers nothing and reads nothing. -/
structure Handled (node node' : Node) (more : List Happening) : Prop extends Extends node node' more where
  quiet : ∀ command payload, Happening.delivered command payload ∉ more
  reads : Happening.readReleased ∉ more

theorem Handled.trans {a b d : Node} {more more' : List Happening} (h : Handled a b more) (h' : Handled b d more') :
    Handled a d (more ++ more') := by
  refine ⟨h.toExtends.trans h'.toExtends, fun command payload => ?_, ?_⟩
  · rw [List.mem_append, not_or]
    exact ⟨h.quiet command payload, h'.quiet command payload⟩
  · rw [List.mem_append, not_or]
    exact ⟨h.reads, h'.reads⟩

theorem Handled.deliveries {node node' : Node} {more : List Happening} (h : Handled node node' more) :
    deliveries more = [] := by
  unfold Connection.deliveries
  rw [List.filterMap_eq_nil_iff]
  intro x hx
  cases x with
  | delivered command payload => exact absurd hx (h.quiet command payload)
  | _ => rfl

theorem Handling.handled {node node' : Node} (h : Handling c node node') : ∃ more, Handled node node' more := by
  cases h with
  | queue str payload h12 hsized =>
    refine ⟨[.built str (packet c node.testnet str payload)], ?_⟩
    unfold queuePacket
    dsimp only
    split
    · exact ⟨⟨rfl, rfl, by simp, by simp [Node.happen]⟩, by simp, by simp⟩
    · split
      · exact ⟨⟨rfl, rfl, by simp, by simp [Node.happen]⟩, by simp, by simp⟩
      · exact ⟨⟨rfl, rfl, by simp, by simp [Node.happen]⟩, by simp, by simp⟩
  | passVersion hc =>
    exact ⟨[.passed true _], ⟨rfl, rfl, by simp, by simp [sendVersionPacket, Node.happen]⟩, by simp, by simp⟩
  | passOutput hc hv hs =>
    exact ⟨[.passed false _], ⟨rfl, rfl, by simp, by simp [sendOutputBuffer, Node.happen]⟩, by simp, by simp⟩
  | close => exact ⟨[.closed], ⟨rfl, rfl, by simp, by simp [nodeClose, nodeReset, Node.happen]⟩, by simp, by simp⟩
  | ready => exact ⟨[], ⟨rfl, by simp, by simp, by simp⟩, by simp, by simp⟩

theorem handled_of_handling {node node' : Node} (h : ReflTransGen (Handling c) node node') :
    ∃ more, Handled node node' more := by
  induction h with
  | refl => exact ⟨[], .refl node, by simp, by simp⟩
  | tail _ h ih =>
    obtain ⟨more, hm⟩ := ih
    obtain ⟨more', hm'⟩ := h.handled
    exact ⟨more ++ more', hm.trans hm'⟩

theorem Turn.extends {node node' : Node} (h : Turn c node node') : ∃ more, Extends node node' more := by
  cases h with
  | handling h =>
    obtain ⟨more, hm⟩ := h.handled
    exact ⟨more, hm.toExtends⟩
  | delivered command payload => exact ⟨[.delivered command payload], rfl, rfl, by simp, by simp [Node.happen]⟩
  | readReleased => exact ⟨[.readReleased], rfl, rfl, by simp, by simp [Node.happen]⟩

theorem extends_of_turns {node node' : Node} (h : ReflTransGen (Turn c) node node') :
    ∃ more, Extends node node' more := by
  induction h with
  | refl => exact ⟨[], .refl node⟩
  | tail _ h ih =>
    obtain ⟨more, hm⟩ := ih
    obtain ⟨more', hm'⟩ := h.extends
    exact ⟨more ++ more', hm.trans hm'⟩

theorem Move.log {node node' : Node} (h : Move c node node') :
    ∃ more, node'.log = node.log ++ more ∧ Happening.connect ∉ more := by
  cases h with
  | turn h =>
    obtain ⟨more, hm⟩ := h.extends
    exact ⟨more, hm.log, hm.connects⟩
  | input inputBuffer => exact ⟨[], by simp, by simp⟩
  | answers sendResults => exact ⟨[], by simp, by simp⟩
  | connectionThread =>
    refine ⟨[], ?_, by simp⟩
    unfold Connection.connectionThread
    split
    · simp
    · split <;> simp

/-- The log only grows, and only `NodeConnect` connects. -/
theorem log_grows {node node' : Node} (h : ReflTransGen (Move c) node node') :
    ∃ more, node'.log = node.log ++ more ∧ Happening.connect ∉ more := by
  induction h with
  | refl => exact ⟨[], by simp, by simp⟩
  | tail _ h ih =>
    obtain ⟨more, hm, hc⟩ := ih
    obtain ⟨more', hm', hc'⟩ := h.log
    refine ⟨more ++ more', by rw [hm', hm, List.append_assoc], ?_⟩
    rw [List.mem_append, not_or]
    exact ⟨hc, hc'⟩

/-- Until the node is closed the loop delivers what the framer hands out. -/
theorem processPackets_spec (env : Environment) (rounds : Nat) {node : Node} {ptr : Bytes} {more : List Happening}
    (hopen : node.inputBuffer ≠ none) (hmore : Extends node (processPackets c env rounds node ptr).1 more)
    (hclosed : Happening.closed ∉ more) :
    (processPackets c env rounds node ptr).2 = ((frames c node.testnet).taken rounds ptr).2 ∧
      deliveries more = ((frames c node.testnet).taken rounds ptr).1 := by
  have hlog := hmore.log
  clear hmore
  induction rounds generalizing node ptr more with
  | zero =>
    obtain rfl : more = [] := by simpa [processPackets] using hlog
    exact ⟨rfl, rfl⟩
  | succ rounds ih =>
    rw [processPackets_succ c env rounds ptr hopen] at hlog ⊢
    rw [Framer.taken, frames_step]
    rcases hstep : frameStep c node.testnet ptr with _ | ⟨_ | ⟨command, payload⟩, rest⟩
    · simp only [hstep, true_and] at hlog ⊢
      obtain rfl : more = [] := by simpa using hlog
      rfl
    · simp only [hstep] at hlog ⊢
      simpa using ih hopen hclosed hlog
    · simp only [hstep] at hlog ⊢
      obtain ⟨handling, hh⟩ :=
        handled_of_handling (received_handling (c := c) env (node.happen (.delivered command payload)) command payload)
      obtain ⟨later, hl⟩ := extends_of_turns (processPackets_turns (c := c) env rounds
        (received c env (node.happen (.delivered command payload)) command payload) rest)
      -- the delivery, what its handling does, and the rest of the call
      obtain rfl : more = .delivered command payload :: (handling ++ later) := by
        rw [hl.log, hh.log] at hlog
        simpa [Node.happen] using hlog.symm
      simp only [List.mem_cons, List.mem_append, not_or, reduceCtorEq, not_false_eq_true, true_and] at hclosed
      have hopen' : (received c env (node.happen (.delivered command payload)) command payload).inputBuffer ≠ none := by
        rw [hh.input, if_neg hclosed.1]
        exact hopen
      obtain ⟨hr, hd⟩ := ih hopen' hclosed.2 hl.log
      rw [hh.testnet] at hr hd
      refine ⟨hr, ?_⟩
      show (command, payload) :: deliveries (handling ++ later) = _
      rw [deliveries, List.filterMap_append, ← deliveries, ← deliveries, hh.deliveries, hd]
      rfl

theorem drop_used {rest b : Bytes} (h : rest <:+ b) : b.drop (b.length - rest.length) = rest := by
  obtain ⟨used, rfl⟩ := h
  simp

/-- Once closed, the node is left without an input buffer. -/
theorem processInputBuffer_closed (env : Environment) {node : Node} {b : Bytes} {more : List Happening}
    (hb : node.inputBuffer = some b) (hlog : (processInputBuffer c env node).log = node.log ++ more) :
    Happening.closed ∈ more ↔ (processInputBuffer c env node).inputBuffer = none := by
  obtain ⟨more', hm⟩ := extends_of_turns (processPackets_turns (c := c) env PACKETS_PER_PROCESS node node.inputBuffer.toBytes)
  obtain rfl : more' = more := List.append_cancel_left (hm.log.symm.trans hlog)
  unfold processInputBuffer
  rw [Option.map_eq_none_iff, hm.input, hb]
  simp

theorem processInputBuffer_spec (env : Environment) {node : Node} {b : Bytes} {more : List Happening}
    (hb : node.inputBuffer = some b) (hlog : (processInputBuffer c env node).log = node.log ++ more)
    (hclosed : Happening.closed ∉ more) :
    (processInputBuffer c env node).testnet = node.testnet ∧
      (processInputBuffer c env node).inputBuffer = some ((frames c node.testnet).taken PACKETS_PER_PROCESS b).2 ∧
      deliveries more = ((frames c node.testnet).taken PACKETS_PER_PROCESS b).1 := by
  obtain ⟨more', hm⟩ := extends_of_turns (processPackets_turns (c := c) env PACKETS_PER_PROCESS node b)
  unfold processInputBuffer at hlog ⊢
  rw [hb] at hlog ⊢
  obtain rfl : more' = more := List.append_cancel_left (hm.log.symm.trans hlog)
  obtain ⟨hr, hd⟩ := processPackets_spec env PACKETS_PER_PROCESS (by simp [hb]) hm hclosed
  refine ⟨hm.testnet, ?_, hd⟩
  dsimp only [toBytes_some, length_some]
  rw [hm.input, if_neg hclosed, hb, Option.map_some, hr,
    drop_used ((frames c node.testnet).taken_suffix PACKETS_PER_PROCESS b)]

/-! ## Chunks -/

/-- The bytes a call takes from the socket. -/
def arrived : Call → Bytes
  | .read (.bytes chunk) => chunk
  | _ => []

/-- The stream as it was cut. -/
def streamOf (steps : List Step) : Bytes := steps.flatMap fun step => arrived step.call

theorem perform_stream {node : Node} {step : Step} {b : Bytes} {more : List Happening} (hb : node.inputBuffer = some b)
    (hlog : (perform c node step).log = node.log ++ more) (hclosed : Happening.closed ∉ more) :
    (perform c node step).testnet = node.testnet ∧ ∃ b', (perform c node step).inputBuffer = some b' ∧
      (frames c node.testnet).Steps (b ++ arrived step.call) (deliveries more) b' := by
  -- calls that only handle
  have hhandling : ∀ node', ReflTransGen (Handling c) { node with sendResults := step.sendResults } node' →
      node'.log = node.log ++ more → node'.testnet = node.testnet ∧ ∃ b', node'.inputBuffer = some b' ∧
        (frames c node.testnet).Steps (b ++ []) (deliveries more) b' := by
    intro node' h hl
    obtain ⟨more', hm⟩ := handled_of_handling h
    obtain rfl : more' = more := List.append_cancel_left (hm.log.symm.trans hl)
    have hi := hm.input
    rw [if_neg hclosed] at hi
    rw [hm.deliveries, List.append_nil]
    exact ⟨hm.testnet, b, hi.trans hb, .refl b⟩
  unfold perform at hlog ⊢
  cases hcall : step.call with
  | connectionThread =>
    simp only [hcall, arrived, List.append_nil] at hlog ⊢
    unfold connectionThread at hlog ⊢
    have hm : more = [] := by
      split at hlog
      · simpa using hlog
      · split at hlog <;> simpa using hlog
    subst hm
    split
    · exact ⟨rfl, b, hb, .refl b⟩
    · split <;> exact ⟨rfl, b, hb, .refl b⟩
  | send str payload h =>
    simp only [hcall] at hlog ⊢
    exact hhandling _ (nodeSend_handling _ str h) hlog
  | read result =>
    simp only [hcall] at hlog ⊢
    have hclose : ∀ node', node'.log = node.log → (nodeClose node').log = node.log ++ more → False := by
      intro node' h h'
      have hnode : (nodeClose node').log = node'.log ++ [.closed] := rfl
      rw [hnode, h] at h'
      rw [← List.append_cancel_left h'] at hclosed
      exact hclosed (List.mem_singleton_self _)
    unfold nodeProcessRead at hlog ⊢
    cases result with
    | bytes chunk =>
      dsimp only at hlog ⊢
      split at hlog
      · exact (hclose _ rfl hlog).elim
      · rename_i hsize
        rw [if_neg hsize]
        obtain ⟨ht, hi, hd⟩ := processInputBuffer_spec step.env rfl hlog hclosed
        refine ⟨ht, _, hi, ?_⟩
        rw [hd]
        have := (frames c node.testnet).taken_steps PACKETS_PER_PROCESS (b ++ chunk)
        simpa [hb, arrived] using this
    | ended => exact (hclose _ rfl hlog).elim
    | error => exact (hclose _ rfl hlog).elim
  | processInputBuffer =>
    simp only [hcall] at hlog ⊢
    have h0 : ({ node with sendResults := step.sendResults } : Node).inputBuffer = some b := hb
    obtain ⟨ht, hi, hd⟩ := processInputBuffer_spec step.env h0 hlog hclosed
    refine ⟨ht, _, hi, ?_⟩
    show (frames c node.testnet).Steps (b ++ []) _ _
    rw [hd, List.append_nil]
    exact Framer.taken_steps _ _ _
  | processVersionAndOutputBuffer =>
    simp only [hcall] at hlog ⊢
    exact hhandling _ (flush_handling _) hlog
  | close =>
    simp only [hcall] at hlog ⊢
    exact hhandling _ (.single .close) hlog

theorem run_stream {steps : List Step} {node : Node} {b : Bytes} {more : List Happening} (hb : node.inputBuffer = some b)
    (hlog : (run c node steps).log = node.log ++ more) (hclosed : Happening.closed ∉ more) :
    (run c node steps).testnet = node.testnet ∧ ∃ b', (run c node steps).inputBuffer = some b' ∧
      (frames c node.testnet).Steps (b ++ streamOf steps) (deliveries more) b' := by
  induction steps generalizing node b more with
  | nil =>
    obtain rfl : more = [] := by simpa [run] using hlog
    refine ⟨rfl, b, hb, ?_⟩
    show (frames c node.testnet).Steps (b ++ []) [] b
    rw [List.append_nil]
    exact .refl b
  | cons step steps ih =>
    obtain ⟨now, hnow, -⟩ := log_grows (perform_moves (c := c) node step)
    obtain ⟨later, hlater, -⟩ := log_grows (run_moves (c := c) (perform c node step) steps)
    have hmore : more = now ++ later := by
      have h : (run c (perform c node step) steps).log = node.log ++ more := hlog
      rw [hlater, hnow, List.append_assoc] at h
      exact (List.append_cancel_left h).symm
    rw [hmore, List.mem_append, not_or] at hclosed
    obtain ⟨ht, b1, hb1, hs1⟩ := perform_stream hb hnow hclosed.1
    obtain ⟨ht', b', hb', hs'⟩ := ih hb1 hlater hclosed.2
    refine ⟨ht'.trans ht, b', hb', ?_⟩
    rw [ht] at hs'
    have hstream : streamOf (step :: steps) = arrived step.call ++ streamOf steps := rfl
    have hd : deliveries (now ++ later) = deliveries now ++ deliveries later := List.filterMap_append
    rw [hstream, hmore, hd, ← List.append_assoc]
    exact (hs1.append _).trans hs'

theorem nodeConnect_log (node : Node) : (nodeConnect node).log = node.log ++ [.connect] := rfl

/-- The log of a connection, from its `NodeConnect` on. -/
theorem run_nodeConnect (node : Node) (steps : List Step) :
    ∃ more, (run c (nodeConnect node) steps).log = (nodeConnect node).log ++ more ∧
      sinceConnect (run c (nodeConnect node) steps).log = more := by
  obtain ⟨more, hlog, hconnect⟩ := log_grows (run_moves (c := c) (nodeConnect node) steps)
  refine ⟨more, hlog, ?_⟩
  rw [hlog, sinceConnect_append _ hconnect, nodeConnect_log, sinceConnect_connect]
  rfl

/-- What has been delivered on a connection that was not closed. -/
theorem connection_stream {steps : List Step} {node : Node}
    (hclosed : Happening.closed ∉ sinceConnect (run c (nodeConnect node) steps).log) :
    (run c (nodeConnect node) steps).testnet = node.testnet ∧
      ∃ b, (run c (nodeConnect node) steps).inputBuffer = some b ∧
        (frames c node.testnet).Steps (streamOf steps) (deliveries (sinceConnect (run c (nodeConnect node) steps).log)) b := by
  obtain ⟨more, hlog, hsince⟩ := run_nodeConnect (c := c) node steps
  rw [hsince] at hclosed ⊢
  have := run_stream (b := []) rfl hlog hclosed
  rwa [List.nil_append] at this

/-- There is nothing left to process: another call leaves the input buffer as it is. -/
def Drained (c : Crypto) (node : Node) : Prop :=
  ∃ env, (processInputBuffer c env node).inputBuffer = node.inputBuffer

theorem Drained.waits {node : Node} {b : Bytes} (h : Drained c node) (hb : node.inputBuffer = some b) :
    (frames c node.testnet).Waits b := by
  obtain ⟨env, h⟩ := h
  obtain ⟨more, hlog, -⟩ := log_grows (processInputBuffer_moves (c := c) env node)
  have hclosed : Happening.closed ∉ more := by
    rw [processInputBuffer_closed env hb hlog, h, hb]
    exact Option.some_ne_none b
  have hi := (processInputBuffer_spec env hb hlog hclosed).2.1
  rw [h, hb] at hi
  exact Framer.waits_of_taken _ (by decide) (Option.some.inj hi).symm

/-- Two connections on one network that were sent the same stream, neither closed and both
    with nothing left to process, have delivered the same. -/
theorem deliveries_of_stream {node node' : Node} {steps steps' : List Step} (hnet : node.testnet = node'.testnet)
    (hstream : streamOf steps = streamOf steps')
    (hopen : Happening.closed ∉ sinceConnect (run c (nodeConnect node) steps).log)
    (hopen' : Happening.closed ∉ sinceConnect (run c (nodeConnect node') steps').log)
    (hdrained : Drained c (run c (nodeConnect node) steps)) (hdrained' : Drained c (run c (nodeConnect node') steps')) :
    deliveries (sinceConnect (run c (nodeConnect node) steps).log) =
      deliveries (sinceConnect (run c (nodeConnect node') steps').log) := by
  obtain ⟨ht, b, hb, hs⟩ := connection_stream hopen
  obtain ⟨ht', b', hb', hs'⟩ := connection_stream hopen'
  have hw := hdrained.waits hb
  have hw' := hdrained'.waits hb'
  rw [ht] at hw
  rw [ht', ← hnet] at hw'
  rw [← hstream, ← hnet] at hs'
  exact (hs.eq_of_waits hs' hw hw').1

/-- A "pong" in one chunk, and in two with a look at the buffer between them. -/
theorem deliveries_of_stream_pong :
    deliveries (sinceConnect (run plainCrypto (nodeConnect (nodeNew false))
        [⟨silent, [], .read (.bytes (packet plainCrypto false pongCommand []))⟩]).log) =
      deliveries (sinceConnect (run plainCrypto (nodeConnect (nodeNew false))
        [⟨silent, [], .read (.bytes ((packet plainCrypto false pongCommand []).take 10))⟩, ⟨silent, [], .processInputBuffer⟩,
          ⟨silent, [], .read (.bytes ((packet plainCrypto false pongCommand []).drop 10))⟩]).log) :=
  deliveries_of_stream rfl (by decide +kernel) (by decide +kernel) (by decide +kernel) ⟨silent, by decide +kernel⟩
    ⟨silent, by decide +kernel⟩

/-! ## What one node frames another reads -/

variable (c)

/-- What `nodeSend` can be given: the name of a command is a C string. -/
structure Packet where
  command : Bytes
  payload : Bytes
  command_ne_nil : command ≠ []
  command_length : command.length ≤ 12
  noNul : (0 : UInt8) ∉ command
  sized : payload.length < 2 ^ 32

def Packet.content (p : Packet) : Bytes × Bytes := (p.command, p.payload)

/-- The packets one behind the other. -/
def framed (testnet : Bool) (packets : List Packet) : Bytes :=
  packets.flatMap fun p => packet c testnet p.command p.payload

theorem field_eq {b pre x post : Bytes} {k n : Nat} (h : b = pre ++ (x ++ post)) (hk : pre.length = k) (hn : x.length = n) :
    (b.drop k).take n = x := by
  subst h hk hn
  rw [List.drop_left, List.take_left]

theorem magicOf_length (testnet : Bool) : (magicOf testnet).length = 4 := by cases testnet <;> rfl

theorem strncpy12_length (str : Bytes) : (strncpy12 str).length = 12 := by
  rw [strncpy12, List.length_take, List.length_append, List.length_replicate]
  omega

theorem checksum_length (payload : Bytes) : (checksum c payload).length = 4 := by
  rw [checksum, List.length_take, c.sha256_length]
  rfl

theorem cString_strncpy12 {str : Bytes} (hlen : str.length ≤ 12) (hnul : (0 : UInt8) ∉ str) : cString (strncpy12 str) = str := by
  have hpad : strncpy12 str = str ++ List.replicate (12 - str.length) 0 := by
    rw [strncpy12, List.take_append, List.take_of_length_le hlen, List.take_replicate]
    congr 2
    omega
  rw [hpad, cString, List.takeWhile_append_of_pos]
  · cases 12 - str.length <;> simp [List.replicate_succ]
  · intro x hx
    simp only [ne_eq, decide_not, Bool.not_eq_true', decide_eq_false_iff_not]
    rintro rfl
    exact hnul hx

/-- A packet at the front is read whole, whatever it carries. -/
theorem frameStep_packet (testnet : Bool) (str : Bytes) {payload : Bytes} (rest : Bytes) (h : payload.length < 2 ^ 32) :
    frameStep c testnet (packet c testnet str payload ++ rest) = some (some (cString (strncpy12 str), payload), rest) := by
  have hm := magicOf_length testnet
  have hs := strncpy12_length str
  have hk := checksum_length c payload
  have hu : (uint32D payload.length).length = 4 := leBytes_length 4 _
  have hb : packet c testnet str payload ++ rest =
      magicOf testnet ++ (strncpy12 str ++ (uint32D payload.length ++ (checksum c payload ++ (payload ++ rest)))) := by
    simp only [packet, packetHeader, List.append_assoc]
  have hlen : (packet c testnet str payload ++ rest).length = 24 + payload.length + rest.length := by
    rw [hb]
    simp only [List.length_append]
    omega
  generalize packet c testnet str payload ++ rest = b at hb hlen
  have h0 : b.take 4 = magicOf testnet := by
    rw [hb]
    exact List.take_left' hm
  have h4 : (b.drop 4).take 12 = strncpy12 str := field_eq hb hm hs
  have h16 : (b.drop 16).take 4 = uint32D payload.length :=
    field_eq (b := b) (by rw [hb, ← List.append_assoc]) (by rw [List.length_append]; omega) hu
  have h20 : (b.drop 20).take 4 = checksum c payload :=
    field_eq (b := b) (by rw [hb, ← List.append_assoc, ← List.append_assoc]) (by simp only [List.length_append]; omega) hk
  have h24 : b.drop 24 = payload ++ rest := by
    rw [hb, ← List.append_assoc, ← List.append_assoc, ← List.append_assoc]
    exact List.drop_left' (by simp only [List.length_append]; omega)
  have hn : leNat (uint32D payload.length) = payload.length := leNat_leBytes 4 _ (by omega)
  unfold frameStep
  rw [if_neg (by omega), h0, if_neg (by simp), h16, hn, h20, h4]
  dsimp only
  rw [if_neg (by omega), h24, List.take_left, if_neg (by simp), ← List.drop_drop, h24, List.drop_left]

theorem taken_framed (testnet : Bool) (limit : Nat) (packets : List Packet) :
    (frames c testnet).taken limit (framed c testnet packets) =
      ((packets.take limit).map Packet.content, framed c testnet (packets.drop limit)) := by
  induction limit generalizing packets with
  | zero => rfl
  | succ limit ih =>
    cases packets with
    | nil =>
      have hwait : (frames c testnet).Waits [] := rfl
      exact Framer.taken_of_waits _ hwait _
    | cons p packets =>
      have hstep := frameStep_packet c testnet p.command (framed c testnet packets) p.sized
      rw [cString_strncpy12 p.command_length p.noNul] at hstep
      show (frames c testnet).taken (limit + 1) (packet c testnet p.command p.payload ++ framed c testnet packets) = _
      rw [Framer.taken_cons _ hstep, ih]
      rfl

variable {c}

/-- As many calls as the limit makes necessary read the packets one by one and leave nothing,
    as long as no handler closes the node. -/
theorem packets_delivered {packets : List Packet} {steps : List Step} {node : Node} {more : List Happening}
    (hb : node.inputBuffer = some (framed c node.testnet packets)) (hsteps : ∀ step ∈ steps, step.call = .processInputBuffer)
    (henough : packets.length ≤ PACKETS_PER_PROCESS * steps.length)
    (hlog : (run c node steps).log = node.log ++ more) (hclosed : Happening.closed ∉ more) :
    deliveries more = packets.map Packet.content ∧ (run c node steps).inputBuffer = some [] := by
  induction steps generalizing packets node more with
  | nil =>
    obtain rfl : packets = [] := List.eq_nil_of_length_eq_zero (by simpa using henough)
    obtain rfl : more = [] := by simpa [run] using hlog
    exact ⟨rfl, hb⟩
  | cons step steps ih =>
    obtain ⟨now, hnow, -⟩ := log_grows (perform_moves (c := c) node step)
    obtain ⟨later, hlater, -⟩ := log_grows (run_moves (c := c) (perform c node step) steps)
    obtain rfl : more = now ++ later := by
      have h : (run c (perform c node step) steps).log = node.log ++ more := hlog
      rw [hlater, hnow, List.append_assoc] at h
      exact (List.append_cancel_left h).symm
    rw [List.mem_append, not_or] at hclosed
    have hcall := hsteps step (by simp)
    have hperform : perform c node step = processInputBuffer c step.env { node with sendResults := step.sendResults } := by
      unfold perform
      rw [hcall]
    rw [hperform] at hnow hlater
    have h0 : ({ node with sendResults := step.sendResults } : Node).inputBuffer = some (framed c node.testnet packets) := hb
    obtain ⟨ht, hi, hd⟩ := processInputBuffer_spec step.env h0 hnow hclosed.1
    generalize processInputBuffer c step.env { node with sendResults := step.sendResults } = next at *
    dsimp only at ht hi hd
    rw [taken_framed] at hi hd
    have hi : next.inputBuffer = some (framed c next.testnet (packets.drop PACKETS_PER_PROCESS)) := by
      rw [ht]
      exact hi
    have hleft : (packets.drop PACKETS_PER_PROCESS).length ≤ PACKETS_PER_PROCESS * steps.length := by
      rw [List.length_cons, Nat.mul_succ] at henough
      rw [List.length_drop]
      omega
    obtain ⟨hd', hi'⟩ := ih hi (fun s hs => hsteps s (List.mem_cons_of_mem _ hs)) hleft hlater hclosed.2
    have hrun : run c node (step :: steps) = run c next steps := by
      rw [← hperform]
      rfl
    refine ⟨?_, by rw [hrun, hi']⟩
    have happ : deliveries (now ++ later) = deliveries now ++ deliveries later := List.filterMap_append
    rw [happ, hd, hd', ← List.map_append, List.take_append_drop]

def pongPacket : Packet := ⟨pongCommand, [], by decide, by decide, by decide, by decide⟩

/-- "tx", carrying the network magic. -/
def magicPacket : Packet := ⟨[0x74, 0x78], mainMagic ++ mainMagic, by decide, by decide, by decide, by decide⟩

/-- An input buffer with the two packets. -/
def magicThenPong : Node :=
  { nodeNew false with inputBuffer := some (framed plainCrypto false [magicPacket, pongPacket]) }

theorem packets_delivered_magic : (run plainCrypto magicThenPong [⟨silent, [], .processInputBuffer⟩]).inputBuffer = some [] := by
  have hlog : (run plainCrypto magicThenPong [⟨silent, [], .processInputBuffer⟩]).log =
      magicThenPong.log ++ [.delivered magicPacket.command magicPacket.payload, .delivered pongCommand []] := by
    decide +kernel
  exact (packets_delivered rfl (by simp) (by decide) hlog (by decide)).2

theorem processPackets_idle (env : Environment) (rounds : Nat) {node : Node} {ptr : Bytes} (hopen : node.inputBuffer ≠ none)
    (hidle : ∀ f ∈ ((frames c node.testnet).taken rounds ptr).1, ∀ node', received c env node' f.1 f.2 = node') :
    (processPackets c env rounds node ptr).1.log =
      node.log ++ ((frames c node.testnet).taken rounds ptr).1.map fun f => .delivered f.1 f.2 := by
  induction rounds generalizing node ptr with
  | zero => simp [processPackets, Framer.taken]
  | succ rounds ih =>
    rw [processPackets_succ c env rounds ptr hopen]
    rw [Framer.taken, frames_step] at hidle ⊢
    rcases hstep : frameStep c node.testnet ptr with _ | ⟨_ | ⟨command, payload⟩, rest⟩
    · simp
    · simp only [hstep, Option.toList_none, List.nil_append] at hidle ⊢
      exact ih hopen hidle
    · simp only [hstep, Option.toList_some, List.singleton_append, List.mem_cons, forall_eq_or_imp, List.map_cons] at hidle ⊢
      have hopen' : (node.happen (.delivered command payload)).inputBuffer ≠ none := hopen
      rw [hidle.1, ih hopen' hidle.2]
      exact List.append_assoc node.log [_] _

theorem processInputBuffer_idle (env : Environment) {node : Node} {packets : List Packet}
    (hb : node.inputBuffer = some (framed c node.testnet packets))
    (hidle : ∀ p ∈ packets, ∀ node', received c env node' p.command p.payload = node') :
    (processInputBuffer c env node).log =
      node.log ++ (packets.take PACKETS_PER_PROCESS).map fun p => .delivered p.command p.payload := by
  have hlog := @processPackets_idle c env PACKETS_PER_PROCESS node (framed c node.testnet packets) (by simp [hb])
    (by
      rw [taken_framed]
      intro f hf node'
      obtain ⟨p, hp, rfl⟩ := List.mem_map.1 hf
      exact hidle p (List.mem_of_mem_take hp) node')
  rw [taken_framed, List.map_map] at hlog
  unfold processInputBuffer
  rw [hb]
  exact hlog

/-- A call delivers at most `PACKETS_PER_PROCESS` packets: of 1001 the last one stays. -/
theorem not_packets_delivered :
    ¬ ∀ (c : Crypto) (env : Environment) (node : Node) (packets : List Packet) (more : List Happening),
      node.inputBuffer = some (framed c node.testnet packets) → (processInputBuffer c env node).log = node.log ++ more →
      Happening.closed ∉ more →
      deliveries more = packets.map Packet.content ∧ (processInputBuffer c env node).inputBuffer = some [] := by
  intro h
  obtain ⟨packets, hpackets⟩ : ∃ packets, packets = List.replicate 1001 pongPacket := ⟨_, rfl⟩
  have hidle : ∀ p ∈ packets, ∀ node', received plainCrypto silent node' p.command p.payload = node' := by
    intro p hp node'
    rw [hpackets] at hp
    rw [List.eq_of_mem_replicate hp]
    rfl
  have hlog := @processInputBuffer_idle plainCrypto silent
    { nodeNew false with inputBuffer := some (framed plainCrypto false packets) } packets rfl hidle
  have hclosed : Happening.closed ∉
      (packets.take PACKETS_PER_PROCESS).map fun p => Happening.delivered p.command p.payload := by
    intro hmem
    obtain ⟨p, -, hp⟩ := List.mem_map.1 hmem
    cases hp
  have hd := (h plainCrypto silent _ packets _ rfl hlog hclosed).1
  have hdel : ∀ l : List Packet, deliveries (l.map fun p => .delivered p.command p.payload) = l.map Packet.content := by
    intro l
    induction l with
    | nil => rfl
    | cons p l ih => exact congrArg (p.content :: ·) ih
  have hlen := congrArg List.length hd
  rw [hdel, List.length_map, List.length_map, List.length_take, hpackets, List.length_replicate] at hlen
  exact absurd hlen (by decide)

end BitcoinSpoon.Connection
