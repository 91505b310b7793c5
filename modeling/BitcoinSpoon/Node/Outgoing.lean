/-
  BitcoinSpoon.Node.Outgoing — the outgoing stream of a connection.

  Packets wait in two buffers: `versionPacket`, which is passed first, and `outputBuffer`.
  The stream is whole packets and a part of the one under way (`Outgoing`). "verack" goes to
  the front of `outputBuffer` and "version" in front of all of it, also when the packet
  under way comes from there and has been passed in part: then the stream is torn
  (`not_tornFree`). It never is when no packet of `outputBuffer` is under way at either of
  the two (`tornFree`).
-/

import BitcoinSpoon.Node.Stream
import BitcoinSpoon.Wire.Queues

namespace BitcoinSpoon.Connection

open Wire Relation

/-! ## The stream of a node -/

/-- The bytes passed are the front of a row of packets, each of them built. -/
def TornFree (log : List Happening) : Prop :=
  ∃ packets : List Bytes, (∀ p ∈ packets, p ∈ builtPackets log) ∧ wire log <+: packets.flatten

/-- No packet of `outputBuffer` is under way: what was passed from there is whole packets. -/
def BetweenPackets (log : List Happening) : Prop := Whole (builtPackets log) (passedFrom false log)

/-- The packets that are put in front of `outputBuffer` are built between packets. -/
def FrontsBetween (log : List Happening) : Prop :=
  ∀ before str packet, before ++ [.built str packet] <+: log → str = verackCommand ∨ str = versionCommand →
    BetweenPackets before

theorem builtPackets_append (log more : List Happening) : builtPackets (log ++ more) = builtPackets log ++ builtPackets more :=
  List.filterMap_append

theorem wire_append (log more : List Happening) : wire (log ++ more) = wire log ++ wire more := List.flatMap_append

theorem passedFrom_append (o : Bool) (log more : List Happening) :
    passedFrom o (log ++ more) = passedFrom o log ++ passedFrom o more := List.flatMap_append

variable {c : Crypto}

/-- A packet that was built is a frame. -/
theorem isFrame_packet (testnet : Bool) (str : Bytes) {payload : Bytes} (h : payload.length < 2 ^ 32) :
    (frames c testnet).IsFrame (packet c testnet str payload) := by
  have hstep := frameStep_packet c testnet str [] h
  rw [List.append_nil] at hstep
  exact ⟨_, hstep⟩

/-- What a flush passes and what it leaves were in the buffer. -/
theorem queued_append (results : List SendResult) (d : Data) :
    (sendLoop results d.toBytes).1 ++ Data.toBytes (d.map fun _ => (sendLoop results d.toBytes).2.1) = d.toBytes := by
  cases d with
  | none => cases results <;> rfl
  | some b => exact sendLoop_append results b

/-- `since` has happened on the connection, and its stream is not torn. -/
structure Streaming (c : Crypto) (base : List Happening) (node : Node) (since : List Happening) : Prop where
  log : node.log = base ++ since
  isFrame : ∀ p ∈ builtPackets since, (frames c node.testnet).IsFrame p
  outgoing : Outgoing (builtPackets since) (wire since) (passedFrom false since) node.versionPacket.toBytes
    node.outputBuffer.toBytes (node.connected = false ∧ node.connectThread = none)
  tornFree : ∀ before, before <+: since → TornFree before

theorem tornFree_of_outgoing {log : List Happening} {passedLast first last : Bytes} {lost : Prop}
    (h : Outgoing (builtPackets log) (wire log) passedLast first last lost) : TornFree log := by
  obtain ⟨rest, packets, hpackets, he⟩ := h.passed_front
  exact ⟨packets, hpackets, rest, he⟩

variable {base since : List Happening} {node node' : Node}

/-- One thing more has happened. -/
theorem Streaming.concat {h : Happening} (hs : Streaming c base node since) (hlog : node'.log = node.log ++ [h])
    (ht : node'.testnet = node.testnet) (hframe : ∀ p ∈ builtPackets [h], (frames c node.testnet).IsFrame p)
    (hout : Outgoing (builtPackets since ++ builtPackets [h]) (wire since ++ wire [h])
      (passedFrom false since ++ passedFrom false [h]) node'.versionPacket.toBytes node'.outputBuffer.toBytes
      (node'.connected = false ∧ node'.connectThread = none)) :
    Streaming c base node' (since ++ [h]) := by
  rw [← builtPackets_append, ← wire_append, ← passedFrom_append] at hout
  refine ⟨by rw [hlog, hs.log, List.append_assoc], ?_, hout, ?_⟩
  · intro p hp
    rw [builtPackets_append] at hp
    rw [ht]
    rcases List.mem_append.1 hp with hp | hp
    · exact hs.isFrame p hp
    · exact hframe p hp
  · intro before hb
    rcases List.prefix_concat_iff.1 hb with rfl | hb
    · exact tornFree_of_outgoing hout
    · exact hs.tornFree before hb

/-- Nothing that the stream depends on has changed. -/
theorem Streaming.of_same (hs : Streaming c base node since) (hlog : node'.log = node.log) (ht : node'.testnet = node.testnet)
    (hv : node'.versionPacket = node.versionPacket) (ho : node'.outputBuffer = node.outputBuffer)
    (hlost : node.connected = false ∧ node.connectThread = none → node'.connected = false ∧ node'.connectThread = none) :
    Streaming c base node' since := by
  refine ⟨hlog.trans hs.log, ?_, ?_, hs.tornFree⟩
  · rw [ht]
    exact hs.isFrame
  · rw [hv, ho]
    exact hs.outgoing.imp hlost

theorem Streaming.queue (h : Streaming c base node since) (str : Bytes) {payload : Bytes} (hsized : payload.length < 2 ^ 32)
    (hbetween : str = verackCommand ∨ str = versionCommand → BetweenPackets since) :
    Streaming c base (queuePacket c node str payload) (since ++ [.built str (packet c node.testnet str payload)]) := by
  have hframe := isFrame_packet (c := c) node.testnet str hsized
  have hsub : builtPackets since ⊆ builtPackets since ++ [packet c node.testnet str payload] := List.subset_append_left _ _
  have hmem : packet c node.testnet str payload ∈ builtPackets since ++ [packet c node.testnet str payload] := by simp
  have hframes : ∀ p ∈ builtPackets since ++ [packet c node.testnet str payload], (frames c node.testnet).IsFrame p := by
    intro p hp
    rcases List.mem_append.1 hp with hp | hp
    · exact h.isFrame p hp
    · rwa [List.mem_singleton.1 hp]
  have hout := h.outgoing.mono hsub
  have hone : ∀ p ∈ builtPackets [.built str (packet c node.testnet str payload)], (frames c node.testnet).IsFrame p := by
    intro p hp
    rwa [List.mem_singleton.1 hp]
  have hnil : Outgoing (builtPackets since ++ [packet c node.testnet str payload]) (wire since ++ wire [.built str []])
      (passedFrom false since ++ passedFrom false [.built str []]) node.versionPacket.toBytes node.outputBuffer.toBytes
      (node.connected = false ∧ node.connectThread = none) := by
    show Outgoing _ (wire since ++ []) (passedFrom false since ++ []) _ _ _
    rwa [List.append_nil, List.append_nil]
  have hwhole (hv : str = verackCommand ∨ str = versionCommand) : Whole (builtPackets since ++ [packet c node.testnet str payload])
      (passedFrom false since ++ passedFrom false [.built str []]) := by
    show Whole _ (passedFrom false since ++ [])
    rw [List.append_nil]
    exact (hbetween hv).mono hsub
  unfold queuePacket
  dsimp only
  split
  · rename_i hv
    refine h.concat rfl rfl hone ?_
    have hfront := hnil.queueFront hframes (hwhole (.inl hv)) hmem
    rw [packet, List.append_assoc] at hfront
    exact hfront
  · split
    · rename_i hv
      refine h.concat rfl rfl hone ?_
      have hfirst := hnil.queueFirst hframes (hwhole (.inr hv)) hmem
      rw [packet, ← List.append_assoc] at hfirst
      exact hfirst
    · refine h.concat rfl rfl hone ?_
      have hlast := hnil.queueLast hmem
      rw [packet, ← List.append_assoc] at hlast
      exact hlast

theorem Streaming.sendVersionPacket (h : Streaming c base node since) (hc : node.connected = true) :
    ∃ bytes, Streaming c base (sendVersionPacket node).1 (since ++ [.passed true bytes]) := by
  refine ⟨(sendLoop node.sendResults node.versionPacket.toBytes).1, h.concat rfl rfl (by simp [builtPackets]) ?_⟩
  have hout := h.outgoing
  rw [← queued_append node.sendResults node.versionPacket] at hout
  have hpass := hout.passFirst (by simp [hc])
  show Outgoing (builtPackets since ++ []) (wire since ++ (_ ++ [])) (passedFrom false since ++ ([] ++ [])) _ _ _
  simp only [List.append_nil]
  exact hpass

theorem Streaming.sendOutputBuffer (h : Streaming c base node since) (hc : node.connected = true)
    (hv : node.versionPacket.length = 0) :
    ∃ bytes, Streaming c base (sendOutputBuffer node).1 (since ++ [.passed false bytes]) := by
  refine ⟨(sendLoop node.sendResults node.outputBuffer.toBytes).1, h.concat rfl rfl (by simp [builtPackets]) ?_⟩
  have hout := h.outgoing
  rw [toBytes_eq_nil.2 hv, ← queued_append node.sendResults node.outputBuffer] at hout
  have hpass := hout.passLast (by simp [hc])
  show Outgoing (builtPackets since ++ []) (wire since ++ (_ ++ [])) (passedFrom false since ++ (_ ++ []))
    node.versionPacket.toBytes _ _
  simp only [List.append_nil, toBytes_eq_nil.2 hv]
  exact hpass

theorem Streaming.nodeClose (h : Streaming c base node since) : Streaming c base (nodeClose node) (since ++ [.closed]) := by
  refine h.concat rfl rfl (by simp [builtPackets]) ?_
  obtain ⟨rest, hrest⟩ := h.outgoing.passed_front
  show Outgoing (builtPackets since ++ []) (wire since ++ []) (passedFrom false since ++ []) _ _ _
  simp only [List.append_nil]
  exact .stopped ⟨rfl, rfl⟩ hrest

theorem Streaming.connectionThread (h : Streaming c base node since) : Streaming c base (connectionThread node) since := by
  unfold Connection.connectionThread
  split
  · exact h
  · rename_i attempt hthread
    have hlost : ¬(node.connected = false ∧ node.connectThread = none) := by simp [hthread]
    split
    · exact h.of_same rfl rfl rfl rfl fun hl => absurd hl hlost
    · exact h.of_same rfl rfl rfl rfl fun hl => absurd hl hlost

/-- Something that is neither built nor passed has happened. -/
theorem Streaming.note (h : Streaming c base node since) {happening : Happening} (hb : builtPackets [happening] = [])
    (hw : wire [happening] = []) (hp : passedFrom false [happening] = []) :
    Streaming c base (node.happen happening) (since ++ [happening]) := by
  refine h.concat rfl rfl (by simp [hb]) ?_
  rw [hb, hw, hp, List.append_nil, List.append_nil, List.append_nil]
  exact h.outgoing

theorem Streaming.move (h : Streaming c base node since) (hm : Move c node node')
    (hfronts : ∀ since', node'.log = base ++ since' → FrontsBetween since') : ∃ since', Streaming c base node' since' := by
  cases hm with
  | turn ht =>
    cases ht with
    | handling hh =>
      cases hh with
      | queue str payload h12 hsized =>
        have hlog : (queuePacket c node str payload).log = node.log ++ [.built str (packet c node.testnet str payload)] := by
          unfold queuePacket
          dsimp only
          split
          · rfl
          · split <;> rfl
        rw [h.log, List.append_assoc] at hlog
        exact ⟨_, h.queue str hsized (hfronts _ hlog since str _ (List.prefix_refl _))⟩
      | passVersion hc =>
        obtain ⟨bytes, hs⟩ := h.sendVersionPacket hc
        exact ⟨_, hs⟩
      | passOutput hc hv _ =>
        obtain ⟨bytes, hs⟩ := h.sendOutputBuffer hc hv
        exact ⟨_, hs⟩
      | close => exact ⟨_, h.nodeClose⟩
      | ready => exact ⟨since, h.of_same rfl rfl rfl rfl id⟩
    | delivered command payload => exact ⟨_, h.note rfl rfl rfl⟩
    | readReleased => exact ⟨_, h.note rfl rfl rfl⟩
  | input inputBuffer => exact ⟨since, h.of_same rfl rfl rfl rfl id⟩
  | answers sendResults => exact ⟨since, h.of_same rfl rfl rfl rfl id⟩
  | connectionThread => exact ⟨since, h.connectionThread⟩

theorem Streaming.moves (h : Streaming c base node since) (hm : ReflTransGen (Move c) node node')
    (hfronts : ∀ since', node'.log = base ++ since' → FrontsBetween since') : ∃ since', Streaming c base node' since' := by
  induction hm with
  | refl => exact ⟨since, h⟩
  | @tail next last hnext hm ih =>
    -- what holds of the longer log holds of the shorter one
    obtain ⟨more, hmore, -⟩ := hm.log
    have hshort : ∀ since', next.log = base ++ since' → FrontsBetween since' := by
      intro since' hlog before str pkt hb
      rw [hlog, List.append_assoc] at hmore
      exact hfronts _ hmore before str pkt (hb.trans (List.prefix_append _ _))
    obtain ⟨since', hs⟩ := ih hshort
    exact hs.move hm hfronts

theorem streaming_nodeConnect (node : Node) : Streaming c (node.log ++ [.connect]) (nodeConnect node) [] := by
  have hempty : ∀ before, before <+: ([] : List Happening) → TornFree before := by
    intro before hb
    rw [List.prefix_nil.1 hb]
    exact ⟨[], by simp, by simp [wire]⟩
  exact ⟨by simp [nodeConnect_log], by simp [builtPackets], .between whole_nil whole_nil whole_nil, hempty⟩

/-- On one connection: when every "verack" and "version" is built between packets of
    `outputBuffer`, what has been passed to the socket is at every moment the front of a row
    of packets that `nodeSend` built. -/
theorem tornFree {steps : List Step} {node : Node}
    (hfronts : FrontsBetween (sinceConnect (run c (nodeConnect node) steps).log)) :
    ∀ before, before <+: sinceConnect (run c (nodeConnect node) steps).log → TornFree before := by
  obtain ⟨more, hlog, hsince⟩ := run_nodeConnect (c := c) node steps
  rw [hsince] at hfronts ⊢
  have hall : ∀ since', (run c (nodeConnect node) steps).log = (node.log ++ [.connect]) ++ since' → FrontsBetween since' := by
    intro since' h
    rw [hlog, nodeConnect_log] at h
    rwa [← List.append_cancel_left h]
  obtain ⟨since', hs⟩ := (streaming_nodeConnect node).moves (run_moves (c := c) _ steps) hall
  have := hs.log
  rw [hlog, nodeConnect_log] at this
  rw [List.append_cancel_left this]
  exact hs.tornFree

/-- Nothing has been passed from `outputBuffer`, so nothing of it is under way. -/
theorem frontsBetween_of_nothing {log : List Happening} (h : passedFrom false log = []) : FrontsBetween log := by
  intro before str pkt hb _
  obtain ⟨rest, rfl⟩ := (List.prefix_append before [Happening.built str pkt]).trans hb
  rw [passedFrom_append] at h
  rw [BetweenPackets, (List.append_eq_nil_iff.1 h).1]
  exact whole_nil

/-- A version message: the header, an empty user agent and the rest. -/
def versionMessage : Bytes := packet plainCrypto false versionCommand (List.replicate 86 0)

/-- The peer's version arrives while our own is half sent. -/
def handshake : List Step :=
  [⟨silent, [], .connectionThread⟩, ⟨silent, [.sent 5], .send versionCommand (some (List.replicate 86 0)) (by decide)⟩,
    ⟨silent, [], .read (.bytes versionMessage)⟩]

theorem tornFree_handshake : TornFree (sinceConnect (run plainCrypto (nodeConnect (nodeNew false)) handshake).log) :=
  tornFree (frontsBetween_of_nothing (by decide +kernel)) _ (List.prefix_refl _)

theorem oneByte_sized : Data.length (some [0x01]) < 2 ^ 32 := by decide

/-- One byte of a "tx" has been passed when the peer sends its version once more. -/
def versionTwice : List Step :=
  [⟨silent, [], .connectionThread⟩, ⟨silent, [.sent 110], .send versionCommand (some (List.replicate 86 0)) (by decide)⟩,
    ⟨silent, [.sent 24], .read (.bytes versionMessage)⟩, ⟨silent, [.sent 1], .send [0x74, 0x78] (some [0x01]) oneByte_sized⟩,
    ⟨silent, [.sent 24, .sent 24], .read (.bytes versionMessage)⟩]

theorem not_tornFree :
    ¬ ∀ (c : Crypto) (node : Node) (steps : List Step), TornFree (sinceConnect (run c (nodeConnect node) steps).log) := by
  intro h
  obtain ⟨packets, hpackets, rest, he⟩ := h plainCrypto (nodeNew false) versionTwice
  have hbuilt : builtPackets (sinceConnect (run plainCrypto (nodeConnect (nodeNew false)) versionTwice).log) =
      [versionMessage, packet plainCrypto false verackCommand [], packet plainCrypto false [0x74, 0x78] [0x01],
        packet plainCrypto false verackCommand []] := by decide +kernel
  have hwire : wire (sinceConnect (run plainCrypto (nodeConnect (nodeNew false)) versionTwice).log) =
      (versionMessage ++ packet plainCrypto false verackCommand []) ++
        (0xf9 :: 0xf9 :: (wire (sinceConnect (run plainCrypto (nodeConnect (nodeNew false)) versionTwice).log)).drop 136) := by
    decide +kernel
  rw [hbuilt] at hpackets
  rw [hwire, List.append_assoc] at he
  have hframes : ∀ p ∈ [versionMessage, packet plainCrypto false verackCommand [],
      packet plainCrypto false [0x74, 0x78] [0x01], packet plainCrypto false verackCommand []],
      (frames plainCrypto false).IsFrame p := by
    intro p hp
    simp only [List.mem_cons, List.not_mem_nil, or_false] at hp
    rcases hp with rfl | rfl | rfl | rfl <;> exact isFrame_packet false _ (by decide)
  -- behind the version and the verack the stream goes on with two first bytes of a packet
  have hwhole := Whole.cancel hframes ((whole_frame (by simp)).append (whole_frame (by simp))) ⟨packets, hpackets, he⟩
  obtain ⟨ps, hps, hstart⟩ := hwhole
  cases ps with
  | nil => cases hstart
  | cons p ps =>
    have hsecond : ∀ p ∈ [versionMessage, packet plainCrypto false verackCommand [],
        packet plainCrypto false [0x74, 0x78] [0x01], packet plainCrypto false verackCommand []], p[1]? = some 0xbe := by
      decide +kernel
    have hp := hsecond p (hps p (by simp))
    have hlen : 1 < p.length := by
      by_contra hle
      rw [List.getElem?_eq_none (by omega)] at hp
      cases hp
    have := congrArg (·[1]?) hstart
    simp only [List.flatten_cons, List.getElem?_append_left hlen, hp] at this
    simp at this

end BitcoinSpoon.Connection
