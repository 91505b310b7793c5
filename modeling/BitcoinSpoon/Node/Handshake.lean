/-
  BitcoinSpoon.Node.Handshake — what goes over a connection before the "verack".

  `processVersionAndOutputBuffer` holds `outputBuffer` back until `verackSent`. Neither
  `NodeConnect`, `NodeReset` nor `NodeClose` takes the flag back, so a node that is
  connected once more passes its packets at once (`not_handshakeFirst`). As long as no
  node is connected that has sent a "verack" before, nothing but version packets goes in
  front of the "verack" (`handshakeFirst`).
-/

import BitcoinSpoon.Node.Outgoing

namespace BitcoinSpoon.Connection

open Wire Relation

variable (c : Crypto)

/-! ## Runs with reconnects -/

inductive Event where
  | connect
  | step (step : Step)

def occur (node : Node) : Event → Node
  | .connect => nodeConnect node
  | .step step => perform c node step

def history (node : Node) (events : List Event) : Node := events.foldl (occur c) node

/-- Whenever `NodeConnect` is called, `verackSent` is 0. -/
def FreshConnects : Node → List Event → Prop
  | _, [] => True
  | node, .connect :: events => node.verackSent = false ∧ FreshConnects (nodeConnect node) events
  | node, .step step :: events => FreshConnects (perform c node step) events

def verackBuilt (log : List Happening) : Bool :=
  log.any fun
    | .built str _ => str = verackCommand
    | _ => false

def versionPackets (log : List Happening) : List Bytes :=
  log.filterMap fun
    | .built str packet => if str = versionCommand then some packet else none
    | _ => none

/-- At every moment: until a verack packet has been put in front of `outputBuffer` on the
    connection, what was passed on it is the front of the version packets built on it. -/
def HandshakeFirst (log : List Happening) : Prop :=
  ∀ before, before <+: log → verackBuilt (sinceConnect before) = false →
    wire (sinceConnect before) <+: (versionPackets (sinceConnect before)).flatten

/-! ## The gate -/

theorem verackBuilt_append (log more : List Happening) : verackBuilt (log ++ more) = (verackBuilt log || verackBuilt more) :=
  List.any_append

theorem versionPackets_append (log more : List Happening) :
    versionPackets (log ++ more) = versionPackets log ++ versionPackets more := List.filterMap_append

/-- Until the verack: the version packets built have been passed, or wait to be, or the
    node is closed. -/
inductive Greeting (node : Node) (since : List Happening) : Prop
  | greeted : verackBuilt since = true → Greeting node since
  | greeting : node.verackSent = false → wire since ++ node.versionPacket.toBytes = (versionPackets since).flatten →
      Greeting node since
  | lost : node.verackSent = false → node.connected = false → node.connectThread = none →
      wire since <+: (versionPackets since).flatten → Greeting node since

variable {c} {node node' : Node} {since : List Happening}

theorem Greeting.passed (h : Greeting node since) (hv : verackBuilt since = false) :
    wire since <+: (versionPackets since).flatten := by
  cases h with
  | greeted h => rw [hv] at h; cases h
  | greeting _ h => exact ⟨_, h⟩
  | lost _ _ _ h => exact h

theorem Greeting.queue (h : Greeting node since) (str payload : Bytes) :
    Greeting (queuePacket c node str payload) (since ++ [.built str (packet c node.testnet str payload)]) := by
  by_cases hverack : str = verackCommand
  · refine .greeted ?_
    rw [verackBuilt_append, Bool.or_eq_true]
    exact .inr (by simp [verackBuilt, hverack])
  have hwire : wire (since ++ [.built str (packet c node.testnet str payload)]) = wire since := by
    rw [wire_append]
    exact List.append_nil _
  have hsame : (queuePacket c node str payload).verackSent = node.verackSent ∧
      (queuePacket c node str payload).connected = node.connected ∧
      (queuePacket c node str payload).connectThread = node.connectThread := by
    unfold queuePacket
    rw [if_neg hverack]
    split <;> exact ⟨rfl, rfl, rfl⟩
  obtain ⟨hs, hc, ht⟩ := hsame
  cases h with
  | greeted h =>
    refine .greeted ?_
    rw [verackBuilt_append, h, Bool.true_or]
  | greeting hsent h =>
    refine .greeting (hs.trans hsent) ?_
    rw [hwire, versionPackets_append]
    unfold queuePacket
    rw [if_neg hverack]
    by_cases hversion : str = versionCommand
    · have hnew : versionPackets [.built str (packet c node.testnet str payload)] = [packet c node.testnet str payload] := by
        simp [versionPackets, hversion]
      rw [if_pos hversion, hnew, List.flatten_append, ← h, List.flatten_singleton]
      show wire since ++ (node.versionPacket.toBytes ++ packetHeader c node.testnet str payload ++ payload) =
        wire since ++ node.versionPacket.toBytes ++ (packetHeader c node.testnet str payload ++ payload)
      simp only [List.append_assoc]
    · have hnew : versionPackets [.built str (packet c node.testnet str payload)] = [] := by
        simp [versionPackets, hversion]
      rw [if_neg hversion, hnew, List.append_nil]
      exact h
  | lost hsent hconn hthread h =>
    refine .lost (hs.trans hsent) (hc.trans hconn) (ht.trans hthread) ?_
    rw [hwire, versionPackets_append, List.flatten_append]
    exact h.trans (List.prefix_append _ _)

/-- Something that is neither built nor passed has happened. -/
theorem Greeting.note (h : Greeting node since) {happening : Happening} (hp : versionPackets [happening] = [])
    (hw : wire [happening] = []) :
    Greeting (node.happen happening) (since ++ [happening]) := by
  cases h with
  | greeted h => exact .greeted (by rw [verackBuilt_append, h, Bool.true_or])
  | greeting hsent h =>
    refine .greeting hsent ?_
    rw [wire_append, versionPackets_append, hw, hp, List.append_nil, List.append_nil]
    exact h
  | lost hsent hconn hthread h =>
    refine .lost hsent hconn hthread ?_
    rw [wire_append, versionPackets_append, hw, hp, List.append_nil, List.append_nil]
    exact h

theorem Greeting.of_same (h : Greeting node since) (hs : node'.verackSent = node.verackSent)
    (hv : node'.versionPacket = node.versionPacket) (hc : node'.connected = node.connected)
    (ht : node'.connectThread = node.connectThread) : Greeting node' since := by
  cases h with
  | greeted h => exact .greeted h
  | greeting hsent h => exact .greeting (hs.trans hsent) (by rw [hv]; exact h)
  | lost hsent hconn hthread h => exact .lost (hs.trans hsent) (hc.trans hconn) (ht.trans hthread) h

/-- The handler's part. -/
theorem Greeting.handling (h : Greeting node since) (hh : Handling c node node') :
    ∃ more, node'.log = node.log ++ more ∧ more.length ≤ 1 ∧ Happening.connect ∉ more ∧ Greeting node' (since ++ more) := by
  cases hh with
  | queue str payload _ _ =>
    refine ⟨[.built str (packet c node.testnet str payload)], ?_, Nat.le_refl _, by simp, h.queue str payload⟩
    unfold queuePacket
    dsimp only
    split
    · rfl
    · split <;> rfl
  | passVersion hc =>
    refine ⟨[.passed true (sendLoop node.sendResults node.versionPacket.toBytes).1], rfl, Nat.le_refl _, by simp, ?_⟩
    cases h with
    | greeted h => exact .greeted (by rw [verackBuilt_append, h, Bool.true_or])
    | greeting hsent h =>
      refine .greeting hsent ?_
      rw [← queued_append node.sendResults node.versionPacket, ← List.append_assoc] at h
      have hp : versionPackets [.passed true (sendLoop node.sendResults node.versionPacket.toBytes).1] = [] := rfl
      have hw : wire [.passed true (sendLoop node.sendResults node.versionPacket.toBytes).1] =
          (sendLoop node.sendResults node.versionPacket.toBytes).1 := List.append_nil _
      rw [wire_append, versionPackets_append, hp, hw, List.append_nil]
      exact h
    | lost _ hconn _ _ => rw [hc] at hconn; cases hconn
  | passOutput hc hv hs =>
    refine ⟨[.passed false (sendLoop node.sendResults node.outputBuffer.toBytes).1], rfl, Nat.le_refl _, by simp, ?_⟩
    cases h with
    | greeted h => exact .greeted (by rw [verackBuilt_append, h, Bool.true_or])
    | greeting hsent _ => rw [hs] at hsent; cases hsent
    | lost hsent _ _ _ => rw [hs] at hsent; cases hsent
  | close =>
    refine ⟨[.closed], rfl, Nat.le_refl _, by simp, ?_⟩
    by_cases hv : verackBuilt since = true
    · exact .greeted (by rw [verackBuilt_append, hv, Bool.true_or])
    · have hp := h.passed (by simpa using hv)
      have hsent : node.verackSent = false := by
        cases h with
        | greeted h => exact absurd h hv
        | greeting h _ => exact h
        | lost h _ _ _ => exact h
      refine .lost hsent rfl rfl ?_
      have hw : wire (since ++ [.closed]) = wire since := by rw [wire_append]; exact List.append_nil _
      have hvp : versionPackets (since ++ [.closed]) = versionPackets since := by
        rw [versionPackets_append]
        exact List.append_nil _
      rw [hw, hvp]
      exact hp
  | ready => exact ⟨[], by simp, by simp, by simp, by rw [List.append_nil]; exact h.of_same rfl rfl rfl rfl⟩

theorem Greeting.move (h : Greeting node since) (hm : Move c node node') :
    ∃ more, node'.log = node.log ++ more ∧ more.length ≤ 1 ∧ Happening.connect ∉ more ∧ Greeting node' (since ++ more) := by
  have hsame : ∀ node', node'.log = node.log → Greeting node' since →
      ∃ more, node'.log = node.log ++ more ∧ more.length ≤ 1 ∧ Happening.connect ∉ more ∧ Greeting node' (since ++ more) :=
    fun node' hl hg => ⟨[], by simp [hl], by simp, by simp, by rw [List.append_nil]; exact hg⟩
  cases hm with
  | turn ht =>
    cases ht with
    | handling hh => exact h.handling hh
    | delivered command payload => exact ⟨[_], rfl, Nat.le_refl _, by simp, h.note rfl rfl⟩
    | readReleased => exact ⟨[_], rfl, Nat.le_refl _, by simp, h.note rfl rfl⟩
  | input inputBuffer => exact hsame _ rfl (h.of_same rfl rfl rfl rfl)
  | answers sendResults => exact hsame _ rfl (h.of_same rfl rfl rfl rfl)
  | connectionThread =>
    unfold connectionThread
    split
    · exact hsame _ rfl h
    · rename_i attempt hthread
      have hconnecting : ∀ node', node'.log = node.log → node'.verackSent = node.verackSent →
          node'.versionPacket = node.versionPacket → Greeting node' since := by
        intro node' _ hs hv
        cases h with
        | greeted h => exact .greeted h
        | greeting hsent h => exact .greeting (hs.trans hsent) (by rw [hv]; exact h)
        | lost _ _ hnone _ => rw [hthread] at hnone; cases hnone
      split
      · exact hsame _ rfl (hconnecting _ rfl rfl rfl)
      · exact hsame _ rfl (hconnecting _ rfl rfl rfl)

/-- What the log is to keep: everything so far went in order. -/
def Greeted (node : Node) : Prop := Greeting node (sinceConnect node.log) ∧ HandshakeFirst node.log

theorem handshakeFirst_append {log more : List Happening} (h : HandshakeFirst log) (hone : more.length ≤ 1)
    (hall : verackBuilt (sinceConnect (log ++ more)) = false →
      wire (sinceConnect (log ++ more)) <+: (versionPackets (sinceConnect (log ++ more))).flatten) :
    HandshakeFirst (log ++ more) := by
  intro before hb
  match more, hone with
  | [], _ =>
    rw [List.append_nil] at hb
    exact h before hb
  | [x], _ =>
    rcases List.prefix_concat_iff.1 hb with rfl | hb
    · exact hall
    · exact h before hb

theorem Greeted.move (h : Greeted node) (hm : Move c node node') : Greeted node' := by
  obtain ⟨more, hlog, hone, hconnect, hg⟩ := h.1.move hm
  rw [← sinceConnect_append _ hconnect, ← hlog] at hg
  refine ⟨hg, ?_⟩
  rw [hlog] at hg ⊢
  exact handshakeFirst_append h.2 hone hg.passed

theorem Greeted.moves (h : Greeted node) (hm : ReflTransGen (Move c) node node') : Greeted node' := by
  induction hm with
  | refl => exact h
  | tail _ hm ih => exact ih.move hm

theorem Greeted.connect (h : Greeted node) (hfresh : node.verackSent = false) : Greeted (nodeConnect node) := by
  have hg : Greeting (nodeConnect node) (sinceConnect (nodeConnect node).log) := by
    rw [nodeConnect_log, sinceConnect_connect]
    exact .greeting hfresh rfl
  refine ⟨hg, ?_⟩
  rw [nodeConnect_log] at hg ⊢
  exact handshakeFirst_append h.2 (Nat.le_refl _) hg.passed

theorem Greeted.history {events : List Event} (h : Greeted node) (hfresh : FreshConnects c node events) :
    Greeted (history c node events) := by
  induction events generalizing node with
  | nil => exact h
  | cons event events ih =>
    cases event with
    | connect => exact ih (h.connect hfresh.1) hfresh.2
    | step step => exact ih (h.moves (perform_moves node step)) hfresh

/-- In every run of a node in which `NodeConnect` is never called with `verackSent` set. -/
theorem handshakeFirst {testnet : Bool} {events : List Event} (hfresh : FreshConnects c (nodeNew testnet) events) :
    HandshakeFirst (history c (nodeNew testnet) events).log := by
  have h0 : Greeted (nodeNew testnet) := by
    refine ⟨.greeting rfl rfl, ?_⟩
    intro before hb _
    rw [List.prefix_nil.1 hb]
    exact List.prefix_refl _
  exact (h0.history hfresh).2

theorem handshakeFirst_once :
    HandshakeFirst (history plainCrypto (nodeNew false) (.connect :: handshake.map .step)).log :=
  handshakeFirst ⟨rfl, trivial⟩

/-- A node that has sent its "verack", is closed, connected once more and sends a "tx". -/
def secondConnection : List Event :=
  [.connect, .step ⟨silent, [], .connectionThread⟩, .step ⟨silent, [], .read (.bytes versionMessage)⟩,
    .step ⟨silent, [], .close⟩, .connect, .step ⟨silent, [], .connectionThread⟩,
    .step ⟨silent, [.sent 25], .send [0x74, 0x78] (some [0x01]) oneByte_sized⟩]

theorem not_handshakeFirst :
    ¬ ∀ (c : Crypto) (testnet : Bool) (events : List Event), HandshakeFirst (history c (nodeNew testnet) events).log := by
  intro h
  have hfirst := h plainCrypto false secondConnection _ (List.prefix_refl _) (by decide +kernel)
  have hversions : versionPackets (sinceConnect (history plainCrypto (nodeNew false) secondConnection).log) = [] := by
    decide +kernel
  rw [hversions] at hfirst
  have hwire : (wire (sinceConnect (history plainCrypto (nodeNew false) secondConnection).log)).length = 25 := by
    decide +kernel
  rw [List.prefix_nil.1 hfirst] at hwire
  cases hwire

end BitcoinSpoon.Connection
