/-
  BitcoinSpoon.Manager.SendTx — publishing a transaction.

  The loop of `NodeManagerSendTx` over its random half of the nodes has lost its body: no
  node is sent the transaction (`sendTx_queues_nothing`), and the registration behind the
  loop is what it repeats, once for each of the nodes, without the `ptr`
  (`sendTx_registers`). So no call does what is asked of it (`not_reportsOnce`). An entry is
  reported at most once; the callback may be called as often as there are entries
  (`reports_le`).
-/

import BitcoinSpoon.Manager.Nodes
import BitcoinSpoon.Loop.Rules

namespace BitcoinSpoon.Manager

open Wire Loop Connection

variable (c : Crypto)

/-! ## What is asked of a send -/

/-- The transaction is queued to a node. -/
def QueuesTx (before after : NodeManager) (tx : Transaction) : Prop :=
  ∃ (i : Nat) (old new : Peer), before.nodes[i]? = some old ∧ after.nodes[i]? = some new ∧
    ∃ more, new.conn.log = old.conn.log ++ more ∧
      Happening.built txCommand (packet c old.conn.testnet txCommand (transactionData tx)) ∈ more

/-- How often the call `sender` of `NodeManagerSendTx` has been reported about. -/
def reportsOf (self : NodeManager) (sender : Nat) : List Report := self.reports.filter (·.sender = sender)

structure ReportsOnce (env : Surroundings) (manager : NodeManager) (tx : Transaction) (onResult ptr : Nat) : Prop where
  queued : QueuesTx c manager (nodeManagerSendTx c env manager tx (some onResult) ptr) tx
  registered : ∃ entry,
    (nodeManagerSendTx c env manager tx (some onResult) ptr).sendTxOnResults = manager.sendTxOnResults ++ [entry] ∧
      entry.onResult = some onResult ∧ entry.ptr = ptr
  reported : ∀ occasions,
    (reportsOf (run c (nodeManagerSendTx c env manager tx (some onResult) ptr) occasions) manager.sends).length ≤ 1 ∧
      ∀ report ∈ reportsOf (run c (nodeManagerSendTx c env manager tx (some onResult) ptr) occasions) manager.sends,
        report.onResult = onResult ∧ report.ptr = some ptr

/-! ## What a send does -/

variable {c} {env : Surroundings} {self : NodeManager}

/-- A flush builds nothing. -/
theorem flush_built (node : Connection.Node) :
    ∃ more, (processVersionAndOutputBuffer node).log = node.log ++ more ∧ ∀ str pkt, Happening.built str pkt ∉ more := by
  unfold processVersionAndOutputBuffer
  split
  · exact ⟨[], by simp, by simp⟩
  · dsimp only
    split
    · exact ⟨[.passed true (sendLoop node.sendResults node.versionPacket.toBytes).1, .closed],
        List.append_assoc _ _ _, by simp⟩
    · split
      · exact ⟨[.passed true (sendLoop node.sendResults node.versionPacket.toBytes).1], rfl, by simp⟩
      · have hsecond : ∃ bytes, (sendOutputBuffer (sendVersionPacket node).1).1.log =
            (node.log ++ [.passed true (sendLoop node.sendResults node.versionPacket.toBytes).1]) ++ [.passed false bytes] :=
          ⟨_, rfl⟩
        obtain ⟨bytes, hlog⟩ := hsecond
        rw [List.append_assoc] at hlog
        split
        · refine ⟨[.passed true (sendLoop node.sendResults node.versionPacket.toBytes).1, .passed false bytes, .closed],
            ?_, by simp⟩
          show (sendOutputBuffer (sendVersionPacket node).1).1.log ++ [.closed] = _
          rw [hlog, List.append_assoc]
          rfl
        · exact ⟨_, hlog, by simp⟩

/-- `nodeSend` builds the packet it is given and no other. -/
theorem nodeSend_built (node : Connection.Node) (str : Bytes) (payload : Data) :
    ∃ more, (nodeSend c node str payload).log = node.log ++ more ∧ ∀ s pkt, Happening.built s pkt ∈ more → s = str := by
  unfold nodeSend
  split
  · exact ⟨[], by simp, by simp⟩
  · obtain ⟨more, hmore, hnone⟩ := flush_built (queuePacket c node str payload.toBytes)
    have hqueue : (queuePacket c node str payload.toBytes).log =
        node.log ++ [.built str (packet c node.testnet str payload.toBytes)] := by
      unfold queuePacket
      dsimp only
      split
      · rfl
      · split <;> rfl
    refine ⟨.built str (packet c node.testnet str payload.toBytes) :: more, ?_, ?_⟩
    · rw [hmore, hqueue, List.append_assoc]
      rfl
    · intro s pkt hmem
      rcases List.mem_cons.1 hmem with he | hmem
      · cases he
        rfl
      · exact absurd hmem (hnone s pkt)

/-- At most the bloom filter is sent. -/
theorem filter_built (peer : Peer) (bloomFilter : Data) :
    ∃ more, (nodeFilterLoad c (nodeFilterClear c peer) bloomFilter).conn.log = peer.conn.log ++ more ∧
      ∀ str pkt, Happening.built str pkt ∈ more → str = filterclearCommand ∨ str = filterloadCommand := by
  obtain ⟨clear, hclear, hc⟩ := nodeSend_built (c := c) peer.conn filterclearCommand none
  obtain ⟨load, hload, hl⟩ :=
    nodeSend_built (c := c) (nodeSend c peer.conn filterclearCommand none) filterloadCommand bloomFilter
  refine ⟨clear ++ load, ?_, ?_⟩
  · show (nodeSend c (nodeSend c peer.conn filterclearCommand none) filterloadCommand bloomFilter).log = _
    rw [hload, hclear, List.append_assoc]
  · intro str pkt hmem
    rcases List.mem_append.1 hmem with hmem | hmem
    · exact .inl (hc str pkt hmem)
    · exact .inr (hl str pkt hmem)

/-- No node is sent the transaction. -/
theorem sendTx_queues_nothing (env : Surroundings) (self : NodeManager) (tx : Transaction) (onResult : Option Nat)
    (ptr : Nat) : ¬ QueuesTx c self (nodeManagerSendTx c env self tx onResult ptr) tx := by
  rintro ⟨i, old, new, hold, hnew, more, hlog, hmem⟩
  have hnodes : (nodeManagerSendTx c env self tx onResult ptr).nodes =
      if tx.outputs.length = 1 then self.nodes.map fun peer => nodeFilterLoad c (nodeFilterClear c peer) env.bloomFilter
      else self.nodes := rfl
  rw [hnodes] at hnew
  split at hnew
  · rw [List.getElem?_map, hold, Option.map_some, Option.some.injEq] at hnew
    subst hnew
    obtain ⟨built, hbuilt, honly⟩ := filter_built (c := c) old env.bloomFilter
    rw [hbuilt] at hlog
    rw [← List.append_cancel_left hlog] at hmem
    rcases honly _ _ hmem with he | he
    · exact absurd he (by decide)
    · exact absurd he (by decide)
  · rw [hold, Option.some.injEq] at hnew
    subst hnew
    have : more = [] := List.self_eq_append_right.1 hlog
    rw [this] at hmem
    cases hmem

/-- One entry for each of the chosen nodes, none with the `ptr`. -/
theorem sendTx_registers (env : Surroundings) (self : NodeManager) (tx : Transaction) (onResult ptr : Nat) :
    ∃ entries, (nodeManagerSendTx c env self tx (some onResult) ptr).sendTxOnResults = self.sendTxOnResults ++ entries ∧
      entries.length = self.nodes.length / 2 ∧
      ∀ entry ∈ entries, entry.sender = self.sends ∧ entry.onResult = some onResult ∧ entry.ptr = 0 := by
  refine ⟨_, rfl, ?_, ?_⟩
  · rw [Option.isSome_some, if_pos rfl, List.length_map, List.length_take, (env.shuffle_perm _).length_eq, NodeManager.ptrs,
      List.length_map]
    omega
  · intro entry hentry
    rw [Option.isSome_some, if_pos rfl] at hentry
    obtain ⟨_, -, rfl⟩ := List.mem_map.1 hentry
    exact ⟨rfl, rfl, rfl⟩

/-! ## How often a send is reported -/

/-- The entries of the call `sender` that wait for a report. -/
def entriesOf (self : NodeManager) (sender : Nat) : List PendingResult := self.sendTxOnResults.filter (·.sender = sender)

/-- The reports about a call, and those that can still come. -/
def account (self : NodeManager) (sender : Nat) : Nat :=
  (reportsOf self sender).length + if self.aborted then 0 else (entriesOf self sender).length

/-- Between `self` and `next` nothing is added to the account of a call made before or still
    to be made. -/
def Settles (self next : NodeManager) : Prop :=
  self.sends ≤ next.sends ∧
    ∀ sender, sender < self.sends ∨ next.sends ≤ sender → account next sender ≤ account self sender

theorem Settles.trans {a b d : NodeManager} (h : Settles a b) (h' : Settles b d) : Settles a d := by
  refine ⟨h.1.trans h'.1, fun sender hs => ?_⟩
  rcases hs with hs | hs
  · exact (h'.2 sender (.inl (hs.trans_le h.1))).trans (h.2 sender (.inl hs))
  · exact (h'.2 sender (.inr hs)).trans (h.2 sender (.inr (h'.1.trans hs)))

variable {next : NodeManager}

theorem settles_of_same (hentries : next.sendTxOnResults = self.sendTxOnResults) (hreports : next.reports = self.reports)
    (hsends : next.sends = self.sends) (haborted : self.aborted = true → next.aborted = true) : Settles self next := by
  refine ⟨hsends.ge, fun sender _ => ?_⟩
  unfold account reportsOf entriesOf
  rw [hentries, hreports]
  cases hs : self.aborted with
  | true => rw [haborted hs]
  | false =>
    cases next.aborted with
    | true => simp
    | false => exact Nat.le_refl _

theorem Settles.refl (self : NodeManager) : Settles self self := settles_of_same rfl rfl rfl id

theorem report_of_length (entry : PendingResult) (result : Nat) (ptr : Option Nat) (sender : Nat) :
    ((Report.of entry result ptr).filter (·.sender = sender)).length ≤ if entry.sender = sender then 1 else 0 := by
  unfold Report.of
  cases entry.onResult with
  | none => simp
  | some onResult =>
    rw [Option.map_some, Option.toList_some, List.filter_singleton]
    by_cases h : entry.sender = sender
    · simp [h]
    · simp [h]

/-- The last report before the process ends is about an entry that waits. -/
theorem settles_of_last (hrunning : self.aborted = false) {entry : PendingResult} (hentry : entry ∈ self.sendTxOnResults)
    (result : Nat) (ptr : Option Nat) :
    Settles self { self with reports := self.reports ++ Report.of entry result ptr }.abort := by
  refine ⟨Nat.le_refl _, fun sender _ => ?_⟩
  have hreport := report_of_length entry result ptr sender
  show (List.filter _ (self.reports ++ Report.of entry result ptr)).length + 0 ≤ _
  unfold account reportsOf entriesOf
  rw [List.filter_append, List.length_append, hrunning]
  by_cases h : entry.sender = sender
  · rw [if_pos h] at hreport
    have hwaits : 0 < (self.sendTxOnResults.filter (·.sender = sender)).length :=
      List.length_pos_of_mem (List.mem_filter.2 ⟨hentry, by simpa using h⟩)
    simp only [Bool.false_eq_true, if_false]
    omega
  · rw [if_neg h] at hreport
    omega

/-- An entry is either reported or left. -/
theorem reported_add_left (p : PendingResult → Bool) (result sender : Nat) (entries : List PendingResult) :
    (((entries.filter p).flatMap fun entry => Report.of entry result (some entry.ptr)).filter (·.sender = sender)).length +
        ((entries.filter fun entry => !p entry).filter (·.sender = sender)).length ≤
      (entries.filter (·.sender = sender)).length := by
  induction entries with
  | nil => exact Nat.le_refl _
  | cons entry entries ih =>
    have hreport := report_of_length entry result (some entry.ptr) sender
    have hcount : ((entry :: entries).filter (·.sender = sender)).length =
        (if entry.sender = sender then 1 else 0) + (entries.filter (·.sender = sender)).length := by
      by_cases h : entry.sender = sender
      · rw [List.filter_cons_of_pos (by simpa using h), if_pos h, List.length_cons, Nat.add_comm]
      · rw [List.filter_cons_of_neg (by simpa using h), if_neg h, Nat.zero_add]
    cases hp : p entry with
    | true =>
      rw [List.filter_cons_of_pos hp, List.flatMap_cons, List.filter_append, List.length_append,
        List.filter_cons_of_neg (by simp [hp])]
      omega
    | false =>
      rw [List.filter_cons_of_neg (by simp [hp]), List.filter_cons_of_pos (by simp [hp])]
      by_cases h : entry.sender = sender
      · rw [if_pos h] at hcount
        rw [List.filter_cons_of_pos (by simpa using h), List.length_cons]
        omega
      · rw [List.filter_cons_of_neg (by simpa using h)]
        omega

/-- The entries that `tx` reports are the ones it takes away. -/
theorem settles_receivedTx (hrunning : self.aborted = false) (node : BitcoinSpoon.Node) (txUnsafe : Data) :
    Settles self (receivedTx c env self node txUnsafe) := by
  rw [receivedTx_eq]
  split
  · exact settles_of_same rfl rfl rfl fun _ => rfl
  · rename_i transaction _
    refine ⟨Nat.le_refl _, fun sender _ => ?_⟩
    have hsplit := reported_add_left (fun entry => isWaitingFor c transaction entry.toSendTxOnResult) NodeManagerErrorNone sender
      self.sendTxOnResults
    unfold account reportsOf entriesOf
    dsimp only
    rw [List.filter_append, List.length_append, hrunning]
    simp only [Bool.false_eq_true, if_false]
    omega

/-- A send registers entries of its own. -/
theorem account_sendTx (hrunning : self.aborted = false) (tx : Transaction) (onResult : Option Nat) (ptr sender : Nat) :
    account (nodeManagerSendTx c env self tx onResult ptr) sender ≤
      account self sender + if sender = self.sends then self.nodes.length / 2 else 0 := by
  obtain ⟨entries, hentries, hlength, hsender⟩ :
      ∃ entries, (nodeManagerSendTx c env self tx onResult ptr).sendTxOnResults = self.sendTxOnResults ++ entries ∧
        entries.length ≤ self.nodes.length / 2 ∧ ∀ entry ∈ entries, entry.sender = self.sends := by
    cases onResult with
    | none => exact ⟨[], rfl, Nat.zero_le _, by simp⟩
    | some onResult =>
      obtain ⟨entries, hentries, hlength, hall⟩ := sendTx_registers (c := c) env self tx onResult ptr
      exact ⟨entries, hentries, hlength.le, fun entry he => (hall entry he).1⟩
  have hcount : (entries.filter (·.sender = sender)).length ≤ if sender = self.sends then self.nodes.length / 2 else 0 := by
    by_cases h : sender = self.sends
    · rw [if_pos h]
      exact (List.length_filter_le _ _).trans hlength
    · rw [if_neg h, List.filter_eq_nil_iff.2, List.length_nil]
      intro entry he
      simpa [hsender entry he] using Ne.symm h
  unfold account reportsOf entriesOf
  rw [hentries, List.filter_append, List.length_append]
  show (List.filter _ self.reports).length + (if self.aborted then 0 else _) ≤ _
  rw [hrunning]
  simp only [Bool.false_eq_true, if_false]
  omega

theorem settles_reportTimeouts (hrunning : self.aborted = false) : Settles self (reportTimeouts env self) := by
  unfold reportTimeouts
  split
  · exact .refl self
  · rename_i entry hfound
    exact settles_of_last hrunning (List.mem_of_find?_eq_some hfound) _ _

/-- The operations on the nodes leave the sends alone. -/
structure KeepsSends (old new : NodeManager) : Prop where
  entries : new.sendTxOnResults = old.sendTxOnResults
  reports : new.reports = old.reports
  sends : new.sends = old.sends
  aborted : new.aborted = old.aborted

theorem KeepsSends.settles (h : KeepsSends self next) : Settles self next :=
  settles_of_same h.entries h.reports h.sends fun ha => h.aborted.trans ha

theorem KeepsSends.trans {a b d : NodeManager} (h : KeepsSends a b) (h' : KeepsSends b d) : KeepsSends a d :=
  ⟨h'.entries.trans h.entries, h'.reports.trans h.reports, h'.sends.trans h.sends, h'.aborted.trans h.aborted⟩

theorem keepsSends_changeActiveNode : KeepsSends self (changeActiveNode env self) := by
  unfold changeActiveNode
  split
  · exact ⟨rfl, rfl, rfl, rfl⟩
  · dsimp only
    split <;> exact ⟨rfl, rfl, rfl, rfl⟩

theorem keepsSends_connectNode (info : NodeInfo) : KeepsSends self (connectNode c env self info) := by
  unfold connectNode
  split
  · exact ⟨rfl, rfl, rfl, rfl⟩
  · split <;> exact ⟨rfl, rfl, rfl, rfl⟩

theorem keepsSends_connectNodes : KeepsSends self (nodeManagerConnectNodes c env self) := by
  unfold nodeManagerConnectNodes
  refine foldl_inv (KeepsSends self) ?_ fun tryCount _ next h => ?_
  · split <;> exact ⟨rfl, rfl, rfl, rfl⟩
  · split
    · exact h.trans (keepsSends_connectNode _)
    · exact h

theorem keepsSends_checkNodes : KeepsSends self (checkNodes c env self) := by
  have hchange : ∀ self : NodeManager,
      KeepsSends self (if self.activeNode.all (isSlow env self) then changeActiveNode env self else self) := by
    intro self
    split
    · exact keepsSends_changeActiveNode
    · exact ⟨rfl, rfl, rfl, rfl⟩
  have hsearch : ∀ self : NodeManager,
      KeepsSends self (if self.activeNode.isNone then { self with activeNode := searchActiveNode env self } else self) := by
    intro self
    split <;> exact ⟨rfl, rfl, rfl, rfl⟩
  have hconnect : ∀ (self : NodeManager) (count : Nat),
      KeepsSends self (if count ≠ 0 then nodeManagerConnectNodes c env self else self) := by
    intro self count
    split
    · exact keepsSends_connectNodes
    · exact ⟨rfl, rfl, rfl, rfl⟩
  have hpings : ∀ (self : NodeManager) (nodes : List Peer), KeepsSends self { self with nodes := nodes } :=
    fun _ _ => ⟨rfl, rfl, rfl, rfl⟩
  have hdrop : KeepsSends self
      { self with
        nodes := (dropNodes env self.nodes self.activeNode).1, activeNode := (dropNodes env self.nodes self.activeNode).2 } :=
    ⟨rfl, rfl, rfl, rfl⟩
  exact (((hdrop.trans (hchange _)).trans (hsearch _)).trans (hconnect _ _)).trans (hpings _ _)

theorem settles_nodeCheckup (hrunning : self.aborted = false) : Settles self (nodeCheckup c env self) := by
  have hrest : ∀ self : NodeManager, self.aborted = false →
      Settles self (if (reportTimeouts env self).aborted then reportTimeouts env self
        else checkNodes c env (reportTimeouts env self)) := by
    intro self hrunning
    split
    · exact settles_reportTimeouts hrunning
    · exact (settles_reportTimeouts hrunning).trans keepsSends_checkNodes.settles
  unfold nodeCheckup
  split
  · split
    · exact settles_of_same rfl rfl rfl fun _ => rfl
    · rename_i activeNode _
      have hclosed : Settles self
          { self.updatePeer activeNode fun peer => { peer with conn := Connection.nodeClose peer.conn } with
            bloomFilter := env.bloomFilter, bloomFilterNeedsUpdate := false } := settles_of_same rfl rfl rfl id
      exact hclosed.trans (hrest _ hrunning)
  · exact hrest self hrunning

theorem settles_inventory (ptr : Nat) (items : List (Nat × Data)) :
    Settles self (inventory c env self ptr items) := by
  unfold inventory
  refine foldl_inv (Settles self) (.refl self) fun item _ next h => ?_
  split
  · exact h
  · rename_i hnext
    refine h.trans ?_
    have hsame : ∀ change, Settles next (next.updatePeer ptr change) := fun _ => settles_of_same rfl rfl rfl id
    unfold inventoryItem
    split
    · split
      · exact hsame _
      · exact .refl next
    · split
      · split
        · split
          · exact .refl next
          · rename_i entry hfound
            exact settles_of_last (by simpa using hnext) (List.mem_of_find?_eq_some hfound) _ _
        · exact hsame _
      · exact .refl next

/-! ## A run -/

theorem settles_step (occasion : Occasion) : Settles self (step c self occasion) := by
  unfold step
  split
  · exact .refl self
  · rename_i ha
    have hrunning : self.aborted = false := by simpa using ha
    cases occasion.event with
    | connectNodes => exact keepsSends_connectNodes.settles
    | setActiveNodeIfNone =>
      show Settles self (setActiveNodeIfNone occasion.env self)
      unfold setActiveNodeIfNone
      split
      · exact .refl self
      · exact settles_of_same rfl rfl rfl id
    | changeActiveNode => exact keepsSends_changeActiveNode.settles
    | nodeCheckup => exact settles_nodeCheckup hrunning
    | disconnectAll => exact settles_of_same rfl rfl rfl id
    | sendTx tx onResult ptr =>
      refine ⟨Nat.le_succ _, fun sender hs => (account_sendTx hrunning tx onResult ptr sender).trans ?_⟩
      have hne : sender ≠ self.sends := by
        rcases hs with hs | hs
        · exact hs.ne
        · exact (Nat.lt_of_succ_le hs).ne'
      rw [if_neg hne, Nat.add_zero]
    | tx node txUnsafe => exact settles_receivedTx hrunning node txUnsafe
    | inventory ptr items => exact settles_inventory ptr items
    | node ptr change => exact settles_of_same rfl rfl rfl id

theorem settles_run (self : NodeManager) (occasions : List Occasion) : Settles self (run c self occasions) :=
  foldl_inv (Settles self) (.refl self) fun occasion _ _ h => h.trans (settles_step occasion)

/-- In every run of a manager, a call of `NodeManagerSendTx` is reported at most once for each node
    of the half it has chosen. -/
theorem reports_le (testnet : Bool) (before later : List Occasion) (env : Surroundings) (tx : Transaction) (onResult ptr : Nat)
    (hrunning : (run c (nodeManagerNew testnet) before).aborted = false) :
    (reportsOf (run c (nodeManagerSendTx c env (run c (nodeManagerNew testnet) before) tx (some onResult) ptr) later)
        (run c (nodeManagerNew testnet) before).sends).length ≤
      (run c (nodeManagerNew testnet) before).nodes.length / 2 := by
  generalize hself : run c (nodeManagerNew testnet) before = self at hrunning
  -- nothing is on the account of a call that is still to be made
  have hfresh : account self self.sends = 0 := by
    have h := (settles_run (c := c) (nodeManagerNew testnet) before).2 self.sends (.inr (by rw [hself]))
    rw [hself] at h
    exact Nat.le_zero.1 h
  have hsend : account (nodeManagerSendTx c env self tx (some onResult) ptr) self.sends ≤ 0 + self.nodes.length / 2 := by
    have h := @account_sendTx c env self hrunning tx (some onResult) ptr self.sends
    rwa [hfresh, if_pos rfl] at h
  rw [Nat.zero_add] at hsend
  have hlater := (settles_run (c := c) (nodeManagerSendTx c env self tx (some onResult) ptr) later).2 self.sends
    (.inl (Nat.lt_succ_self _))
  exact (Nat.le_add_right _ _).trans (hlater.trans hsend)

/-- No call queues its transaction, registers itself once and is reported once, whatever the
    nodes. -/
theorem not_reportsOnce (c : Crypto) (env : Surroundings) (self : NodeManager) (tx : Transaction) (onResult ptr : Nat) :
    ¬ ReportsOnce c env self tx onResult ptr := by
  intro h
  exact sendTx_queues_nothing env self tx (some onResult) ptr h.queued

/-- One node is connected. -/
theorem not_reportsOnce_connected :
    ¬ ∀ (c : Crypto) (env : Surroundings) (self : NodeManager) (tx : Transaction) (onResult ptr : Nat),
      self.nodes ≠ [] → ReportsOnce c env self tx onResult ptr := by
  intro h
  have hsent := h plainCrypto oneNode (run plainCrypto (nodeManagerNew false) [⟨oneNode, .connectNodes⟩]) ⟨2, [], [], 0⟩ 1 2
    (List.ne_nil_of_length_pos (by decide +kernel))
  exact sendTx_queues_nothing oneNode _ _ _ 2 hsent.queued

end BitcoinSpoon.Manager
