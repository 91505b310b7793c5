/-
  BitcoinSpoon.Manager.Rejects — reject messages, and what the handlers do to the entries of
  `sendTxOnResults` (`code/NodeManager.c`).

  A node that rejects a transaction is to be taken off the entries it was asked about; an
  entry without nodes is reported and dropped. The handlers do not get there. `nodePtrs` is
  stored as a `Datas` and read with `DataGetPtr`, which aborts on it, in `message` and in its
  delayed handler as in `nodeCheckup` and `inventory` when they drop an entry. And
  `DataGetDict` hands the entries that `nodeCheckup` and `tx` look at to the track stack,
  which releases those that stay in the list.

  So a run is as it should be exactly as long as no reject meets a pending entry, no entry is
  dropped but by `tx`, and none is looked at again (`rejectsPrecise_iff`).
-/

import BitcoinSpoon.Loop.Runs
import BitcoinSpoon.Manager.SendTx

namespace BitcoinSpoon.Manager

open Wire Loop Connection

/-! ## The handlers -/

def sizeofPtr : Nat := 8
def sizeofDatas : Nat := 16

/-- The value behind a pointer of `size` bytes; `none` is `abort()`. -/
def dataGetPtr {α : Type} (size : Nat) (value : α) : Option α := if size ≠ sizeofPtr then none else some value

/-- The manager, its entries' memory and the work queue. -/
structure Sending where
  manager : NodeManager
  /-- The entries at the front of the list are back in the heap. -/
  released : Bool
  /-- The calls of `messageWorkerDelayed` that wait: the node and its reject code. -/
  delayed : List (Nat × Nat)
  failure : Option Failure

def Sending.entries (s : Sending) : List PendingResult := s.manager.sendTxOnResults

def Sending.fail (s : Sending) (failure : Failure) : Sending := { s with failure := some failure }

/-- The process goes on. -/
def Sending.running (s : Sending) : Bool := s.failure.isNone && !s.manager.aborted

/-- How often `nodeStillValid` finds the node. -/
def matchCount (self : NodeManager) (node : Nat) : Nat := self.ptrs.count node

/-- The loop of `message`: whether an entry waits for the node. -/
def isAsked (node : Nat) : List PendingResult → Option Bool
  | [] => some false
  | entry :: entries =>
    match dataGetPtr sizeofDatas entry.nodePtrs with
    | none => none
    | some nodePtrs => if nodePtrs.contains node then some true else isAsked node entries

/-- What `received` does when `message` returns 1. -/
def addRejectCode (self : NodeManager) (node : Nat) : NodeManager :=
  self.updatePeer node fun peer => { peer with rejectCodes := peer.rejectCodes + 1 }

def message (s : Sending) (node rejectCode : Nat) : Sending :=
  if s.released && !s.entries.isEmpty then s.fail .usesReleased
  else
    match isAsked node s.entries with
    | none => s.fail .aborts
    | some true => { s with delayed := s.delayed ++ [(node, rejectCode)] }
    | some false => { s with manager := addRejectCode s.manager node }

def messageWorkerDelayed (s : Sending) (node : Nat) : Sending :=
  if matchCount s.manager node = 0 then s
  else if 1 < matchCount s.manager node then s.fail .aborts
  else
    match s.entries with
    | [] => s
    | entry :: _ =>
      if s.released then s.fail .usesReleased
      else
        match dataGetPtr sizeofDatas entry.nodePtrs with
        | none => s.fail .aborts
        -- the first entry is freed before its nodes are read
        | some _ => s.fail .usesReleased

/-- The event comes to the loop over the entries, and there is one. -/
def readsEntries (self : NodeManager) (occasion : Occasion) : Bool :=
  !self.sendTxOnResults.isEmpty &&
    match occasion.event with
    | .nodeCheckup => !(self.bloomFilterNeedsUpdate || occasion.env.failureRateTooHigh) || self.activeNode.isSome
    | .tx _ txUnsafe => (transactionNewIn occasion.env.room txUnsafe).isSome
    | .inventory _ items => items.any fun item => item.1 == InventoryTypeTx && occasion.env.hasTransactionHash item.2
    | _ => false

/-- `DataGetDict` without a `DictUntrack`: what stays in the list is released with the stack. -/
def tracksEntries : Event → Bool
  | .nodeCheckup => true
  | .tx _ _ => true
  | _ => false

variable (c : Crypto)

def occasionStep (s : Sending) (occasion : Occasion) : Sending :=
  let manager := step c s.manager occasion
  if readsEntries s.manager occasion then
    if s.released then s.fail .usesReleased
    else if manager.aborted then { s with manager := manager }.fail .aborts
    else { s with manager := manager, released := tracksEntries occasion.event && !manager.sendTxOnResults.isEmpty }
  else { s with manager := manager, released := s.released && !s.entries.isEmpty }

inductive SendingEvent where
  | manager (occasion : Occasion)
  /-- A "reject" from a node. -/
  | reject (node rejectCode : Nat)
  /-- The first delayed handler runs. -/
  | runDelayed

def sendingStep (s : Sending) (event : SendingEvent) : Sending :=
  if s.running then
    match event with
    | .manager occasion => occasionStep c s occasion
    | .reject node rejectCode => message s node rejectCode
    | .runDelayed =>
      match s.delayed with
      | [] => s
      | (node, _) :: delayed => messageWorkerDelayed { s with delayed := delayed } node
  else s

/-! ## What a reject is for -/

/-- The node was the last one the entry waited for. -/
def isLast (node : Nat) (entry : PendingResult) : Bool := entry.nodePtrs.contains node && (entry.nodePtrs.erase node).isEmpty

/-- The node leaves the entries it was asked about; those that wait for no other are reported
    and dropped. -/
def rejectedBy (self : NodeManager) (node rejectCode : Nat) : NodeManager :=
  { self with
    sendTxOnResults := (self.sendTxOnResults.filter fun entry => !isLast node entry).map fun entry =>
      { entry with nodePtrs := entry.nodePtrs.erase node }
    reports := self.reports ++ (self.sendTxOnResults.filter (isLast node)).flatMap fun entry =>
      Report.of entry rejectCode (some entry.ptr) }

/-- A reject waits for its handler if the node was asked, and counts against the node if not. -/
def rejectReceived (s : Sending) (node rejectCode : Nat) : Sending :=
  if s.entries.any (·.nodePtrs.contains node) then { s with delayed := s.delayed ++ [(node, rejectCode)] }
  else { s with manager := addRejectCode s.manager node }

/-- The handlers do what a reject is for. -/
def Exact (s : Sending) (event : SendingEvent) : Prop :=
  s.running = true →
    match event with
    | .manager _ => True
    | .reject node rejectCode => sendingStep c s event = rejectReceived s node rejectCode
    | .runDelayed =>
      match s.delayed with
      | [] => sendingStep c s event = s
      | (node, rejectCode) :: delayed => sendingStep c s event =
          { s with
            delayed := delayed
            manager := if matchCount s.manager node = 0 then s.manager else rejectedBy s.manager node rejectCode }

structure RejectsPrecise (s : Sending) (events : List SendingEvent) : Prop where
  safe : Throughout (fun s event => some (sendingStep c s event)) (·.failure = none) s events
  exact : Along (fun s event => some (sendingStep c s event)) (Exact c) s events

/-- The entry is dropped through its `nodePtrs`. -/
def dropsEntries (self : NodeManager) (occasion : Occasion) : Bool :=
  match occasion.event with
  | .nodeCheckup => self.sendTxOnResults.any (timedOut occasion.env)
  | .inventory _ items => self.sendTxOnResults.any (isAnnounced (items.map Prod.snd))
  | _ => false

/-- No reject meets an entry, and none is dropped so or looked at again. -/
def LeavesEntries (s : Sending) (event : SendingEvent) : Prop :=
  s.running = true →
    match event with
    | .manager occasion =>
      readsEntries s.manager occasion = true → s.released = false ∧ dropsEntries s.manager occasion = false
    | .reject _ _ => s.entries = []
    | .runDelayed => ∀ call ∈ s.delayed.head?, matchCount s.manager call.1 = 0 ∨ matchCount s.manager call.1 = 1 ∧ s.entries = []

variable {c} {env : Surroundings} {self : NodeManager}

/-! ## Where the process ends -/

theorem dataGetPtr_datas {α : Type} (value : α) : dataGetPtr sizeofDatas value = none := rfl

theorem reportTimeouts_aborted (h : self.aborted = false) :
    (reportTimeouts env self).aborted = self.sendTxOnResults.any (timedOut env) := by
  unfold reportTimeouts
  rw [← List.isSome_find?]
  cases self.sendTxOnResults.find? (timedOut env) with
  | none => exact h
  | some entry => rfl

/-- From the timeouts on, `nodeCheckup` does not come to the entries again. -/
theorem checked_aborted (h : self.aborted = false) :
    (if (reportTimeouts env self).aborted then reportTimeouts env self else checkNodes c env (reportTimeouts env self)).aborted =
      self.sendTxOnResults.any (timedOut env) := by
  split
  · exact reportTimeouts_aborted h
  · exact keepsSends_checkNodes.aborted.trans (reportTimeouts_aborted h)

theorem nodeCheckup_aborted (h : self.aborted = false)
    (hreaches : (!(self.bloomFilterNeedsUpdate || env.failureRateTooHigh) || self.activeNode.isSome) = true) :
    (nodeCheckup c env self).aborted = self.sendTxOnResults.any (timedOut env) := by
  unfold nodeCheckup
  split
  · rename_i hupdate
    rw [hupdate, Bool.not_true, Bool.false_or] at hreaches
    obtain ⟨activeNode, hactive⟩ := Option.isSome_iff_exists.1 hreaches
    rw [hactive]
    exact checked_aborted h
  · exact checked_aborted h

/-- An item of `inventory` reaches an entry. -/
def Reaches (env : Surroundings) (hashes : Datas) (self : NodeManager) (item : Nat × Data) : Prop :=
  (item.1 == InventoryTypeTx && env.hasTransactionHash item.2) = true ∧ self.sendTxOnResults.any (isAnnounced hashes) = true

theorem inventoryItem_aborted (h : self.aborted = false) (ptr : Nat) (hashes : Datas) (item : Nat × Data) :
    ((inventoryItem c env self ptr hashes item.1 item.2).aborted = true ↔ Reaches env hashes self item) ∧
      (inventoryItem c env self ptr hashes item.1 item.2).sendTxOnResults = self.sendTxOnResults := by
  have hnot : ∀ {next : NodeManager}, next.aborted = self.aborted → ¬ Reaches env hashes self item →
      (next.aborted = true ↔ Reaches env hashes self item) := by
    intro next hnext hreaches
    rw [hnext, h]
    exact iff_of_false Bool.false_ne_true hreaches
  unfold inventoryItem
  by_cases hblock : item.1 = InventoryTypeBlock ∨ item.1 = InventoryTypeFilteredBlock
  · have hreaches : ¬ Reaches env hashes self item := by
      rintro ⟨htype, -⟩
      rcases hblock with hblock | hblock <;> simp [hblock, InventoryTypeTx, InventoryTypeBlock, InventoryTypeFilteredBlock] at htype
    rw [if_pos hblock]
    split
    · exact ⟨hnot rfl hreaches, rfl⟩
    · exact ⟨hnot rfl hreaches, rfl⟩
  · rw [if_neg hblock]
    by_cases htx : item.1 = InventoryTypeTx
    · rw [if_pos htx]
      cases hhas : env.hasTransactionHash item.2 with
      | false => exact ⟨hnot rfl fun hreaches => by simp [Reaches, hhas] at hreaches, rfl⟩
      | true =>
        rw [if_pos rfl]
        have hfind : (self.sendTxOnResults.find? (isAnnounced hashes)).isSome = self.sendTxOnResults.any (isAnnounced hashes) :=
          List.isSome_find?
        cases hfound : self.sendTxOnResults.find? (isAnnounced hashes) with
        | none =>
          rw [hfound] at hfind
          exact ⟨hnot rfl fun hreaches => Bool.false_ne_true (hfind.trans hreaches.2), rfl⟩
        | some entry =>
          rw [hfound] at hfind
          exact ⟨iff_of_true rfl ⟨by simp [htx, hhas], hfind.symm⟩, rfl⟩
    · rw [if_neg htx]
      exact ⟨hnot rfl fun hreaches => by simp [Reaches, htx] at hreaches, rfl⟩

theorem inventory_aborted (h : self.aborted = false) (ptr : Nat) (items : List (Nat × Data)) :
    (inventory c env self ptr items).aborted = true ↔ ∃ item ∈ items, Reaches env (items.map Prod.snd) self item := by
  unfold inventory
  rw [foldl_hit (fun self : NodeManager => self.aborted = true) (Reaches env (items.map Prod.snd)) ?_ ?_ items self, h]
  · simp
  · intro self item hreaches
    split
    · assumption
    · rename_i hrunning
      exact (inventoryItem_aborted (Bool.eq_false_iff.2 hrunning) ptr _ item).1.2 hreaches
  · intro self item hreaches
    split
    · exact ⟨Iff.rfl, fun _ => Iff.rfl⟩
    · rename_i hrunning
      obtain ⟨haborted, hentries⟩ := @inventoryItem_aborted c env self (Bool.eq_false_iff.2 hrunning) ptr (items.map Prod.snd) item
      refine ⟨iff_of_false (mt haborted.1 hreaches) hrunning, fun other => ?_⟩
      rw [Reaches, Reaches, hentries]

/-- Where the loop over the entries is reached, the process ends exactly if one is dropped. -/
theorem step_aborted (h : self.aborted = false) {occasion : Occasion} (hreads : readsEntries self occasion = true) :
    (step c self occasion).aborted = dropsEntries self occasion := by
  unfold step
  rw [if_neg (by simp [h])]
  obtain ⟨hentries, hreads⟩ := Bool.and_eq_true_iff.1 hreads
  unfold dropsEntries
  split at hreads
  · rename_i hevent
    rw [hevent]
    exact nodeCheckup_aborted h hreads
  · rename_i node txUnsafe hevent
    rw [hevent]
    obtain ⟨transaction, htransaction⟩ := Option.isSome_iff_exists.1 hreads
    change (receivedTx c occasion.env self node txUnsafe).aborted = false
    rw [receivedTx_eq, htransaction]
    exact h
  · rename_i ptr items hevent
    rw [hevent]
    refine Bool.eq_iff_iff.2 ((inventory_aborted h ptr items).trans ?_)
    obtain ⟨item, hitem, htx⟩ := List.any_eq_true.1 hreads
    exact ⟨fun ⟨_, _, hreaches⟩ => hreaches.2, fun hannounced => ⟨item, hitem, htx, hannounced⟩⟩
  · cases hreads

/-! ## One event -/

variable {s : Sending}

theorem occasionStep_failure (hgood : s.failure = none) (hrunning : s.manager.aborted = false) (occasion : Occasion) :
    (occasionStep c s occasion).failure = none ↔
      (readsEntries s.manager occasion = true → s.released = false ∧ dropsEntries s.manager occasion = false) := by
  unfold occasionStep
  cases hreads : readsEntries s.manager occasion with
  | false => exact iff_of_true hgood nofun
  | true =>
    dsimp only
    rw [if_pos rfl, step_aborted hrunning hreads]
    cases hreleased : s.released with
    | true => exact iff_of_false nofun fun h => Bool.false_ne_true (h rfl).1.symm
    | false =>
      cases hdrops : dropsEntries s.manager occasion with
      | true => exact iff_of_false nofun fun h => Bool.false_ne_true (h rfl).2.symm
      | false => exact iff_of_true hgood fun _ => ⟨rfl, rfl⟩

/-- Without an entry the node was asked for nothing, and with one `message` aborts. -/
theorem message_eq (node rejectCode : Nat) :
    (s.entries = [] → message s node rejectCode = { s with manager := addRejectCode s.manager node }) ∧
      (s.entries ≠ [] → (message s node rejectCode).failure ≠ none) := by
  unfold message
  cases s.entries with
  | nil =>
    refine ⟨fun _ => ?_, fun h => absurd rfl h⟩
    rw [List.isEmpty_nil, Bool.not_true, Bool.and_false]
    rfl
  | cons entry entries =>
    refine ⟨nofun, fun _ => ?_⟩
    rw [isAsked, dataGetPtr_datas]
    split <;> exact nofun

theorem messageWorkerDelayed_eq (node : Nat) :
    (matchCount s.manager node = 0 ∨ matchCount s.manager node = 1 ∧ s.entries = [] → messageWorkerDelayed s node = s) ∧
      (¬ (matchCount s.manager node = 0 ∨ matchCount s.manager node = 1 ∧ s.entries = []) →
        (messageWorkerDelayed s node).failure ≠ none) := by
  unfold messageWorkerDelayed
  by_cases hgone : matchCount s.manager node = 0
  · rw [if_pos hgone]
    exact ⟨fun _ => rfl, fun h => absurd (.inl hgone) h⟩
  · rw [if_neg hgone]
    by_cases htwice : 1 < matchCount s.manager node
    · rw [if_pos htwice]
      exact ⟨fun h => by omega, fun _ => nofun⟩
    · rw [if_neg htwice]
      have hone : matchCount s.manager node = 1 := by omega
      cases s.entries with
      | nil => exact ⟨fun _ => rfl, fun h => absurd (.inr ⟨hone, rfl⟩) h⟩
      | cons entry entries =>
        refine ⟨fun h => ?_, fun _ => ?_⟩
        · rcases h with hzero | ⟨-, hnone⟩
          · exact absurd hzero hgone
          · cases hnone
        · dsimp only
          rw [dataGetPtr_datas]
          split <;> exact nofun

theorem sendingStep_failure (hgood : s.failure = none) (event : SendingEvent) :
    (sendingStep c s event).failure = none ↔ LeavesEntries s event := by
  unfold sendingStep LeavesEntries
  cases hrunning : s.running with
  | false => exact iff_of_true hgood nofun
  | true =>
    have haborted : s.manager.aborted = false := by simpa [Sending.running, hgood] using hrunning
    rw [if_pos rfl, imp_iff_right rfl]
    cases event with
    | manager occasion => exact occasionStep_failure hgood haborted occasion
    | reject node rejectCode =>
      by_cases hentries : s.entries = []
      · refine iff_of_true ?_ hentries
        dsimp only
        rw [(message_eq node rejectCode).1 hentries]
        exact hgood
      · exact iff_of_false ((message_eq node rejectCode).2 hentries) hentries
    | runDelayed =>
      dsimp only
      cases hdelayed : s.delayed with
      | nil => exact iff_of_true hgood nofun
      | cons call delayed =>
        have hcall : (∀ first ∈ (call :: delayed).head?, matchCount s.manager first.1 = 0 ∨
            matchCount s.manager first.1 = 1 ∧ s.entries = []) ↔
            (matchCount s.manager call.1 = 0 ∨ matchCount s.manager call.1 = 1 ∧ s.entries = []) := by simp
        rw [hcall]
        have hworker := @messageWorkerDelayed_eq { s with delayed := delayed } call.1
        by_cases hleaves : matchCount s.manager call.1 = 0 ∨ matchCount s.manager call.1 = 1 ∧ s.entries = []
        · refine iff_of_true ?_ hleaves
          dsimp only
          rw [hworker.1 hleaves]
          exact hgood
        · exact iff_of_false (hworker.2 hleaves) hleaves

/-- Without entries there is nothing to reject. -/
theorem rejectedBy_nil {self : NodeManager} (h : self.sendTxOnResults = []) (node rejectCode : Nat) :
    rejectedBy self node rejectCode = self := by
  unfold rejectedBy
  rw [h, List.filter_nil, List.filter_nil, List.map_nil, List.flatMap_nil, List.append_nil, ← h]

theorem exact_of_leavesEntries {event : SendingEvent} (h : LeavesEntries s event) : Exact c s event := by
  intro hrunning
  have hleaves := h hrunning
  unfold sendingStep
  rw [if_pos hrunning]
  cases event with
  | manager occasion => trivial
  | reject node rejectCode =>
    dsimp only at hleaves ⊢
    rw [(message_eq node rejectCode).1 hleaves, rejectReceived, hleaves]
    rfl
  | runDelayed =>
    dsimp only at hleaves ⊢
    cases hdelayed : s.delayed with
    | nil => rfl
    | cons call delayed =>
      dsimp only
      have hcall := hleaves call (by rw [hdelayed]; rfl)
      rw [(@messageWorkerDelayed_eq { s with delayed := delayed } call.1).1 hcall]
      split
      · rfl
      · rename_i hthere
        rcases hcall with hgone | ⟨-, hentries⟩
        · exact absurd hgone hthere
        · rw [rejectedBy_nil hentries]

/-! ## A run -/

/-- From every state: no handler aborts or uses a released entry, and rejects do what they are
    for, exactly when no event does anything to the entries but register them, let `tx` report
    them or look at them for the last time. -/
theorem rejectsPrecise_iff (c : Crypto) {s : Sending} (h : s.failure = none) (events : List SendingEvent) :
    RejectsPrecise c s events ↔ Along (fun s event => some (sendingStep c s event)) LeavesEntries s events := by
  have hsafe : Throughout (fun s event => some (sendingStep c s event)) (·.failure = none) s events ↔
      Along (fun s event => some (sendingStep c s event)) LeavesEntries s events := by
    refine @reached_iff_along _ _ _ (fun s : Sending => s.failure = none) (fun _ => True) LeavesEntries ?_ ?_ _ _ trivial h
    · intro s event next _ hgood hnext
      cases hnext
      exact ⟨trivial, sendingStep_failure hgood event⟩
    · intro s event hnone
      cases hnone
  constructor
  · intro hprecise
    exact hsafe.1 hprecise.safe
  · intro halong
    refine ⟨hsafe.2 halong, ?_⟩
    exact @along_of_inv _ _ _ (fun _ => True) _ _ (fun s event _ hleaves => exact_of_leavesEntries hleaves) (fun _ _ _ _ _ => trivial)
      s events trivial halong

def newPeer (ptr : Nat) : Peer := ⟨ptr, none, nodeNew false, none, 0, 0, 0, 0, false⟩

/-- Two nodes and nothing sent. -/
def twoPeers : Sending := ⟨{ nodeManagerNew false with nodes := [newPeer 1, newPeer 2] }, false, [], none⟩

/-- A transaction has been sent, and one of the two nodes is waited for. -/
def oneSent : Sending :=
  ⟨{ twoPeers.manager with sendTxOnResults := [⟨⟨some [1], some [2], some 7, 0⟩, 0, [1], 0⟩], sends := 1 }, false, [], none⟩

/-- A checkup comes to the entry for the first time, and it has not timed out. -/
theorem rejectsPrecise_oneSent : RejectsPrecise plainCrypto oneSent [.manager ⟨oneNode, .nodeCheckup⟩] :=
  (rejectsPrecise_iff plainCrypto rfl _).2 ⟨fun _ _ => ⟨rfl, by decide +kernel⟩, fun _ _ => trivial⟩

/-- A transaction is sent, and the node that is waited for rejects it. -/
theorem not_rejectsPrecise : ¬ ∀ (c : Crypto) (s : Sending) (events : List SendingEvent), s.failure = none → RejectsPrecise c s events := by
  intro h
  have hprecise := h plainCrypto twoPeers [.manager ⟨oneNode, .sendTx ⟨2, [], [], 0⟩ (some 7) 9⟩, .reject 1 0x40] rfl
  have hend := hprecise.safe _ (List.prefix_refl _) _ rfl
  cases hend

end BitcoinSpoon.Manager
