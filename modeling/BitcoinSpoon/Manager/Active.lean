/-
  BitcoinSpoon.Manager.Active — the active node is one of the nodes.

  Every operation that takes a node away looks after `activeNode`, except
  `NodeManagerDisconnectAll`: it frees all nodes and leaves the pointer
  (`not_activeIsNode`). In a run that disconnects only while no node is active,
  `activeNode` is at every moment NULL or one of the nodes, and in no other
  (`activeIsNode_iff`).
-/

import BitcoinSpoon.Manager.Nodes
import BitcoinSpoon.Loop.Runs
import BitcoinSpoon.Loop.Rules

namespace BitcoinSpoon.Manager

open Wire Loop

/-- `activeNode` is NULL or an element of `nodes`. -/
def ActiveIsNode (self : NodeManager) : Prop := ∀ ptr, self.activeNode = some ptr → ptr ∈ self.ptrs

/-- Nothing is disconnected while a node is active. -/
def DisconnectsIdle (self : NodeManager) (occasion : Occasion) : Prop :=
  match occasion.event with
  | .disconnectAll => self.aborted = false → self.activeNode = none
  | _ => True

variable {c : Crypto} {env : Surroundings} {self next : NodeManager}

/-! ## One operation -/

theorem ActiveIsNode.mono (h : ActiveIsNode self) (hactive : next.activeNode = self.activeNode) (hptrs : self.ptrs ⊆ next.ptrs) :
    ActiveIsNode next := by
  intro ptr hptr
  exact hptrs (h ptr (hactive.symm.trans hptr))

theorem updatePeer_ptrs (self : NodeManager) (ptr : Nat) (change : Peer → Peer) :
    (self.updatePeer ptr change).ptrs = self.ptrs := by
  unfold NodeManager.ptrs NodeManager.updatePeer
  rw [List.map_map]
  refine List.map_congr_left fun peer _ => ?_
  dsimp only [Function.comp]
  split <;> rfl

theorem ActiveIsNode.updatePeer (h : ActiveIsNode self) (ptr : Nat) (change : Peer → Peer) :
    ActiveIsNode (self.updatePeer ptr change) := h.mono rfl (by rw [updatePeer_ptrs]; exact List.Subset.refl _)

theorem datasRandom_mem {α : Type} {list : List α} {random : Nat} {x : α} (h : datasRandom list random = some x) : x ∈ list :=
  List.mem_of_getElem? h

theorem pickNode_mem {ptr : Nat} (h : pickNode env self = some ptr) : ptr ∈ self.ptrs := by
  unfold pickNode at h
  split at h
  · rename_i found hfound
    cases h
    obtain ⟨peer, hpeer, rfl⟩ := List.mem_map.1 (datasRandom_mem hfound)
    exact List.mem_map_of_mem (List.mem_of_mem_filter hpeer)
  · exact datasRandom_mem h

theorem ActiveIsNode.changeActiveNode (h : ActiveIsNode self) : ActiveIsNode (changeActiveNode env self) := by
  unfold Manager.changeActiveNode
  split
  · exact h
  · exact fun ptr hptr => @pickNode_mem env _ _ hptr

theorem ActiveIsNode.setActiveNodeIfNone (h : ActiveIsNode self) : ActiveIsNode (setActiveNodeIfNone env self) := by
  unfold Manager.setActiveNodeIfNone
  split
  · exact h
  · exact fun ptr hptr => @pickNode_mem env _ _ hptr

theorem ActiveIsNode.connectNode (h : ActiveIsNode self) (info : NodeInfo) : ActiveIsNode (connectNode c env self info) := by
  unfold Manager.connectNode
  split
  · exact h
  · split
    · exact h
    · refine h.mono rfl fun ptr hptr => ?_
      show ptr ∈ List.map (fun peer : Peer => peer.ptr) (self.nodes ++ [_])
      rw [List.map_append]
      exact List.mem_append_left _ hptr

theorem ActiveIsNode.nodeManagerConnectNodes (h : ActiveIsNode self) : ActiveIsNode (nodeManagerConnectNodes c env self) := by
  unfold Manager.nodeManagerConnectNodes
  have h0 : ActiveIsNode (if self.bloomFilter.isSome then self else { self with bloomFilter := env.bloomFilter }) := by
    split
    · exact h
    · exact h
  generalize (if self.bloomFilter.isSome then self else { self with bloomFilter := env.bloomFilter }) = start at h0
  refine foldl_inv ActiveIsNode h0 fun tryCount _ self h => ?_
  split
  · exact h.connectNode _
  · exact h

/-- What is left of `activeNode` has not been dropped. -/
theorem dropNodes_active {peers : List Peer} {activeNode : Option Nat} {ptr : Nat}
    (h : (dropNodes env peers activeNode).2 = some ptr) :
    activeNode = some ptr ∧ ∀ peer ∈ peers, peer.ptr = ptr → peer ∈ (dropNodes env peers activeNode).1 := by
  induction peers generalizing activeNode with
  | nil => exact ⟨h, by simp⟩
  | cons peer peers ih =>
    unfold dropNodes at h ⊢
    split
    · rename_i hdrop
      rw [if_pos hdrop] at h
      obtain ⟨hactive, hkept⟩ := ih h
      have hne : activeNode ≠ some peer.ptr := by
        intro he
        rw [if_pos he] at hactive
        cases hactive
      rw [if_neg hne] at hactive
      refine ⟨hactive, fun other hother hptr => ?_⟩
      rcases List.mem_cons.1 hother with rfl | hother
      · rw [hactive, hptr] at hne
        exact absurd rfl hne
      · exact hkept other hother hptr
    · rename_i hkeep
      rw [if_neg hkeep] at h
      obtain ⟨hactive, hkept⟩ := ih h
      refine ⟨hactive, fun other hother hptr => ?_⟩
      rcases List.mem_cons.1 hother with rfl | hother
      · exact List.mem_cons_self
      · exact List.mem_cons_of_mem _ (hkept other hother hptr)

theorem searchActiveNode_mem {ptr : Nat} (h : searchActiveNode env self = some ptr) : ptr ∈ self.ptrs :=
  (env.shuffle_perm self.ptrs).mem_iff.1 (List.mem_of_find?_eq_some h)

theorem ActiveIsNode.checkNodes (h : ActiveIsNode self) : ActiveIsNode (checkNodes c env self) := by
  -- without the dropped nodes, then with another active node, then with new nodes
  have h1 : ActiveIsNode
      { self with
        nodes := (dropNodes env self.nodes self.activeNode).1, activeNode := (dropNodes env self.nodes self.activeNode).2 } := by
    intro ptr hptr
    obtain ⟨hactive, hkept⟩ := dropNodes_active hptr
    obtain ⟨peer, hpeer, rfl⟩ := List.mem_map.1 (h ptr hactive)
    exact List.mem_map_of_mem (hkept peer hpeer rfl)
  have h2 : ∀ self : NodeManager, ActiveIsNode self →
      ActiveIsNode (if self.activeNode.all (isSlow env self) then Manager.changeActiveNode env self else self) := by
    intro self h
    split
    · exact h.changeActiveNode
    · exact h
  have h3 : ∀ self : NodeManager, ActiveIsNode self →
      ActiveIsNode (if self.activeNode.isNone then { self with activeNode := searchActiveNode env self } else self) := by
    intro self h
    split
    · exact fun ptr hptr => @searchActiveNode_mem env _ _ hptr
    · exact h
  have h4 : ∀ (self : NodeManager) (count : Nat), ActiveIsNode self →
      ActiveIsNode (if count ≠ 0 then Manager.nodeManagerConnectNodes c env self else self) := by
    intro self count h
    split
    · exact h.nodeManagerConnectNodes
    · exact h
  have h5 : ∀ (self : NodeManager) (change : Peer → Peer), (∀ peer, (change peer).ptr = peer.ptr) → ActiveIsNode self →
      ActiveIsNode { self with nodes := self.nodes.map change } := by
    intro self change hchange h
    refine h.mono rfl fun ptr hptr => ?_
    show ptr ∈ (self.nodes.map change).map (·.ptr)
    rw [List.map_map]
    have hsame : (fun peer : Peer => peer.ptr) ∘ change = fun peer => peer.ptr := funext hchange
    rw [hsame]
    exact hptr
  exact h5 _ _ (fun _ => rfl) (h4 _ _ (h3 _ (h2 _ h1)))

theorem ActiveIsNode.reportTimeouts (h : ActiveIsNode self) : ActiveIsNode (reportTimeouts env self) := by
  unfold Manager.reportTimeouts
  split
  · exact h
  · exact h

theorem ActiveIsNode.nodeCheckup (h : ActiveIsNode self) : ActiveIsNode (nodeCheckup c env self) := by
  unfold Manager.nodeCheckup
  split
  · split
    · exact h
    · rename_i activeNode _
      have h1 : ActiveIsNode (Manager.reportTimeouts env
          { self.updatePeer activeNode fun peer => { peer with conn := Connection.nodeClose peer.conn } with
            bloomFilter := env.bloomFilter, bloomFilterNeedsUpdate := false }) :=
        ActiveIsNode.reportTimeouts (h.updatePeer activeNode _)
      dsimp only
      split
      · exact h1
      · exact h1.checkNodes
  · have h1 : ActiveIsNode (Manager.reportTimeouts env self) := h.reportTimeouts
    dsimp only
    split
    · exact h1
    · exact h1.checkNodes

theorem ActiveIsNode.nodeManagerSendTx (h : ActiveIsNode self) (tx : Transaction) (onResult : Option Nat) (ptr : Nat) :
    ActiveIsNode (nodeManagerSendTx c env self tx onResult ptr) := by
  refine h.mono rfl fun p hp => ?_
  show p ∈ (if tx.outputs.length = 1 then
    self.nodes.map fun peer => nodeFilterLoad c (nodeFilterClear c peer) env.bloomFilter else self.nodes).map (·.ptr)
  split
  · rw [List.map_map]
    exact hp
  · exact hp

theorem ActiveIsNode.inventoryItem (h : ActiveIsNode self) (ptr : Nat) (hashes : Datas) (type : Nat) (hash : Data) :
    ActiveIsNode (inventoryItem c env self ptr hashes type hash) := by
  unfold Manager.inventoryItem
  split
  · split
    · exact h.updatePeer ptr _
    · exact h
  · split
    · split
      · split
        · exact h
        · exact h
      · exact h.updatePeer ptr _
    · exact h

theorem ActiveIsNode.inventory (h : ActiveIsNode self) (ptr : Nat) (items : List (Nat × Data)) :
    ActiveIsNode (inventory c env self ptr items) := by
  refine foldl_inv ActiveIsNode h fun item _ self h => ?_
  split
  · exact h
  · exact h.inventoryItem ptr _ item.1 item.2

/-! ## A run -/

/-- One event keeps the active node among the nodes exactly when it does not disconnect it. -/
theorem step_activeIsNode_iff (h : ActiveIsNode self) (occasion : Occasion) :
    ActiveIsNode (step c self occasion) ↔ DisconnectsIdle self occasion := by
  unfold step DisconnectsIdle
  split
  · rename_i haborted
    refine iff_of_true h ?_
    split
    · intro hrunning
      rw [haborted] at hrunning
      cases hrunning
    · trivial
  · rename_i haborted
    cases occasion.event with
    | connectNodes => exact iff_of_true h.nodeManagerConnectNodes trivial
    | setActiveNodeIfNone => exact iff_of_true h.setActiveNodeIfNone trivial
    | changeActiveNode => exact iff_of_true h.changeActiveNode trivial
    | nodeCheckup => exact iff_of_true h.nodeCheckup trivial
    | disconnectAll =>
      constructor
      · intro hnext _
        cases hactive : self.activeNode with
        | none => rfl
        | some ptr => exact absurd (hnext ptr hactive) List.not_mem_nil
      · intro hidle ptr hptr
        have hnone := hidle (by simpa using haborted)
        rw [show self.activeNode = some ptr from hptr] at hnone
        cases hnone
    | sendTx tx onResult ptr => exact iff_of_true (h.nodeManagerSendTx tx onResult ptr) trivial
    | tx node txUnsafe =>
      refine iff_of_true ?_ trivial
      show ActiveIsNode (receivedTx c occasion.env self node txUnsafe)
      unfold receivedTx
      split
      · exact h
      · exact h
    | inventory ptr items => exact iff_of_true (h.inventory ptr items) trivial
    | node ptr change => exact iff_of_true (h.updatePeer ptr change) trivial

/-- In every run of a new manager: `activeNode` is at every moment NULL or an element of `nodes`
    exactly when `NodeManagerDisconnectAll` is only called while it is NULL. -/
theorem activeIsNode_iff (testnet : Bool) (occasions : List Occasion) :
    Throughout (fun self occasion => some (step c self occasion)) ActiveIsNode (nodeManagerNew testnet) occasions ↔
      Along (fun self occasion => some (step c self occasion)) DisconnectsIdle (nodeManagerNew testnet) occasions := by
  have hnew : ActiveIsNode (nodeManagerNew testnet) := by
    intro ptr hptr
    cases hptr
  refine @reached_iff_along _ _ _ ActiveIsNode (fun _ => True) DisconnectsIdle ?_ ?_ _ _ trivial hnew
  · intro self occasion next _ h hnext
    cases hnext
    exact ⟨trivial, step_activeIsNode_iff h occasion⟩
  · intro self occasion hnone
    cases hnone

/-- A node is connected and becomes the active one; then all are disconnected. -/
theorem not_activeIsNode :
    ¬ ∀ (c : Crypto) (testnet : Bool) (occasions : List Occasion),
      Throughout (fun self occasion => some (step c self occasion)) ActiveIsNode (nodeManagerNew testnet) occasions := by
  intro h
  have hall := h plainCrypto false [⟨oneNode, .connectNodes⟩, ⟨oneNode, .setActiveNodeIfNone⟩, ⟨oneNode, .disconnectAll⟩]
  have hactive := hall _ (List.prefix_refl _) _ rfl 1 (by decide +kernel)
  cases hactive

end BitcoinSpoon.Manager
