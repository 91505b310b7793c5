/-
  BitcoinSpoon.Manager.Nodes — the node manager: its nodes, the active one and the sends it
  reports about (`code/NodeManager.c`).

  A node is known by its address in memory (`Peer.ptr`); `activeNode` is such an address or
  NULL. What the rest of the program answers in a call (the clock, random numbers, the node
  list of the database, the heap and its room, the transaction tracker) is its
  `Surroundings`. `aborted` is set where the process ends: at `abort()`, which `DataGetPtr`
  calls on a value that is not the size of a pointer, where a list outgrows the room, and at
  a read through NULL. `reports` is a ghost: the calls of `onResult`. Headers, blocks and
  the queues of work are left out here.
-/

import BitcoinSpoon.Node.Close
import BitcoinSpoon.Node.TxMessage
import Mathlib.Algebra.Order.BigOperators.Group.List
import Mathlib.Algebra.Order.Group.Nat
import Mathlib.Data.List.Perm.Basic

namespace BitcoinSpoon.Manager

open Wire Connection

/-! ## The state -/

def SERVICE_NODE_BLOOM : Nat := 4
def SERVICE_NODE_WITNESS : Nat := 8
def REQUIRED_SERVICES : Nat := SERVICE_NODE_BLOOM ||| SERVICE_NODE_WITNESS
def ACTIVE_NODE_COUNT : Nat := 8
def NODE_CHECKUP_INTERVAL : Nat := 15
def SEND_TX_TIMELIMIT : Nat := 20

def NodeManagerErrorNone : Nat := 0
def NodeManagerErrorTimeout : Nat := 0x100

/-- "filterload" -/
def filterloadCommand : Bytes := [0x66, 0x69, 0x6c, 0x74, 0x65, 0x72, 0x6c, 0x6f, 0x61, 0x64]
/-- "filterclear" -/
def filterclearCommand : Bytes := [0x66, 0x69, 0x6c, 0x74, 0x65, 0x72, 0x63, 0x6c, 0x65, 0x61, 0x72]
/-- "getdata" -/
def getdataCommand : Bytes := [0x67, 0x65, 0x74, 0x64, 0x61, 0x74, 0x61]
/-- "tx" -/
def txCommand : Bytes := [0x74, 0x78]

def InventoryTypeTx : Nat := 1
def InventoryTypeBlock : Nat := 2
def InventoryTypeFilteredBlock : Nat := 3

/-- A `Node` and its place in memory. -/
structure Peer where
  ptr : Nat
  address : Data
  conn : Connection.Node
  curBloomFilter : Data
  pingSendCount : Nat
  pongRecvCount : Nat
  lastHeadersOrMerkleMessage : Nat
  rejectCodes : Nat
  gotFinalHeadersMessage : Bool

/-- An entry of the node list in the database. -/
structure NodeInfo where
  ip : Data
  services : Nat
  masterNode : Bool

/-- An entry of `sendTxOnResults`, and which call of `NodeManagerSendTx` made it. -/
structure PendingResult extends SendTxOnResult where
  time : Nat
  nodePtrs : List Nat
  sender : Nat

/-- A call of `onResult`; `ptr` is `none` where none is handed over. -/
structure Report where
  sender : Nat
  onResult : Nat
  result : Nat
  ptr : Option Nat

structure NodeManager where
  testnet : Bool
  nodes : List Peer
  activeNode : Option Nat
  bloomFilter : Data
  bloomFilterNeedsUpdate : Bool
  sendTxOnResults : List PendingResult
  /-- How often `NodeManagerSendTx` has been called. -/
  sends : Nat
  reports : List Report
  aborted : Bool

def nodeManagerNew (testnet : Bool) : NodeManager := ⟨testnet, [], none, none, false, [], 0, [], false⟩

structure Surroundings where
  now : Nat
  nodeList : List NodeInfo
  failureRateTooHigh : Bool
  bloomFilter : Data
  hasTransactionHash : Data → Bool
  heightOf : Data → Int
  /-- The version message of this moment. -/
  versionPayload : Bytes
  /-- What a read of a released node finds. -/
  released : Bool
  random : Nat → Nat
  shuffle : List Nat → List Nat
  shuffle_perm : ∀ l, (shuffle l).Perm l
  malloc : List Nat → Nat
  malloc_fresh : ∀ live, malloc live ∉ live
  room : Room

def NodeManager.ptrs (self : NodeManager) : List Nat := self.nodes.map (·.ptr)

def NodeManager.abort (self : NodeManager) : NodeManager := { self with aborted := true }

/-- Something happens to the node at `ptr`; it stays where it is. -/
def NodeManager.updatePeer (self : NodeManager) (ptr : Nat) (change : Peer → Peer) : NodeManager :=
  { self with
    nodes := self.nodes.map fun peer => if peer.ptr = ptr then { change peer with ptr := peer.ptr } else peer }

/-- `DatasRandom`: NULL for an empty list. -/
def datasRandom {α : Type} (list : List α) (random : Nat) : Option α := list[random % list.length]?

variable (c : Crypto) (env : Surroundings)

def Peer.send (peer : Peer) (str : Bytes) (payload : Data) : Peer :=
  { peer with conn := nodeSend c peer.conn str payload }

def nodeFilterClear (peer : Peer) : Peer := { peer.send c filterclearCommand none with curBloomFilter := none }

def nodeFilterLoad (peer : Peer) (bloomFilter : Data) : Peer :=
  { peer.send c filterloadCommand bloomFilter with curBloomFilter := bloomFilter }

def connectedNodes (self : NodeManager) : List Nat := (self.nodes.filter (·.conn.connected)).map (·.ptr)

/-- A connected node, or any node, or NULL. -/
def pickNode (self : NodeManager) : Option Nat :=
  match datasRandom (connectedNodes self) (env.random 0) with
  | some ptr => some ptr
  | none => datasRandom self.ptrs (env.random 1)

/-! ## Nodes come and go -/

def changeActiveNode (self : NodeManager) : NodeManager :=
  if self.nodes.length = 1 then self
  else
    let self :=
      match self.activeNode with
      | none => self
      -- closed, freed and taken out of the list
      | some oldNode => { self with nodes := self.nodes.eraseP (·.ptr = oldNode) }
    { self with activeNode := pickNode env self }

/-- Publishing what waits (`publishedWaitingTransactions`) is a call of its own here. -/
def setActiveNodeIfNone (self : NodeManager) : NodeManager :=
  if self.activeNode.isSome then self else { self with activeNode := pickNode env self }

/-- One turn of the loop of `NodeManagerConnectNodes`. -/
def connectNode (self : NodeManager) (info : NodeInfo) : NodeManager :=
  if info.services ≠ 0 ∧ info.services &&& REQUIRED_SERVICES ≠ REQUIRED_SERVICES then self
  else if self.nodes.any fun peer => dataEqual peer.address info.ip then self
  else
    let peer : Peer :=
      { ptr := env.malloc self.ptrs
        address := info.ip
        conn := nodeConnect (nodeNew self.testnet)
        curBloomFilter := none
        pingSendCount := 0
        pongRecvCount := 0
        lastHeadersOrMerkleMessage := 0
        rejectCodes := 0
        gotFinalHeadersMessage := false }
    let peer := peer.send c versionCommand (some env.versionPayload)
    let peer := if self.bloomFilter.isSome then nodeFilterLoad c peer self.bloomFilter else peer
    { self with nodes := self.nodes ++ [peer] }

def masterNodeList : List NodeInfo := env.nodeList.filter (·.masterNode)

def nodeManagerConnectNodes (self : NodeManager) : NodeManager :=
  let self := if self.bloomFilter.isSome then self else { self with bloomFilter := env.bloomFilter }
  let nodeList := if (masterNodeList env).isEmpty then env.nodeList else masterNodeList env
  (List.range 22).foldl
    (fun self tryCount =>
      if self.nodes.length < ACTIVE_NODE_COUNT then
        connectNode c env self ((datasRandom nodeList (env.random (tryCount + 2))).getD ⟨none, 0, false⟩)
      else self)
    self

/-- `activeNode` is left as it is. -/
def nodeManagerDisconnectAll (self : NodeManager) : NodeManager := { self with nodes := [] }

/-! ## Checkup -/

/-- The difference is a `time_t`. -/
def timedOut (entry : PendingResult) : Bool := decide (SEND_TX_TIMELIMIT < env.now - entry.time)

def Report.of (entry : PendingResult) (result : Nat) (ptr : Option Nat) : List Report :=
  (entry.onResult.map fun onResult => ⟨entry.sender, onResult, result, ptr⟩).toList

/-- The first entry that has waited too long is reported; `DataGetPtr` then aborts on its
    `nodePtrs`. -/
def reportTimeouts (self : NodeManager) : NodeManager :=
  match self.sendTxOnResults.find? (timedOut env) with
  | none => self
  | some entry =>
    { self with reports := self.reports ++ Report.of entry NodeManagerErrorTimeout (some entry.ptr) }.abort

/-- More than half of `NODE_CHECKUP_INTERVAL` has passed since; the difference is a `uint64_t`. -/
def isOverdue (lastHeadersOrMerkleMessage : Nat) : Bool :=
  decide (NODE_CHECKUP_INTERVAL / 2 < (UInt64.ofNat env.now - UInt64.ofNat lastHeadersOrMerkleMessage).toNat)

/-- `nodeCheckup` drops this node. -/
def isDropped (peer : Peer) : Bool :=
  let masterList := masterNodeList env
  (!masterList.isEmpty && !masterList.any fun info => dataEqual info.ip peer.address) ||
    !peer.conn.connected ||
    (peer.pingSendCount ≠ peer.pongRecvCount &&
      (peer.lastHeadersOrMerkleMessage = 0 || isOverdue env peer.lastHeadersOrMerkleMessage)) ||
    peer.rejectCodes ≠ 0

/-- The loop over the nodes: those that stay, and what becomes of `activeNode`. -/
def dropNodes : List Peer → Option Nat → List Peer × Option Nat
  | [], activeNode => ([], activeNode)
  | peer :: peers, activeNode =>
    if isDropped env peer then dropNodes peers (if activeNode = some peer.ptr then none else activeNode)
    else
      let (kept, activeNode) := dropNodes peers activeNode
      (peer :: kept, activeNode)

/-- The active node has not given its last headers in time. -/
def isSlow (self : NodeManager) (activeNode : Nat) : Bool :=
  match self.nodes.find? (·.ptr = activeNode) with
  | some peer => !peer.gotFinalHeadersMessage && isOverdue env peer.lastHeadersOrMerkleMessage
  | none => env.released

/-- The first connected node, in random order. -/
def searchActiveNode (self : NodeManager) : Option Nat :=
  (env.shuffle self.ptrs).find? fun ptr => self.nodes.any fun peer => peer.ptr = ptr && peer.conn.connected

/-- From the timeouts on. -/
def checkNodes (self : NodeManager) : NodeManager :=
  let originalCount := self.nodes.length
  let (nodes, activeNode) := dropNodes env self.nodes self.activeNode
  let self := { self with nodes := nodes, activeNode := activeNode }
  let self := if self.activeNode.all (isSlow env self) then changeActiveNode env self else self
  let self := if self.activeNode.isNone then { self with activeNode := searchActiveNode env self } else self
  let self := if originalCount ≠ 0 then nodeManagerConnectNodes c env self else self
  { self with
    nodes := self.nodes.map fun peer =>
      { peer.send c pingCommand (some (uint64D (peer.pingSendCount + 1))) with pingSendCount := peer.pingSendCount + 1 } }

def nodeCheckup (self : NodeManager) : NodeManager :=
  if self.bloomFilterNeedsUpdate || env.failureRateTooHigh then
    match self.activeNode with
    -- NodeClose(NULL)
    | none => self.abort
    | some activeNode =>
      let self := self.updatePeer activeNode fun peer => { peer with conn := nodeClose peer.conn }
      let self := reportTimeouts env { self with bloomFilter := env.bloomFilter, bloomFilterNeedsUpdate := false }
      if self.aborted then self else checkNodes c env self
  else
    let self := reportTimeouts env self
    if self.aborted then self else checkNodes c env self

/-! ## Publishing a transaction -/

/-- The transaction also goes to the tracker and to the database. -/
def nodeManagerSendTx (self : NodeManager) (tx : Transaction) (onResult : Option Nat) (_ptr : Nat) : NodeManager :=
  let nodes :=
    if tx.outputs.length = 1 then self.nodes.map fun peer => nodeFilterLoad c (nodeFilterClear c peer) env.bloomFilter
    else self.nodes
  let nodePtrs := (env.shuffle self.ptrs).take (self.ptrs.length / 2)
  -- the loop over the nodes has the registration for its body; nothing is stored as "ptr"
  let entries :=
    if onResult.isSome then
      nodePtrs.map fun _ =>
        { txid := transactionTxid c tx
          wtxid := transactionWtxid c tx
          onResult := onResult
          ptr := 0
          time := env.now
          nodePtrs := nodePtrs
          sender := self.sends }
    else []
  { self with nodes := nodes, sendTxOnResults := self.sendTxOnResults ++ entries, sends := self.sends + 1 }

/-- `tx`. The work it queues is left out, and what becomes of the entries' memory. -/
def receivedTx (self : NodeManager) (node : BitcoinSpoon.Node) (txUnsafe : Data) : NodeManager :=
  match tx c PendingResult.toSendTxOnResult env.room node self.activeNode ⟨self.sendTxOnResults, false⟩ txUnsafe with
  | .error _ => self.abort
  | .ok effect =>
    { self with
      sendTxOnResults := effect.sends.entries
      reports := self.reports ++ effect.reported.flatMap fun entry => Report.of entry NodeManagerErrorNone (some entry.ptr) }

theorem receivedTx_eq (self : NodeManager) (node : BitcoinSpoon.Node) (txUnsafe : Data) :
    receivedTx c env self node txUnsafe =
      match transactionNewIn env.room txUnsafe with
      | none => self.abort
      | some transaction =>
        { self with
          sendTxOnResults := self.sendTxOnResults.filter fun entry => !isWaitingFor c transaction entry.toSendTxOnResult
          reports := self.reports ++
            (self.sendTxOnResults.filter fun entry => isWaitingFor c transaction entry.toSendTxOnResult).flatMap fun entry =>
              Report.of entry NodeManagerErrorNone (some entry.ptr) } := by
  unfold receivedTx
  cases hnew : transactionNewIn env.room txUnsafe with
  | none =>
    obtain ⟨failure, herror⟩ :=
      @tx_of_none c _ PendingResult.toSendTxOnResult _ _ hnew node self.activeNode ⟨self.sendTxOnResults, false⟩
    rw [herror]
  | some transaction =>
    rw [tx_of_some hnew]
    rfl

/-- The entry waits for one of the hashes. -/
def isAnnounced (hashes : Datas) (entry : PendingResult) : Bool :=
  hashes.any fun hash => dataEqual entry.txid hash || dataEqual entry.wtxid hash

/-- A "getdata" for one item. -/
def nodeGetData (self : NodeManager) (ptr : Nat) (type : Nat) (hash : Data) : NodeManager :=
  self.updatePeer ptr fun peer => peer.send c getdataCommand (some (varIntD 1 ++ (uint32D type ++ hash.toBytes)))

/-- One turn of `inventory`. An entry that is found is reported without its `ptr`;
    `DataGetPtr` then aborts on its `nodePtrs`. -/
def inventoryItem (self : NodeManager) (ptr : Nat) (hashes : Datas) (type : Nat) (hash : Data) : NodeManager :=
  if type = InventoryTypeBlock ∨ type = InventoryTypeFilteredBlock then
    if self.activeNode = some ptr ∨ env.heightOf hash = -1 then nodeGetData c self ptr InventoryTypeFilteredBlock hash
    else self
  else if type = InventoryTypeTx then
    if env.hasTransactionHash hash then
      match self.sendTxOnResults.find? (isAnnounced hashes) with
      | none => self
      | some entry => { self with reports := self.reports ++ Report.of entry NodeManagerErrorNone none }.abort
    else nodeGetData c self ptr InventoryTypeTx hash
  else self

def inventory (self : NodeManager) (ptr : Nat) (items : List (Nat × Data)) : NodeManager :=
  items.foldl
    (fun self item => if self.aborted then self else inventoryItem c env self ptr (items.map Prod.snd) item.1 item.2)
    self

/-! ## Runs -/

inductive Event where
  | connectNodes
  | setActiveNodeIfNone
  | changeActiveNode
  | nodeCheckup
  | disconnectAll
  | sendTx (tx : Transaction) (onResult : Option Nat) (ptr : Nat)
  | tx (node : BitcoinSpoon.Node) (txUnsafe : Data)
  | inventory (ptr : Nat) (items : List (Nat × Data))
  /-- Anything else that happens to a node: it connects, it is closed, a message arrives. -/
  | node (ptr : Nat) (change : Peer → Peer)

/-- An event, and what surrounds it. -/
structure Occasion where
  env : Surroundings
  event : Event

def step (self : NodeManager) (occasion : Occasion) : NodeManager :=
  if self.aborted then self
  else
    match occasion.event with
    | .connectNodes => nodeManagerConnectNodes c occasion.env self
    | .setActiveNodeIfNone => setActiveNodeIfNone occasion.env self
    | .changeActiveNode => changeActiveNode occasion.env self
    | .nodeCheckup => nodeCheckup c occasion.env self
    | .disconnectAll => nodeManagerDisconnectAll self
    | .sendTx tx onResult ptr => nodeManagerSendTx c occasion.env self tx onResult ptr
    | .tx node txUnsafe => receivedTx c occasion.env self node txUnsafe
    | .inventory ptr items => inventory c occasion.env self ptr items
    | .node ptr change => self.updatePeer ptr change

def run (self : NodeManager) (occasions : List Occasion) : NodeManager := occasions.foldl (step c) self

/-! ## A small place -/

/-- An address above all that are in use. -/
def mallocAbove (live : List Nat) : Nat := live.sum + 1

theorem mallocAbove_fresh (live : List Nat) : mallocAbove live ∉ live := by
  intro hmem
  have := List.le_sum_of_mem hmem
  unfold mallocAbove at this
  omega

/-- A database with one node. -/
def oneNode : Surroundings :=
  ⟨0, [⟨some [0x31], 0, false⟩], false, none, fun _ => false, fun _ => -1, List.replicate 86 0, false, fun _ => 0, id,
    fun _ => List.Perm.refl _, mallocAbove, mallocAbove_fresh, .whole⟩

end BitcoinSpoon.Manager
