/-
  BitcoinSpoon.Manager.Sync — the height of the scan (`code/NodeManager.c`).

  `bloomFilterDlHeight` says up to which block the wallet's transactions have been looked
  for. Blocks are asked for in batches (`requestTransactions`, `requestTransactionsWorker`,
  `requestTransactionsWorkerMain`); `merkleBlock` takes each one that arrives, `tx` and
  `txWorker` the transactions behind it, and `txWorkerMain` counts them. Work waits in
  `work` and may run in any order. What the rest of the program answers in an event is its
  `Chain`: which blocks the database stores, its cache of heights, and the pending sends and
  the room that `tx` meets are left to it. `scan` holds the height and, as a ghost, where
  the scan started, the merkle blocks received (each with its height) and the txids handed
  to `TTAddTransaction`.

  `merkleBlock` takes the last block of a batch for the whole batch, and any block at a
  multiple of 100 for all blocks below it (`not_scansAll`). The scan is complete at every
  moment exactly when no step leaves a stored block behind (`scansAll_iff`).
-/

import BitcoinSpoon.Loop.Runs
import BitcoinSpoon.Merkle.Sound
import BitcoinSpoon.Node.TxMessage

namespace BitcoinSpoon.Sync

open Wire Loop

/-! ## The state -/

structure Node where
  ptr : Nat
  lastDlHeight : Int
  lastDlSize : Int
  transactionsSinceLastMerkleBlock : Nat
  lastMerkleBlock : MerkleBlock

/-- A zeroed block. -/
def noBlock : MerkleBlock := ⟨none, by decide⟩

inductive Work where
  | requestTransactionsWorker (node : Nat)
  | requestTransactionsWorkerMain (node : Nat) (itemCount : Nat) (lastItem : Data)
  | txWorker (node : Nat) (txData : Data)
  | txWorkerMain (node : Nat) (height : Int)

structure Scan where
  bloomFilterDlHeight : Int
  /-- The scan started above this height. -/
  start : Int
  received : List (Int × MerkleBlock)
  handed : Datas

structure NodeManager where
  nodes : List Node
  activeNode : Option Nat
  work : List Work
  scan : Scan
  /-- Of the blocks in the database. -/
  heights : List Int
  aborted : Bool

structure Chain where
  /-- `DatabaseHeightOf` -/
  heightOf : Data → Int
  /-- `DatabaseHighestHeight` -/
  highestHeight : Int
  /-- `DatabaseHighestBlockBeforeTime` of the wallet's creation date. -/
  highestBlockBeforeTime : Int
  /-- `DatabaseBlockHashesAbove`, `GET_DATA_BLOCK_COUNT` of them at most. -/
  blockHashesAbove : Int → Datas
  /-- Of the blocks in the database by then. -/
  heights : List Int
  failureRateTooHigh : Bool
  /-- The manager's `sendTxOnResults`. -/
  sends : PendingSends SendTxOnResult
  room : Room

/-- The scan goes on at the height that was saved. -/
def nodeManagerNew (bloomFilterDlHeight : Int) (heights : List Int) : NodeManager :=
  ⟨[], none, [], ⟨bloomFilterDlHeight, bloomFilterDlHeight, [], []⟩, heights, false⟩

variable (c : Crypto) (chain : Chain)

def blockHash (block : MerkleBlock) : Data :=
  if block.data.length < 80 then none else hash256 c (some (block.data.toBytes.take 80))

namespace NodeManager

def abort (self : NodeManager) : NodeManager := { self with aborted := true }

def add (self : NodeManager) (work : Work) : NodeManager := { self with work := self.work ++ [work] }

/-- `nodeStillValid` finds it. -/
def node (self : NodeManager) (ptr : Nat) : Option Node := self.nodes.find? (·.ptr = ptr)

def updateNode (self : NodeManager) (ptr : Nat) (change : Node → Node) : NodeManager :=
  { self with nodes := self.nodes.map fun node => if node.ptr = ptr then change node else node }

/-- `TTSetBloomFilterDlHeight` -/
def setHeight (self : NodeManager) (height : Int) : NodeManager :=
  { self with scan := { self.scan with bloomFilterDlHeight := height } }

end NodeManager

/-! ## Asking for blocks -/

def requestTransactions (self : NodeManager) : NodeManager :=
  if chain.highestHeight ≤ self.scan.bloomFilterDlHeight then
    { self with nodes := self.nodes.map fun node => { node with lastDlHeight := chain.highestHeight, lastDlSize := 1 } }
  else
    match self.activeNode with
    -- a write through NULL
    | none => self.abort
    | some ptr => self.add (.requestTransactionsWorker ptr)

def requestTransactionsWorker (self : NodeManager) (ptr : Nat) : NodeManager :=
  if (self.node ptr).isNone then self
  else
    let start := chain.highestBlockBeforeTime - 144
    let self :=
      if self.scan.bloomFilterDlHeight < start then
        { self with scan := { self.scan with bloomFilterDlHeight := start, start := start } }
      else self
    let items := chain.blockHashesAbove (max start self.scan.bloomFilterDlHeight)
    self.add (.requestTransactionsWorkerMain ptr items.length (items.getLast?.getD none))

def requestTransactionsWorkerMain (self : NodeManager) (ptr : Nat) (itemCount : Nat) (lastItem : Data) : NodeManager :=
  self.updateNode ptr fun node => { node with lastDlSize := itemCount, lastDlHeight := chain.heightOf lastItem }

/-! ## Blocks and transactions arrive -/

def merkleBlock (self : NodeManager) (ptr : Nat) (block : MerkleBlock) : NodeManager :=
  match self.node ptr with
  | none => self
  | some node =>
    let self := self.updateNode ptr fun node => { node with lastMerkleBlock := block, transactionsSinceLastMerkleBlock := 0 }
    -- DatabaseAddBlock
    let self := { self with heights := chain.heights }
    let height := chain.heightOf (blockHash c block)
    let self := { self with scan := { self.scan with received := self.scan.received ++ [(height, block)] } }
    if node.lastDlHeight = height then
      let self := self.setHeight height
      if (matchingTxIdsIfValidRoot c block).isEmpty then requestTransactions chain self else self
    else if height % 100 = 0 then
      if (matchingTxIdsIfValidRoot c block).isEmpty then self.setHeight height else self
    else self

/-- The sends that are reported are left out. -/
def receivedTx (self : NodeManager) (ptr : Nat) (txUnsafe : Data) : NodeManager :=
  let lastMerkleBlock := ((self.node ptr).map (·.lastMerkleBlock.data)).getD none
  match tx c id chain.room ⟨ptr, lastMerkleBlock⟩ self.activeNode chain.sends txUnsafe with
  | .error _ => self.abort
  | .ok effect =>
    match effect.work with
    | some work => self.add (.txWorker work.node work.txData)
    | none => self

def txWorker (self : NodeManager) (ptr : Nat) (txData : Data) : NodeManager :=
  match self.node ptr with
  | none => self
  | some node =>
    match transactionNewIn chain.room txData with
    | none => self.abort
    | some transaction =>
      let self := { self with scan := { self.scan with handed := self.scan.handed ++ [transactionTxid c transaction] } }
      let height := chain.heightOf (blockHash c node.lastMerkleBlock)
      if node.lastDlHeight = height then self.add (.txWorkerMain ptr height)
      else if height % 100 = 0 then
        if self.scan.bloomFilterDlHeight < height then self.setHeight height else self
      else self

def txWorkerMain (self : NodeManager) (ptr : Nat) (height : Int) : NodeManager :=
  match self.node ptr with
  | none => self
  | some node =>
    let self := self.updateNode ptr fun node =>
      { node with transactionsSinceLastMerkleBlock := node.transactionsSinceLastMerkleBlock + 1 }
    if node.lastDlHeight = height then
      if node.transactionsSinceLastMerkleBlock + 1 = (matchingTxIdsIfValidRoot c node.lastMerkleBlock).length then
        let self :=
          if node.lastDlHeight = self.scan.bloomFilterDlHeight + node.lastDlSize then self.setHeight node.lastDlHeight
          else self
        if chain.failureRateTooHigh then self else requestTransactions chain self
      else self
    else self

/-! ## Runs -/

inductive Event where
  | merkleBlock (ptr : Nat) (block : MerkleBlock)
  | tx (ptr : Nat) (txUnsafe : Data)
  /-- The work at this place is taken out and done. -/
  | work (i : Nat)
  /-- The headers are up to date. -/
  | requestTransactions
  /-- The bloom filter has changed or the database is reset: the scan starts over. -/
  | resync
  | connected (ptr : Nat)
  | dropped (ptr : Nat)
  | activeNode (ptr : Option Nat)
  /-- The database stores headers or drops blocks. -/
  | headers

structure Occasion where
  chain : Chain
  event : Event

def doWork (self : NodeManager) : Work → NodeManager
  | .requestTransactionsWorker ptr => requestTransactionsWorker chain self ptr
  | .requestTransactionsWorkerMain ptr itemCount lastItem => requestTransactionsWorkerMain chain self ptr itemCount lastItem
  | .txWorker ptr txData => txWorker c chain self ptr txData
  | .txWorkerMain ptr height => txWorkerMain c chain self ptr height

def handle (self : NodeManager) : Event → NodeManager
  | .merkleBlock ptr block => merkleBlock c chain self ptr block
  | .tx ptr txUnsafe => receivedTx c chain self ptr txUnsafe
  | .work i =>
    match self.work[i]? with
    | none => self
    | some work => doWork c chain { self with work := self.work.eraseIdx i } work
  | .requestTransactions => requestTransactions chain self
  | .resync => { self with scan := { self.scan with bloomFilterDlHeight := 0, start := 0 } }
  | .connected ptr =>
    if (self.node ptr).isSome then self else { self with nodes := self.nodes ++ [⟨ptr, 0, 0, 0, noBlock⟩] }
  | .dropped ptr => { self with nodes := self.nodes.filter (·.ptr ≠ ptr) }
  | .activeNode ptr => { self with activeNode := ptr }
  | .headers => { self with heights := chain.heights }

def step (self : NodeManager) (occasion : Occasion) : NodeManager :=
  if self.aborted then self else handle c occasion.chain self occasion.event

/-! ## What is asked of the scan -/

/-- A merkle block with a valid root was received for this height, and every transaction it
    matches has been handed over. -/
def Scan.Covers (scan : Scan) (height : Int) : Prop :=
  ∃ block, (height, block) ∈ scan.received ∧ RootAccepted c block ∧
    ∀ txid ∈ matchingTxIdsIfValidRoot c block, txid ∈ scan.handed

/-- Every block stored above the start and up to `bloomFilterDlHeight` is covered. -/
def ScansAll (self : NodeManager) : Prop :=
  ∀ height ∈ self.heights, self.scan.start < height → height ≤ self.scan.bloomFilterDlHeight → self.scan.Covers c height

/-- The height passes no stored block of this range that is not covered by then. -/
def Passes (scan : Scan) (heights : List Int) (low high : Int) : Prop :=
  ∀ height ∈ heights, scan.start < height → low < height → height ≤ high → scan.Covers c height

/-- Where the code raises the height, the blocks it passes have been received with a valid root
    and their transactions handed over; and so has a block that is stored below the height. -/
def SkipsNothing (self : NodeManager) (occasion : Occasion) : Prop :=
  self.aborted = false →
    match occasion.event with
    | .merkleBlock ptr block => ∀ node, self.node ptr = some node →
      let height := occasion.chain.heightOf (blockHash c block)
      let scan := { self.scan with received := self.scan.received ++ [(height, block)] }
      -- the last block of the batch, whatever else of it has come; or a multiple of 100
      if node.lastDlHeight = height ∨ height % 100 = 0 ∧ matchingTxIdsIfValidRoot c block = [] then
        Passes c scan occasion.chain.heights self.scan.bloomFilterDlHeight height ∧
          Passes c scan (occasion.chain.heights.filter (· ∉ self.heights)) self.scan.start height
      else Passes c scan (occasion.chain.heights.filter (· ∉ self.heights)) self.scan.start self.scan.bloomFilterDlHeight
    | .headers =>
      Passes c self.scan (occasion.chain.heights.filter (· ∉ self.heights)) self.scan.start self.scan.bloomFilterDlHeight
    | .work i =>
      match self.work[i]? with
      | some (.txWorker ptr txData) => ∀ node transaction, self.node ptr = some node →
        transactionNewIn occasion.chain.room txData = some transaction →
        let height := occasion.chain.heightOf (blockHash c node.lastMerkleBlock)
        node.lastDlHeight ≠ height → height % 100 = 0 →
          Passes c { self.scan with handed := self.scan.handed ++ [transactionTxid c transaction] } self.heights
            self.scan.bloomFilterDlHeight height
      | some (.txWorkerMain ptr height) => ∀ node, self.node ptr = some node → node.lastDlHeight = height →
        node.transactionsSinceLastMerkleBlock + 1 = (matchingTxIdsIfValidRoot c node.lastMerkleBlock).length →
        height = self.scan.bloomFilterDlHeight + node.lastDlSize →
          Passes c self.scan self.heights self.scan.bloomFilterDlHeight height
      | _ => True
    | _ => True

/-! ## One event -/

variable {c} {chain} {self : NodeManager}

@[simp] theorem abort_scan (self : NodeManager) : self.abort.scan = self.scan := rfl

@[simp] theorem add_scan (self : NodeManager) (work : Work) : (self.add work).scan = self.scan := rfl

@[simp] theorem updateNode_scan (self : NodeManager) (ptr : Nat) (change : Node → Node) :
    (self.updateNode ptr change).scan = self.scan := rfl

@[simp] theorem setHeight_scan (self : NodeManager) (height : Int) :
    (self.setHeight height).scan = { self.scan with bloomFilterDlHeight := height } := rfl

@[simp] theorem requestTransactions_scan (self : NodeManager) : (requestTransactions chain self).scan = self.scan := by
  unfold requestTransactions
  split
  · rfl
  · split <;> rfl

@[simp] theorem abort_heights (self : NodeManager) : self.abort.heights = self.heights := rfl

@[simp] theorem add_heights (self : NodeManager) (work : Work) : (self.add work).heights = self.heights := rfl

@[simp] theorem updateNode_heights (self : NodeManager) (ptr : Nat) (change : Node → Node) :
    (self.updateNode ptr change).heights = self.heights := rfl

@[simp] theorem setHeight_heights (self : NodeManager) (height : Int) : (self.setHeight height).heights = self.heights := rfl

@[simp] theorem requestTransactions_heights (self : NodeManager) : (requestTransactions chain self).heights = self.heights := by
  unfold requestTransactions
  split
  · rfl
  · split <;> rfl

/-- The height `merkleBlock` leaves. -/
def merkleBlockHeight (c : Crypto) (chain : Chain) (self : NodeManager) (node : Node) (block : MerkleBlock) : Int :=
  if node.lastDlHeight = chain.heightOf (blockHash c block) ∨
      chain.heightOf (blockHash c block) % 100 = 0 ∧ matchingTxIdsIfValidRoot c block = [] then
    chain.heightOf (blockHash c block)
  else self.scan.bloomFilterDlHeight

theorem merkleBlock_spec {ptr : Nat} {node : Node} (block : MerkleBlock) (hnode : self.node ptr = some node) :
    (merkleBlock c chain self ptr block).heights = chain.heights ∧
      (merkleBlock c chain self ptr block).scan =
        { self.scan with
          received := self.scan.received ++ [(chain.heightOf (blockHash c block), block)]
          bloomFilterDlHeight := merkleBlockHeight c chain self node block } := by
  unfold merkleBlock merkleBlockHeight
  rw [hnode]
  dsimp only
  by_cases hlast : node.lastDlHeight = chain.heightOf (blockHash c block)
  · simp only [hlast, true_or, if_true]
    cases (matchingTxIdsIfValidRoot c block).isEmpty with
    | true => simp
    | false => simp
  · by_cases hround : chain.heightOf (blockHash c block) % 100 = 0
    · cases hm : matchingTxIdsIfValidRoot c block with
      | nil => simp [hlast, hround]
      | cons txid txids => simp [hlast, hround]
    · simp [hlast, hround]

theorem requestTransactionsWorker_scan (ptr : Nat) :
    (requestTransactionsWorker chain self ptr).scan =
      if (self.node ptr).isSome ∧ self.scan.bloomFilterDlHeight < chain.highestBlockBeforeTime - 144 then
        { self.scan with
          bloomFilterDlHeight := chain.highestBlockBeforeTime - 144, start := chain.highestBlockBeforeTime - 144 }
      else self.scan := by
  unfold requestTransactionsWorker
  cases self.node ptr with
  | none => simp
  | some node =>
    by_cases hlow : self.scan.bloomFilterDlHeight < chain.highestBlockBeforeTime - 144
    · simp [hlow]
    · simp [hlow]

theorem txWorker_scan (ptr : Nat) (txData : Data) :
    (txWorker c chain self ptr txData).scan =
      match self.node ptr, transactionNewIn chain.room txData with
      | some node, some transaction =>
        let height := chain.heightOf (blockHash c node.lastMerkleBlock)
        { self.scan with
          handed := self.scan.handed ++ [transactionTxid c transaction]
          bloomFilterDlHeight :=
            if node.lastDlHeight ≠ height ∧ height % 100 = 0 then max self.scan.bloomFilterDlHeight height
            else self.scan.bloomFilterDlHeight }
      | _, _ => self.scan := by
  unfold txWorker
  cases self.node ptr with
  | none => rfl
  | some node =>
    cases transactionNewIn chain.room txData with
    | none => rfl
    | some transaction =>
      dsimp only
      by_cases hlast : node.lastDlHeight = chain.heightOf (blockHash c node.lastMerkleBlock)
      · simp [hlast]
      · by_cases hround : chain.heightOf (blockHash c node.lastMerkleBlock) % 100 = 0
        · rcases lt_or_ge self.scan.bloomFilterDlHeight (chain.heightOf (blockHash c node.lastMerkleBlock)) with hlt | hge
          · simp [hlast, hround, hlt, max_eq_right hlt.le]
          · simp [hlast, hround, hge.not_gt, max_eq_left hge]
        · simp [hlast, hround]

theorem txWorkerMain_scan (ptr : Nat) (height : Int) :
    (txWorkerMain c chain self ptr height).scan =
      match self.node ptr with
      | none => self.scan
      | some node =>
        if node.lastDlHeight = height ∧
            node.transactionsSinceLastMerkleBlock + 1 = (matchingTxIdsIfValidRoot c node.lastMerkleBlock).length ∧
            node.lastDlHeight = self.scan.bloomFilterDlHeight + node.lastDlSize then
          { self.scan with bloomFilterDlHeight := node.lastDlHeight }
        else self.scan := by
  unfold txWorkerMain
  cases self.node ptr with
  | none => rfl
  | some node =>
    have hrequest : ∀ next : NodeManager,
        (if chain.failureRateTooHigh then next else requestTransactions chain next).scan = next.scan := by
      intro next
      split
      · rfl
      · exact requestTransactions_scan next
    dsimp only
    by_cases hlast : node.lastDlHeight = height
    · by_cases hcount : node.transactionsSinceLastMerkleBlock + 1 = (matchingTxIdsIfValidRoot c node.lastMerkleBlock).length
      · rw [if_pos hlast, if_pos hcount, hrequest, updateNode_scan]
        by_cases hbatch : node.lastDlHeight = self.scan.bloomFilterDlHeight + node.lastDlSize
        · rw [if_pos hbatch, if_pos ⟨hlast, hcount, hbatch⟩]
          rfl
        · rw [if_neg hbatch, if_neg (fun h => hbatch h.2.2)]
          rfl
      · rw [if_pos hlast, if_neg hcount, if_neg (fun h => hcount h.2.1)]
        rfl
    · rw [if_neg hlast, if_neg (fun h => hlast h.1)]
      rfl

theorem Scan.Covers.mono {scan next : Scan} {height : Int} (h : scan.Covers c height) (hreceived : scan.received ⊆ next.received)
    (hhanded : scan.handed ⊆ next.handed) : next.Covers c height := by
  obtain ⟨block, hblock, hroot, hall⟩ := h
  exact ⟨block, hreceived hblock, hroot, fun txid htxid => hhanded (hall txid htxid)⟩

/-- A step that keeps the start: what it passes, and what is stored anew. -/
theorem scansAll_iff_passes {next : NodeManager} (h : ScansAll c self) (hstart : next.scan.start = self.scan.start)
    (hreceived : self.scan.received ⊆ next.scan.received) (hhanded : self.scan.handed ⊆ next.scan.handed) :
    ScansAll c next ↔
      Passes c next.scan next.heights self.scan.bloomFilterDlHeight next.scan.bloomFilterDlHeight ∧
        Passes c next.scan (next.heights.filter (· ∉ self.heights)) self.scan.start next.scan.bloomFilterDlHeight := by
  constructor
  · intro hnext
    refine ⟨fun height hstored hs _ hh => hnext height hstored hs hh, fun height hstored hs _ hh => ?_⟩
    exact hnext height (List.mem_of_mem_filter hstored) hs hh
  · intro ⟨hpassed, hstored⟩ height hmem hs hh
    by_cases hnew : self.scan.bloomFilterDlHeight < height
    · exact hpassed height hmem hs hnew hh
    · by_cases hold : height ∈ self.heights
      · exact (h height hold (hstart ▸ hs) (Int.not_lt.1 hnew)).mono hreceived hhanded
      · exact hstored height (List.mem_filter.2 ⟨hmem, by simpa using hold⟩) hs (hstart ▸ hs) hh

/-- Nothing is stored anew. -/
theorem passes_old (scan : Scan) (heights : List Int) (low high : Int) :
    Passes c scan (heights.filter (· ∉ heights)) low high := by
  intro height hmem
  rw [List.mem_filter] at hmem
  simp at hmem

/-- The height stays, or is taken back. -/
theorem passes_nothing (scan : Scan) (heights : List Int) {low high : Int} (h : high ≤ low) : Passes c scan heights low high := by
  intro height _ _ hlow hhigh
  omega

/-! ## A run -/

/-- Events that touch neither the scan nor the database. -/
theorem scansAll_of_same {next : NodeManager} (h : ScansAll c self) (hscan : next.scan = self.scan)
    (hheights : next.heights = self.heights) : ScansAll c next := by
  unfold ScansAll
  rw [hscan, hheights]
  exact h

theorem merkleBlock_scansAll_iff (h : ScansAll c self) {ptr : Nat} {node : Node} (block : MerkleBlock)
    (hnode : self.node ptr = some node) (hrunning : self.aborted = false) :
    ScansAll c (merkleBlock c chain self ptr block) ↔ SkipsNothing c self ⟨chain, .merkleBlock ptr block⟩ := by
  obtain ⟨hheights, hscan⟩ := @merkleBlock_spec c chain self ptr node block hnode
  rw [scansAll_iff_passes h (by rw [hscan]) (by rw [hscan]; exact List.subset_append_left _ _) (by rw [hscan]; exact List.Subset.refl _),
    hheights, hscan]
  unfold SkipsNothing merkleBlockHeight
  dsimp only
  constructor
  · intro ⟨hpassed, hstored⟩ _ node' hnode'
    cases hnode.symm.trans hnode'
    split
    · rename_i hset
      rw [if_pos hset] at hpassed hstored
      exact ⟨hpassed, hstored⟩
    · rename_i hkeep
      rw [if_neg hkeep] at hstored
      exact hstored
  · intro hskips
    have hnow := hskips hrunning node hnode
    split
    · rename_i hset
      rw [if_pos hset] at hnow
      exact hnow
    · rename_i hkeep
      rw [if_neg hkeep] at hnow
      exact ⟨passes_nothing _ _ (Int.le_refl _), hnow⟩

theorem txWorker_heights (ptr : Nat) (txData : Data) : (txWorker c chain self ptr txData).heights = self.heights := by
  unfold txWorker
  split
  · rfl
  · split
    · rfl
    · dsimp only
      split
      · rfl
      · split
        · split <;> rfl
        · rfl

theorem txWorkerMain_heights (ptr : Nat) (height : Int) : (txWorkerMain c chain self ptr height).heights = self.heights := by
  have hrequest : ∀ next : NodeManager,
      (if chain.failureRateTooHigh then next else requestTransactions chain next).heights = next.heights := by
    intro next
    split
    · rfl
    · exact requestTransactions_heights next
  unfold txWorkerMain
  split
  · rfl
  · dsimp only
    split
    · split
      · rw [hrequest]
        split <;> rfl
      · rfl
    · rfl

theorem txWorker_scansAll_iff (h : ScansAll c self) (ptr : Nat) (txData : Data) :
    ScansAll c (txWorker c chain self ptr txData) ↔
      ∀ node transaction, self.node ptr = some node → transactionNewIn chain.room txData = some transaction →
        node.lastDlHeight ≠ chain.heightOf (blockHash c node.lastMerkleBlock) →
          chain.heightOf (blockHash c node.lastMerkleBlock) % 100 = 0 →
            Passes c { self.scan with handed := self.scan.handed ++ [transactionTxid c transaction] } self.heights
              self.scan.bloomFilterDlHeight (chain.heightOf (blockHash c node.lastMerkleBlock)) := by
  have hscan := @txWorker_scan c chain self ptr txData
  have hheights := @txWorker_heights c chain self ptr txData
  cases hnode : self.node ptr with
  | none =>
    rw [hnode] at hscan
    exact iff_of_true (scansAll_of_same h hscan hheights) (by simp)
  | some node =>
    cases htx : transactionNewIn chain.room txData with
    | none =>
      rw [hnode, htx] at hscan
      exact iff_of_true (scansAll_of_same h hscan hheights) (by simp)
    | some transaction =>
      rw [hnode, htx] at hscan
      dsimp only at hscan
      rw [scansAll_iff_passes h (by rw [hscan]) (by rw [hscan]; exact List.Subset.refl _)
        (by rw [hscan]; exact List.subset_append_left _ _), hheights, hscan]
      have hold := @passes_old c
      simp only [hold, and_true]
      constructor
      · intro hpassed node' transaction' hnode' htx' hlast hround
        cases hnode'
        cases htx'
        rw [if_pos ⟨hlast, hround⟩] at hpassed
        intro height hmem hs hlow hhigh
        exact hpassed height hmem hs hlow (le_max_of_le_right hhigh)
      · intro hskips
        split
        · rename_i hset
          intro height hmem hs hlow hhigh
          refine hskips node transaction rfl rfl hset.1 hset.2 height hmem hs hlow ?_
          rcases le_max_iff.1 hhigh with hh | hh
          · exact absurd hh (not_le.2 hlow)
          · exact hh
        · exact passes_nothing _ _ (Int.le_refl _)

theorem txWorkerMain_scansAll_iff (h : ScansAll c self) (ptr : Nat) (height : Int) :
    ScansAll c (txWorkerMain c chain self ptr height) ↔
      ∀ node, self.node ptr = some node → node.lastDlHeight = height →
        node.transactionsSinceLastMerkleBlock + 1 = (matchingTxIdsIfValidRoot c node.lastMerkleBlock).length →
          height = self.scan.bloomFilterDlHeight + node.lastDlSize →
            Passes c self.scan self.heights self.scan.bloomFilterDlHeight height := by
  have hscan := @txWorkerMain_scan c chain self ptr height
  have hheights := @txWorkerMain_heights c chain self ptr height
  cases hnode : self.node ptr with
  | none =>
    rw [hnode] at hscan
    exact iff_of_true (scansAll_of_same h hscan hheights) (by simp)
  | some node =>
    rw [hnode] at hscan
    dsimp only at hscan
    by_cases hset : node.lastDlHeight = height ∧
        node.transactionsSinceLastMerkleBlock + 1 = (matchingTxIdsIfValidRoot c node.lastMerkleBlock).length ∧
        node.lastDlHeight = self.scan.bloomFilterDlHeight + node.lastDlSize
    · rw [if_pos hset] at hscan
      obtain ⟨rfl, hcount, hbatch⟩ := hset
      rw [scansAll_iff_passes h (by rw [hscan]) (by rw [hscan]; exact List.Subset.refl _)
        (by rw [hscan]; exact List.Subset.refl _), hheights, hscan]
      have hold := @passes_old c
      simp only [hold, and_true]
      constructor
      · intro hpassed node' hnode' _ _ _
        exact hpassed
      · intro hskips
        exact hskips node rfl rfl hcount hbatch
    · rw [if_neg hset] at hscan
      refine iff_of_true (scansAll_of_same h hscan hheights) ?_
      intro node' hnode' hlast hcount hbatch
      cases hnode'
      exact absurd ⟨hlast, hcount, hlast.trans hbatch⟩ hset

theorem requestTransactionsWorker_scansAll (h : ScansAll c self) (ptr : Nat) :
    ScansAll c (requestTransactionsWorker chain self ptr) := by
  have hheights : (requestTransactionsWorker chain self ptr).heights = self.heights := by
    unfold requestTransactionsWorker
    split
    · rfl
    · dsimp only
      split <;> rfl
  have hscan := @requestTransactionsWorker_scan chain self ptr
  split at hscan
  · -- the scan starts over
    intro height _ hstart hheight
    rw [hscan] at hstart hheight
    exact absurd hheight (not_le.2 hstart)
  · exact scansAll_of_same h hscan hheights

/-- Work that is done scans all exactly when it skips nothing. -/
theorem work_scansAll_iff (h : ScansAll c self) (hrunning : self.aborted = false) (chain : Chain) (i : Nat) :
    ScansAll c (handle c chain self (.work i)) ↔ SkipsNothing c self ⟨chain, .work i⟩ := by
  cases hwork : self.work[i]? with
  | none =>
    refine iff_of_true ?_ fun _ => ?_
    · show ScansAll c (match self.work[i]? with | none => self | some work => _)
      rw [hwork]
      exact h
    · dsimp only
      rw [hwork]
      trivial
  | some work =>
    have hhandle : handle c chain self (.work i) = doWork c chain { self with work := self.work.eraseIdx i } work := by
      show (match self.work[i]? with | none => self | some work => _) = _
      rw [hwork]
    rw [hhandle]
    -- taking the work out changes neither the nodes nor the scan
    have hrest : ScansAll c { self with work := self.work.eraseIdx i } := h
    unfold SkipsNothing
    dsimp only
    rw [hwork]
    cases work with
    | requestTransactionsWorker ptr => exact iff_of_true (requestTransactionsWorker_scansAll hrest ptr) fun _ => trivial
    | requestTransactionsWorkerMain ptr itemCount lastItem => exact iff_of_true hrest fun _ => trivial
    | txWorker ptr txData =>
      rw [show doWork c chain _ (.txWorker ptr txData) = txWorker c chain _ ptr txData from rfl, txWorker_scansAll_iff hrest]
      exact ⟨fun hs _ => hs, fun hs => hs hrunning⟩
    | txWorkerMain ptr height =>
      rw [show doWork c chain _ (.txWorkerMain ptr height) = txWorkerMain c chain _ ptr height from rfl,
        txWorkerMain_scansAll_iff hrest]
      exact ⟨fun hs _ => hs, fun hs => hs hrunning⟩

theorem step_scansAll_iff (h : ScansAll c self) (occasion : Occasion) :
    ScansAll c (step c self occasion) ↔ SkipsNothing c self occasion := by
  obtain ⟨chain, event⟩ := occasion
  unfold step
  cases hrunning : self.aborted with
  | true =>
    rw [if_pos rfl]
    exact iff_of_true h fun hr => absurd (hrunning.symm.trans hr) (by decide)
  | false =>
    rw [if_neg Bool.false_ne_true]
    cases event with
    | merkleBlock ptr block =>
      cases hnode : self.node ptr with
      | none =>
        refine iff_of_true ?_ fun _ node hnode' => by cases hnode.symm.trans hnode'
        show ScansAll c (merkleBlock c chain self ptr block)
        unfold merkleBlock
        rw [hnode]
        exact h
      | some node => exact merkleBlock_scansAll_iff h block hnode hrunning
    | tx ptr txUnsafe =>
      refine iff_of_true ?_ fun _ => trivial
      show ScansAll c (receivedTx c chain self ptr txUnsafe)
      unfold receivedTx
      dsimp only
      split
      · exact h
      · split <;> exact h
    | work i => exact work_scansAll_iff h hrunning chain i
    | requestTransactions =>
      exact iff_of_true (scansAll_of_same h (requestTransactions_scan self) (requestTransactions_heights self)) fun _ => trivial
    | resync =>
      refine iff_of_true ?_ fun _ => trivial
      intro height _ hstart hheight
      exact absurd hheight (not_le.2 hstart)
    | connected ptr =>
      refine iff_of_true ?_ fun _ => trivial
      show ScansAll c (if (self.node ptr).isSome then self else _)
      split <;> exact h
    | dropped ptr => exact iff_of_true h fun _ => trivial
    | activeNode ptr => exact iff_of_true h fun _ => trivial
    | headers =>
      have hsame := @scansAll_iff_passes c self (handle c chain self .headers) h rfl (List.Subset.refl _) (List.Subset.refl _)
      rw [hsame]
      constructor
      · intro hpassed _
        exact hpassed.2
      · intro hskips
        exact ⟨passes_nothing _ _ (Int.le_refl _), hskips hrunning⟩

/-- In every run of the sync: every stored block from the start of the scan up to
    `bloomFilterDlHeight` has been received and its transactions handed over, at every moment,
    exactly when no step skips one. -/
theorem scansAll_iff (c : Crypto) (bloomFilterDlHeight : Int) (heights : List Int) (occasions : List Occasion) :
    Throughout (fun self occasion => some (step c self occasion)) (ScansAll c) (nodeManagerNew bloomFilterDlHeight heights)
        occasions ↔
      Along (fun self occasion => some (step c self occasion)) (SkipsNothing c) (nodeManagerNew bloomFilterDlHeight heights)
        occasions := by
  have hnew : ScansAll c (nodeManagerNew bloomFilterDlHeight heights) := by
    intro height _ hstart hheight
    exact absurd hheight (not_le.2 hstart)
  refine @reached_iff_along _ _ _ (ScansAll c) (fun _ => True) (SkipsNothing c) ?_ ?_ _ _ trivial hnew
  · intro self occasion next _ h hnext
    cases hnext
    exact ⟨trivial, step_scansAll_iff h occasion⟩
  · intro self occasion hnone
    cases hnone

/-- A block of one transaction, which is not matched. -/
def quietBlock : MerkleBlock := ⟨some (merkleBlockMessage (headerWith zeroHash) 1 [zeroHash] [false]), by decide +kernel⟩

/-- Three blocks; `quietBlock` is the last of them. -/
def threeBlocks (c : Crypto) : Chain where
  heightOf hash := if hash = blockHash c quietBlock then 3 else -1
  highestHeight := 3
  highestBlockBeforeTime := 144
  blockHashesAbove _ := [some (List.replicate 32 1), some (List.replicate 32 2), blockHash c quietBlock]
  heights := [1, 2, 3]
  failureRateTooHigh := false
  sends := ⟨[], false⟩
  room := .whole

/-- The three blocks are asked for, and only the last one comes. -/
def firstTwoLost (c : Crypto) : List Occasion :=
  [.connected 1, .activeNode (some 1), .requestTransactions, .work 0, .work 0, .merkleBlock 1 quietBlock].map
    fun event => ⟨threeBlocks c, event⟩

theorem not_scansAll :
    ¬ ∀ (c : Crypto) (bloomFilterDlHeight : Int) (heights : List Int) (occasions : List Occasion),
      Throughout (fun self occasion => some (step c self occasion)) (ScansAll c) (nodeManagerNew bloomFilterDlHeight heights)
        occasions := by
  intro h
  have hall := h plainCrypto 0 [1, 2, 3] (firstTwoLost plainCrypto)
  have hlast := hall _ (List.prefix_refl _) _ (after_some _ _ _)
  obtain ⟨block, hblock, -, -⟩ := hlast 1 (by decide +kernel) (by decide +kernel) (by decide +kernel)
  have hreceived : ((firstTwoLost plainCrypto).foldl (step plainCrypto) (nodeManagerNew 0 [1, 2, 3])).scan.received.map Prod.fst =
      [3] := by decide +kernel
  have hone : (1 : Int) ∈ [3] := hreceived ▸ List.mem_map_of_mem (f := Prod.fst) hblock
  exact absurd hone (by decide)

end BitcoinSpoon.Sync
