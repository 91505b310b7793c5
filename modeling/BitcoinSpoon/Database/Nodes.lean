/-
  BitcoinSpoon.Database.Nodes — the table of nodes and its cache (`code/Database.c`).

  There is one list of cached nodes for both networks. `DatabaseNodeList` fills it, when it
  is empty, with the nodes of the network it is asked for; after that it is what every call
  returns. `DatabaseAddNode` adds to it, also when it is empty and when the node is one of
  the other network. So for a network the calls are right through a run exactly as long as
  only its own nodes are put in, and only when all of them are there
  (`nodes_transparent_iff`).

  A node is what its dictionary reads as: a key that is missing reads as 0, and the address
  is a C string without its NUL. The rows are those `DatabaseAddNode` can insert.
-/

import BitcoinSpoon.Loop.Runs
import Mathlib.Data.List.Sort

namespace BitcoinSpoon.Database

open Loop

structure NodeFields where
  ip : List UInt8
  port : Int32
  services : Int64
  date : Int32
  testnet : Int32
  manual : Int32
  master : Int32
  deriving DecidableEq, Repr

/-- A row; sqlite counts the ids from 1 on. -/
structure NodeRow where
  id : Nat
  fields : NodeFields
  deriving DecidableEq, Repr

/-- A node as the callers see it. -/
structure NodeDict where
  index : Int32
  fields : NodeFields
  deriving DecidableEq, Repr

/-- `id` is the primary key. -/
structure NodeTable where
  rows : List NodeRow
  id_nodup : (rows.map (·.id)).Nodup

structure NodeDatabase where
  nodes : NodeTable
  nodeListCache : List NodeDict

/-! ## The table -/

def flag (b : Bool) : Int32 := if b then 1 else 0

/-- `value ? 1 : 0` -/
def truth (value : Int32) : Int32 := if value = 0 then 0 else 1

def NodeFields.normal (fields : NodeFields) : NodeFields :=
  { fields with testnet := truth fields.testnet, manual := truth fields.manual, master := truth fields.master }

def NodeRow.index (row : NodeRow) : Int32 := Int32.ofNat row.id

/-- What `DatabaseNodeList` makes of a row. -/
def NodeRow.dict (row : NodeRow) : NodeDict := ⟨row.index, row.fields.normal⟩

/-- `where testnet=?` -/
def NodeTable.ofNetwork (nodes : NodeTable) (testnet : Bool) : List NodeRow :=
  nodes.rows.filter fun row => row.fields.testnet = flag testnet

/-- ``order by `manual` desc, `date` desc`` -/
def nodeOrder (a b : NodeRow) : Bool :=
  decide (b.fields.manual < a.fields.manual) || (a.fields.manual = b.fields.manual && decide (b.fields.date ≤ a.fields.date))

/-- The id that sqlite gives the next row. -/
def NodeTable.nextId (nodes : NodeTable) : Nat := (nodes.rows.map (·.id)).foldr max 0 + 1

theorem NodeTable.lt_nextId {nodes : NodeTable} {row : NodeRow} (h : row ∈ nodes.rows) : row.id < nodes.nextId := by
  have hmax : ∀ (ids : List Nat) (id : Nat), id ∈ ids → id ≤ ids.foldr max 0 := by
    intro ids id hid
    induction ids with
    | nil => cases hid
    | cons first ids ih =>
      rw [List.foldr_cons]
      rcases List.mem_cons.1 hid with rfl | hid
      · exact Nat.le_max_left _ _
      · exact Nat.le_trans (ih hid) (Nat.le_max_right _ _)
  exact Nat.lt_succ_of_le (hmax _ _ (List.mem_map_of_mem h))

def NodeTable.insert (nodes : NodeTable) (node : NodeFields) : NodeTable where
  rows := nodes.rows ++ [⟨nodes.nextId, node⟩]
  id_nodup := by
    rw [List.map_append, List.nodup_append]
    refine ⟨nodes.id_nodup, List.nodup_singleton _, fun id hid other hother => ?_⟩
    obtain ⟨row, hrow, rfl⟩ := List.mem_map.1 hid
    rw [List.mem_singleton.1 hother]
    exact Nat.ne_of_lt (NodeTable.lt_nextId hrow)

/-- `delete … where` -/
def NodeTable.delete (nodes : NodeTable) (gone : NodeRow → Bool) : NodeTable where
  rows := nodes.rows.filter fun row => !gone row
  id_nodup := nodes.id_nodup.sublist (List.Sublist.map _ List.filter_sublist)

/-! ## The calls -/

def databaseNodeList (self : NodeDatabase) (testnet : Bool) : List NodeDict × NodeDatabase :=
  if self.nodeListCache ≠ [] then (self.nodeListCache, self)
  else
    let array := ((self.nodes.ofNetwork testnet).mergeSort nodeOrder).map NodeRow.dict
    (array, { self with nodeListCache := array })

def databaseNodeListCount (self : NodeDatabase) (testnet : Bool) : Nat :=
  if self.nodeListCache.length ≠ 0 then self.nodeListCache.length else (self.nodes.ofNetwork testnet).length

def databaseAddNode (self : NodeDatabase) (node : NodeFields) : NodeDatabase :=
  let dict : NodeDict := ⟨Int32.ofNat self.nodes.nextId, node⟩
  { nodes := self.nodes.insert node
    nodeListCache := if node.manual ≠ 0 then dict :: self.nodeListCache else self.nodeListCache ++ [dict] }

/-- Where sqlite knows no `limit` for `delete`, the statement is not prepared. -/
def databaseRemoveNode (limitKnown : Bool) (self : NodeDatabase) (index : Int32) : NodeDatabase :=
  if limitKnown then
    { nodes := self.nodes.delete fun row => (row.id : Int) = index.toInt
      nodeListCache := self.nodeListCache.filter fun dict => dict.index ≠ index }
  else self

def databaseRemoveNodeByIp (self : NodeDatabase) (ip : List UInt8) : NodeDatabase where
  nodes := self.nodes.delete fun row => row.fields.ip = ip
  nodeListCache := self.nodeListCache.filter fun dict => dict.fields.ip ≠ ip

inductive NodeCall where
  | nodeList (testnet : Bool)
  | nodeListCount (testnet : Bool)
  | addNode (node : NodeFields)
  | removeNode (index : Int32)
  | removeNodeByIp (ip : List UInt8)

def NodeCall.run (limitKnown : Bool) (self : NodeDatabase) : NodeCall → NodeDatabase
  | .nodeList testnet => (databaseNodeList self testnet).2
  | .nodeListCount _ => self
  | .addNode node => databaseAddNode self node
  | .removeNode index => databaseRemoveNode limitKnown self index
  | .removeNodeByIp ip => databaseRemoveNodeByIp self ip

/-- Both calls answer for the network as the table does: the list has its nodes, in whatever
    order, and the count is their number. -/
def Transparent (testnet : Bool) (self : NodeDatabase) : Prop :=
  (∀ dict, dict ∈ (databaseNodeList self testnet).1 ↔ dict ∈ (self.nodes.ofNetwork testnet).map NodeRow.dict) ∧
    databaseNodeListCount self testnet = (self.nodes.ofNetwork testnet).length

/-- The list is filled with the nodes of the other network only if there are none; a node is
    added only if it is one of the network, reads back as it is, and no other node of the
    network is missing in the list. An index that is removed is no row's id in its low
    32 bits only, unless it is that of all nodes of the network. -/
def Harmless (limitKnown testnet : Bool) (self : NodeDatabase) : NodeCall → Prop
  | .nodeList other => self.nodeListCache = [] → other = testnet ∨ self.nodes.ofNetwork other = []
  | .addNode node => node.testnet = flag testnet ∧ node.normal = node ∧
      (self.nodeListCache = [] → self.nodes.ofNetwork testnet = [])
  | .removeNode index => limitKnown = true → self.nodeListCache ≠ [] →
      (∀ row ∈ self.nodes.ofNetwork testnet, row.index = index → (row.id : Int) = index.toInt) ∨
        ∀ row ∈ self.nodes.ofNetwork testnet, row.index = index
  | _ => True

variable {testnet limitKnown : Bool} {self : NodeDatabase}

theorem flag_inj {a b : Bool} (h : flag a = flag b) : a = b := by
  cases a <;> cases b
  · rfl
  · exact absurd h (by decide)
  · exact absurd h (by decide)
  · rfl

theorem normal_normal (fields : NodeFields) : fields.normal.normal = fields.normal := by
  have htruth : ∀ value, truth (truth value) = truth value := by
    intro value
    by_cases hzero : value = 0
    · simp [truth, hzero]
    · simp [truth, hzero]
  simp [NodeFields.normal, htruth]

theorem truth_flag (b : Bool) : truth (flag b) = flag b := by cases b <;> rfl

theorem ofNetwork_testnet {nodes : NodeTable} {row : NodeRow} (h : row ∈ nodes.ofNetwork testnet) : row.dict.fields.testnet = flag testnet := by
  have hflag : row.fields.testnet = flag testnet := by simpa using (List.mem_filter.1 h).2
  show truth row.fields.testnet = flag testnet
  rw [hflag, truth_flag]

/-- Nothing is cached, or the nodes of the network are, each as often as in the table. -/
def Listed (testnet : Bool) (self : NodeDatabase) : Prop :=
  self.nodeListCache = [] ∨ self.nodeListCache.Perm ((self.nodes.ofNetwork testnet).map NodeRow.dict)

theorem transparent_iff : Transparent testnet self ↔ self.nodeListCache = [] ∨
    (∀ dict, dict ∈ self.nodeListCache ↔ dict ∈ (self.nodes.ofNetwork testnet).map NodeRow.dict) ∧
      self.nodeListCache.length = (self.nodes.ofNetwork testnet).length := by
  rw [Transparent, databaseNodeList, databaseNodeListCount]
  by_cases hempty : self.nodeListCache = []
  · rw [hempty, if_neg (not_not.2 rfl), if_neg (show ¬ ([] : List NodeDict).length ≠ 0 from not_not.2 rfl)]
    exact iff_of_true ⟨fun _ => ((List.mergeSort_perm _ _).map _).mem_iff, rfl⟩ (Or.inl rfl)
  · have hlength : self.nodeListCache.length ≠ 0 := fun hzero => hempty (List.length_eq_zero_iff.1 hzero)
    rw [if_pos hempty, if_pos hlength, or_iff_right hempty]

theorem transparent_of_listed (h : Listed testnet self) : Transparent testnet self :=
  transparent_iff.2 (h.imp_right fun hsame => ⟨fun _ => hsame.mem_iff, hsame.length_eq.trans (List.length_map _)⟩)

/-! ## Steps -/

theorem ofNetwork_insert (nodes : NodeTable) (node : NodeFields) : (nodes.insert node).ofNetwork testnet =
    nodes.ofNetwork testnet ++ if node.testnet = flag testnet then [⟨nodes.nextId, node⟩] else [] := by
  show (nodes.rows ++ [_]).filter _ = _
  rw [List.filter_append, NodeTable.ofNetwork]
  congr 1
  split
  · rename_i hflag
    rw [List.filter_cons_of_pos (by simpa using hflag)]
    rfl
  · rename_i hflag
    rw [List.filter_cons_of_neg (by simpa using hflag)]
    rfl

theorem ofNetwork_delete (nodes : NodeTable) (gone : NodeRow → Bool) :
    (nodes.delete gone).ofNetwork testnet = (nodes.ofNetwork testnet).filter fun row => !gone row := by
  show (nodes.rows.filter _).filter _ = (nodes.rows.filter _).filter _
  rw [List.filter_filter, List.filter_filter]
  exact List.filter_congr fun row _ => Bool.and_comm _ _

theorem map_sorted_nil {rows : List NodeRow} : (rows.mergeSort nodeOrder).map NodeRow.dict = [] ↔ rows = [] := by
  rw [List.map_eq_nil_iff, ← List.length_eq_zero_iff, List.length_mergeSort, List.length_eq_zero_iff]

/-- Filling the list for a network. -/
theorem nodeList_harmless {other : Bool} (h : Transparent testnet (databaseNodeList self other).2) :
    Harmless limitKnown testnet self (.nodeList other) := by
  intro hempty
  rw [databaseNodeList, if_neg (not_not.2 hempty)] at h
  by_cases hrows : self.nodes.ofNetwork other = []
  · exact Or.inr hrows
  rcases transparent_iff.1 h with hnil | ⟨hsame, -⟩
  · exact Or.inr (map_sorted_nil.1 hnil)
  · obtain ⟨row, hrow⟩ := List.exists_mem_of_ne_nil _ hrows
    have hlisted := ((List.mergeSort_perm (self.nodes.ofNetwork other) nodeOrder).map NodeRow.dict).mem_iff.2 (List.mem_map_of_mem hrow)
    obtain ⟨own, hown, heq⟩ := List.mem_map.1 ((hsame _).1 hlisted)
    refine Or.inl (flag_inj ?_)
    rw [← ofNetwork_testnet hrow, ← ofNetwork_testnet hown, heq]

theorem nodeList_listed (h : Listed testnet self) {other : Bool} (hharmless : Harmless limitKnown testnet self (.nodeList other)) :
    Listed testnet (databaseNodeList self other).2 := by
  rw [databaseNodeList]
  by_cases hempty : self.nodeListCache = []
  · rw [if_neg (not_not.2 hempty)]
    rcases hharmless hempty with rfl | hnone
    · exact Or.inr ((List.mergeSort_perm _ _).map _)
    · exact Or.inl (map_sorted_nil.2 hnone)
  · rw [if_pos hempty]
    exact h

/-- The new node is one more in the list. -/
theorem addNode_cache (self : NodeDatabase) (node : NodeFields) :
    (databaseAddNode self node).nodeListCache.Perm (⟨Int32.ofNat self.nodes.nextId, node⟩ :: self.nodeListCache) := by
  show (if node.manual ≠ 0 then _ else _ : List NodeDict).Perm _
  split
  · exact List.Perm.refl _
  · exact List.perm_append_singleton _ _

theorem addNode_cache_ne (self : NodeDatabase) (node : NodeFields) : (databaseAddNode self node).nodeListCache ≠ [] := by
  intro hnil
  have hcache := addNode_cache self node
  rw [hnil] at hcache
  exact List.cons_ne_nil _ _ (List.nil_perm.1 hcache)

/-- The new node is in the list as it is, and in the table's list as it reads back. -/
theorem addNode_harmless {node : NodeFields} (h : Transparent testnet (databaseAddNode self node)) :
    Harmless limitKnown testnet self (.addNode node) := by
  have hcache := addNode_cache self node
  have hrows : (databaseAddNode self node).nodes.ofNetwork testnet = _ := ofNetwork_insert self.nodes node
  obtain ⟨hsame, hlength⟩ := (transparent_iff.1 h).resolve_left (addNode_cache_ne self node)
  obtain ⟨row, hrow, hdict⟩ := List.mem_map.1 ((hsame _).1 (hcache.mem_iff.2 List.mem_cons_self))
  have hfields : row.fields.normal = node := congrArg NodeDict.fields hdict
  have hflag : node.testnet = flag testnet := by
    rw [← hfields]
    exact ofNetwork_testnet hrow
  refine ⟨hflag, ?_, fun hnil => ?_⟩
  · rw [← hfields, normal_normal]
  · rw [hcache.length_eq, hnil, hrows, if_pos hflag, List.length_append] at hlength
    exact List.length_eq_zero_iff.1 (Nat.succ.inj hlength.symm)

theorem addNode_listed (h : Listed testnet self) {node : NodeFields} (hharmless : Harmless limitKnown testnet self (.addNode node)) :
    Listed testnet (databaseAddNode self node) := by
  obtain ⟨hflag, hnormal, hnone⟩ := hharmless
  have hsame : self.nodeListCache.Perm ((self.nodes.ofNetwork testnet).map NodeRow.dict) := by
    rcases h with hnil | hsame
    · rw [hnil, hnone hnil]
      exact List.Perm.refl _
    · exact hsame
  have hrows : (databaseAddNode self node).nodes.ofNetwork testnet = _ := ofNetwork_insert self.nodes node
  refine Or.inr ((addNode_cache self node).trans ((hsame.cons _).trans ?_))
  rw [hrows, if_pos hflag, List.map_append]
  refine List.Perm.trans ?_ (List.perm_append_singleton _ _).symm
  rw [NodeRow.dict, hnormal]
  exact List.Perm.refl _

theorem filter_map_dict (rows : List NodeRow) (keep : NodeDict → Bool) :
    (rows.map NodeRow.dict).filter keep = (rows.filter fun row => keep row.dict).map NodeRow.dict := List.filter_map

theorem removeNodeByIp_listed (h : Listed testnet self) (ip : List UInt8) : Listed testnet (databaseRemoveNodeByIp self ip) := by
  rcases h with hnil | hsame
  · refine Or.inl ?_
    show self.nodeListCache.filter _ = []
    rw [hnil]
    rfl
  · refine Or.inr ?_
    have hkept := hsame.filter fun dict => dict.fields.ip ≠ ip
    rw [filter_map_dict] at hkept
    refine hkept.trans (List.Perm.of_eq (congrArg (List.map NodeRow.dict) ?_))
    refine Eq.trans ?_ (ofNetwork_delete self.nodes _).symm
    refine List.filter_congr fun row _ => ?_
    by_cases hip : row.fields.ip = ip
    · simp [NodeRow.dict, NodeFields.normal, hip]
    · simp [NodeRow.dict, NodeFields.normal, hip]

theorem index_of_id {row : NodeRow} {index : Int32} (h : (row.id : Int) = index.toInt) : row.index = index := by
  rw [NodeRow.index, ← Int32.ofInt_eq_ofNat, h, Int32.ofInt_toInt]

/-- The list after an index was removed from it. -/
theorem removed_listed (hsame : self.nodeListCache.Perm ((self.nodes.ofNetwork testnet).map NodeRow.dict)) (index : Int32) :
    (self.nodeListCache.filter fun dict => dict.index ≠ index).Perm
      (((self.nodes.ofNetwork testnet).filter fun row => row.index ≠ index).map NodeRow.dict) := by
  have hkept := hsame.filter fun dict => dict.index ≠ index
  rwa [filter_map_dict] at hkept

/-- A row whose id agrees with the index in the low 32 bits only stays in the table. -/
theorem removeNode_harmless (h : Listed testnet self) {index : Int32} (hnext : Transparent testnet (databaseRemoveNode limitKnown self index)) :
    Harmless limitKnown testnet self (.removeNode index) := by
  intro hlimit hempty
  rw [databaseRemoveNode, if_pos hlimit] at hnext
  have hrows := @ofNetwork_delete testnet self.nodes fun row => (row.id : Int) = index.toInt
  have hkept := removed_listed (h.resolve_left hempty) index
  rcases transparent_iff.1 hnext with hnil | ⟨hsame, -⟩
  · refine Or.inr fun row hrow => by_contra fun hne => ?_
    have hmem := hkept.mem_iff.2 (List.mem_map_of_mem (List.mem_filter.2 ⟨hrow, decide_eq_true hne⟩))
    rw [show self.nodeListCache.filter (fun dict => dict.index ≠ index) = [] from hnil] at hmem
    cases hmem
  · refine Or.inl fun row hrow hindex => by_contra fun hid => ?_
    have hleft : row ∈ (self.nodes.delete fun row => (row.id : Int) = index.toInt).ofNetwork testnet := by
      rw [hrows]
      exact List.mem_filter.2 ⟨hrow, by simpa using hid⟩
    have hmem := (hsame row.dict).2 (List.mem_map_of_mem hleft)
    exact absurd hindex (of_decide_eq_true (List.mem_filter.1 hmem).2)

theorem removeNode_listed (h : Listed testnet self) {index : Int32} (hharmless : Harmless limitKnown testnet self (.removeNode index)) :
    Listed testnet (databaseRemoveNode limitKnown self index) := by
  rw [databaseRemoveNode]
  split
  · rename_i hlimit
    have hrows := @ofNetwork_delete testnet self.nodes fun row => (row.id : Int) = index.toInt
    by_cases hempty : self.nodeListCache = []
    · refine Or.inl ?_
      show self.nodeListCache.filter _ = []
      rw [hempty]
      rfl
    have hkept := removed_listed (h.resolve_left hempty) index
    rcases hharmless hlimit hempty with hids | hids
    · refine Or.inr (hkept.trans (List.Perm.of_eq (congrArg (List.map NodeRow.dict) ?_)))
      refine Eq.trans (List.filter_congr fun row hrow => ?_) hrows.symm
      by_cases hindex : row.index = index
      · simp [hindex, hids row hrow hindex]
      · simp [hindex, mt index_of_id hindex]
    · refine Or.inl (List.length_eq_zero_iff.1 ?_)
      show (self.nodeListCache.filter fun dict => dict.index ≠ index).length = 0
      rw [hkept.length_eq, List.length_map, List.length_eq_zero_iff, List.filter_eq_nil_iff]
      exact fun row hrow hne => of_decide_eq_true hne (hids row hrow)
  · exact h

/-! ## Runs -/

theorem call_harmless (h : Listed testnet self) {call : NodeCall} (hnext : Transparent testnet (call.run limitKnown self)) :
    Harmless limitKnown testnet self call := by
  cases call with
  | nodeList other => exact nodeList_harmless hnext
  | addNode node => exact addNode_harmless hnext
  | removeNode index => exact removeNode_harmless h hnext
  | _ => trivial

theorem call_listed (h : Listed testnet self) {call : NodeCall} (hharmless : Harmless limitKnown testnet self call) :
    Listed testnet (call.run limitKnown self) := by
  cases call with
  | nodeList other => exact nodeList_listed h hharmless
  | nodeListCount other => exact h
  | addNode node => exact addNode_listed h hharmless
  | removeNode index => exact removeNode_listed h hharmless
  | removeNodeByIp ip => exact removeNodeByIp_listed h ip

/-- For a network both calls are right at every moment of a run exactly if its calls are
    harmless. -/
theorem nodes_transparent_iff (limitKnown testnet : Bool) (nodes : NodeTable) (calls : List NodeCall) :
    Throughout (fun self call => some (NodeCall.run limitKnown self call)) (Transparent testnet) ⟨nodes, []⟩ calls ↔
      Along (fun self call => some (NodeCall.run limitKnown self call)) (Harmless limitKnown testnet) ⟨nodes, []⟩ calls := by
  refine @throughout_iff_along _ _ _ (Transparent testnet) (Listed testnet) (Harmless limitKnown testnet)
    (fun self call next hlisted _ hnext => ?_) (fun _ _ _ _ hnone => (by cases hnone)) _ _ (Or.inl rfl)
    (transparent_of_listed (Or.inl rfl))
  cases hnext
  exact ⟨fun hgood => call_listed hlisted (call_harmless hlisted hgood),
    fun hgood => call_harmless hlisted hgood, fun hharmless => transparent_of_listed (call_listed hlisted hharmless)⟩

def exampleNodes : NodeTable where
  rows := [⟨1, ⟨[49], 8333, 1, 0, 0, 0, 0⟩⟩, ⟨2, ⟨[50], 18333, 1, 0, 1, 0, 0⟩⟩]
  id_nodup := by decide

/-- A node of each network: once the list was asked for one network it answers for both. -/
theorem not_nodes_transparent :
    ¬ ∀ (limitKnown testnet : Bool) (nodes : NodeTable) (calls : List NodeCall),
      Throughout (fun self call => some (NodeCall.run limitKnown self call)) (Transparent testnet) ⟨nodes, []⟩ calls := by
  intro h
  have hwrong := h true true exampleNodes [.nodeList false] _ (List.prefix_refl _) _ rfl
  have hharmless := @nodeList_harmless true true ⟨exampleNodes, []⟩ false hwrong rfl
  revert hharmless
  decide

end BitcoinSpoon.Database
