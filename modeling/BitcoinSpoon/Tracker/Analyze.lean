/-
  BitcoinSpoon.Tracker.Analyze — the transactions an analyzer is made of
  (`code/TransactionTracker.c`).

  `TTAnalyzerFor` takes the transactions of the receive branch and adds those of the change
  branch it does not find. It searches by height and time alone, so a change transaction of
  the same block and time as another one, or unconfirmed with the same time, is taken for it
  and left out (`analyzer_sees_all_iff`). `TANew` then copies what is listed, one by one.
-/

import BitcoinSpoon.Tracker.Unused
import BitcoinSpoon.Loop.SortSearch

namespace BitcoinSpoon

open Wire Loop

/-- What the database has for the hash of a transaction, -1 and 0 if it has none. -/
structure Moments where
  databaseTransactionHeight : Data → Int32
  databaseTransactionTime : Data → UInt32

variable (c : HdCrypto) (database : Moments)

def transactionAt (self : TransactionTracker) (position : Nat) : Transaction := (self.allTransactions[position]?).getD default

/-- The transactions at two positions. The `int`s wrap around. -/
def txCompare (self : TransactionTracker) (left right : Nat) : Int :=
  let lHash := hash256 c.toCrypto (some (transactionData (transactionAt self left)))
  let rHash := hash256 c.toCrypto (some (transactionData (transactionAt self right)))
  let result := database.databaseTransactionHeight lHash - database.databaseTransactionHeight rHash
  if result = 0 then (database.databaseTransactionTime lHash - database.databaseTransactionTime rHash).toInt32.toInt
  else result.toInt

/-- What `TANew` is given: the positions of the transactions and the key set. -/
def ttAnalyzerFor (lib : SortLibrary Nat) (self : TransactionTracker) (hdWalletRoot : Data) (rounds : Nat) :
    Option (List Nat × Dict) := do
  let receive ← hdWallet c hdWalletRoot (decimal 0)
  let (array, items) ← ttAllTransactionsFor c self receive dictNew rounds
  let array := lib.qsort (txCompare c database self) array
  let branch ← hdWallet c hdWalletRoot (decimal 1)
  let (change, items) ← ttAllTransactionsFor c self branch items rounds
  some (addMissing lib (txCompare c database self) array change, items)

/-- What `TTAllTransactionsFor` returns for the two branches of a root. -/
def BranchesAre (self : TransactionTracker) (hdWalletRoot : Data) (receive change : List Nat) (items : Dict) : Prop :=
  ∃ receiveRoot changeRoot used, hdWallet c hdWalletRoot (decimal 0) = some receiveRoot ∧
    hdWallet c hdWalletRoot (decimal 1) = some changeRoot ∧
    Returns (ttAllTransactionsFor c self receiveRoot dictNew) (receive, used) ∧
    Returns (ttAllTransactionsFor c self changeRoot used) (change, items)

/-- The analyzer is made of every transaction of the two branches, once. -/
def SeesAll (lib : SortLibrary Nat) (self : TransactionTracker) (hdWalletRoot : Data) (receive change : List Nat) (items : Dict) :
    Prop :=
  ∃ array, Returns (ttAnalyzerFor c database lib self hdWalletRoot) (array, items) ∧ Collects array receive change

variable {c database} {self : TransactionTracker} {root : Data}

/-- A tie is the same height and the same time. -/
theorem txCompare_eq_zero {left right : Nat} :
    txCompare c database self left right = 0 ↔
      database.databaseTransactionHeight (hash256 c.toCrypto (some (transactionData (transactionAt self left)))) =
          database.databaseTransactionHeight (hash256 c.toCrypto (some (transactionData (transactionAt self right)))) ∧
        database.databaseTransactionTime (hash256 c.toCrypto (some (transactionData (transactionAt self left)))) =
          database.databaseTransactionTime (hash256 c.toCrypto (some (transactionData (transactionAt self right)))) := by
  have hint : ∀ a : Int32, a.toInt = 0 ↔ a = 0 := fun a => by
    rw [← Int32.toInt_inj, Int32.toInt_zero]
  have hsub : ∀ a b : Int32, a - b = 0 ↔ a = b := fun a b => by
    rw [← Int32.sub_self b]
    exact Int32.sub_left_inj b
  have htime : ∀ a b : UInt32, (a - b).toInt32 = 0 ↔ a = b := fun a b => by
    rw [UInt32.toInt32_sub, hsub]
    refine ⟨fun h => ?_, fun h => by rw [h]⟩
    rw [← UInt32.toUInt32_toInt32 a, h, UInt32.toUInt32_toInt32]
  rw [txCompare]
  split
  · rename_i hheight
    rw [hint, htime, and_iff_right ((hsub _ _).1 hheight)]
  · rename_i hheight
    rw [hint]
    exact iff_of_false hheight fun h => hheight ((hsub _ _).2 h.1)

/-! ## The scan of a branch -/

theorem addMatching_nodup {items : Dict} {array : List Nat} (h : array.Nodup) : (addMatching self items array).Nodup := by
  refine foldl_inv List.Nodup h ?_
  rintro ⟨tx, position⟩ - array h
  show (ite _ _ _ : List Nat).Nodup
  split
  · rename_i hadd
    rw [Bool.and_eq_true] at hadd
    rw [List.nodup_append_comm]
    exact List.nodup_cons.2 ⟨by simpa using hadd.2, h⟩
  · exact h

theorem allTransactionsFor_nodup {used : Dict} {result : List Nat × Dict}
    (h : Returns (ttAllTransactionsFor c self root used) result) : result.1.Nodup := by
  obtain ⟨⟨last, array, used'⟩, hscan, rfl⟩ := returns_map.1 h
  obtain ⟨t, -, heq⟩ := returns_gapScan.1 hscan
  rw [(Prod.mk.inj heq).2]
  exact gathered_inv (fun result : List Nat × Dict => result.1.Nodup) List.nodup_nil fun _ _ _ => addMatching_nodup

theorem allTransactionsFor_le {used : Dict} {result : List Nat × Dict} {rounds rounds' : Nat} (hle : rounds ≤ rounds')
    (h : ttAllTransactionsFor c self root used rounds = some result) : ttAllTransactionsFor c self root used rounds' = some result := by
  obtain ⟨scanned, hscan, rfl⟩ := Option.map_eq_some_iff.1 h
  rw [ttAllTransactionsFor, gapScan_le hle hscan]
  rfl

/-! ## Both branches -/

theorem analyzerFor_returns {receive change : List Nat} {items : Dict} (h : BranchesAre c self root receive change items)
    (lib : SortLibrary Nat) {result : List Nat × Dict} :
    Returns (ttAnalyzerFor c database lib self root) result ↔
      result = (addMissing lib (txCompare c database self) (lib.qsort (txCompare c database self) receive) change, items) := by
  obtain ⟨receiveRoot, changeRoot, used, hreceiveRoot, hchangeRoot, ⟨rounds, hreceive⟩, ⟨rounds', hchange⟩⟩ := h
  have hmono : ∀ branch used n m x, n ≤ m → ttAllTransactionsFor c self branch used n = some x →
      ttAllTransactionsFor c self branch used m = some x := fun _ _ _ _ _ hle h => allTransactionsFor_le hle h
  constructor
  · rintro ⟨more, hmore⟩
    obtain ⟨receiveRoot', hreceiveRoot', hmore⟩ := Option.bind_eq_some_iff.1 hmore
    obtain ⟨⟨array, used'⟩, hreceive', hmore⟩ := Option.bind_eq_some_iff.1 hmore
    obtain ⟨changeRoot', hchangeRoot', hmore⟩ := Option.bind_eq_some_iff.1 hmore
    obtain ⟨⟨change', items'⟩, hchange', hmore⟩ := Option.bind_eq_some_iff.1 hmore
    obtain rfl := Option.some.inj (hreceiveRoot.symm.trans hreceiveRoot')
    obtain rfl := Option.some.inj (hchangeRoot.symm.trans hchangeRoot')
    cases Returns.unique (hmono receiveRoot dictNew) ⟨rounds, hreceive⟩ ⟨more, hreceive'⟩
    cases Returns.unique (hmono changeRoot used) ⟨rounds', hchange⟩ ⟨more, hchange'⟩
    exact (Option.some.inj hmore).symm
  · rintro rfl
    refine ⟨max rounds rounds', ?_⟩
    simp only [ttAnalyzerFor, hreceiveRoot, hchangeRoot, allTransactionsFor_le (Nat.le_max_left rounds rounds') hreceive,
      allTransactionsFor_le (Nat.le_max_right rounds rounds') hchange, Option.bind_eq_bind, Option.bind_some]

/-- Whatever the C library does within its documentation, the analyzer is made of every
    transaction of the two branches once, exactly when the comparison is consistent on them
    and no transaction of the change branch alone has the height and time of another. -/
theorem analyzer_sees_all_iff {receive change : List Nat} {items : Dict} (h : BranchesAre c self root receive change items) :
    (∀ lib : SortLibrary Nat, lib.Lawful → SeesAll c database lib self root receive change items) ↔
      Consistent (txCompare c database self) (receive ++ change) ∧ Untied (txCompare c database self) receive change := by
  have hnodup : receive.Nodup := by
    obtain ⟨receiveRoot, -, used, -, -, hreceive, -⟩ := h
    exact allTransactionsFor_nodup hreceive
  rw [← addMissing_right_iff hnodup]
  refine forall_congr' fun lib => forall_congr' fun _ => ?_
  constructor
  · rintro ⟨array, hreturns, hcollects⟩
    cases (analyzerFor_returns h lib).1 hreturns
    exact hcollects
  · intro hcollects
    exact ⟨_, (analyzerFor_returns h lib).2 rfl, hcollects⟩

/-! ## A transaction of each branch -/

def branchWallet (branch i : Nat) : Data := (hdWallet countCrypto (countWallet branch) (decimal i)).getD none

/-- The first address of the receive branch and the tenth of the change branch are paid. -/
def branchesPaid : TransactionTracker :=
  ⟨[payTo countCrypto (branchWallet 0 0), payTo countCrypto (branchWallet 1 9)], [], [], 0, 0⟩

theorem branchesPaid_branches : ∃ items, BranchesAre countCrypto branchesPaid countRoot [0] [1] items := by
  have hreceiveRoot : hdWallet countCrypto countRoot (decimal 0) = some (countWallet 0) := by decide +kernel
  have hchangeRoot : hdWallet countCrypto countRoot (decimal 1) = some (countWallet 1) := by decide +kernel
  have hscans : ((ttAllTransactionsFor countCrypto branchesPaid (countWallet 0) dictNew 11).bind fun receive =>
      (ttAllTransactionsFor countCrypto branchesPaid (countWallet 1) receive.2 20).map fun change => (receive.1, change.1)) =
        some ([0], [1]) := by decide +kernel
  obtain ⟨⟨receive, used⟩, hreceive, hscans⟩ := Option.bind_eq_some_iff.1 hscans
  obtain ⟨⟨change, items⟩, hchange, heq⟩ := Option.map_eq_some_iff.1 hscans
  cases heq
  exact ⟨items, countWallet 0, countWallet 1, used, hreceiveRoot, hchangeRoot, ⟨11, hreceive⟩, ⟨20, hchange⟩⟩

/-- In the order of their hashes' first bytes, each in a block of its own. -/
def blockEach : Moments := ⟨fun hash => Int32.ofNat (hash.toBytes.headD 0).toNat, fun _ => 0⟩

def unconfirmed : Moments := ⟨fun _ => -1, fun _ => 0⟩

theorem analyzer_sees_block_each : ∃ items, ∀ lib : SortLibrary Nat, lib.Lawful →
    SeesAll countCrypto blockEach lib branchesPaid countRoot [0] [1] items := by
  obtain ⟨items, hbranches⟩ := branchesPaid_branches
  exact ⟨items, (analyzer_sees_all_iff hbranches).2
    ⟨⟨by decide +kernel, by decide +kernel⟩, by unfold Untied; decide +kernel⟩⟩

/-- Unconfirmed, they tie, and the search for the second finds the first. -/
theorem not_analyzer_sees_all : ∃ items, BranchesAre countCrypto branchesPaid countRoot [0] [1] items ∧
    ∀ lib : SortLibrary Nat, lib.Lawful → ¬ SeesAll countCrypto unconfirmed lib branchesPaid countRoot [0] [1] items := by
  obtain ⟨items, hbranches⟩ := branchesPaid_branches
  refine ⟨items, hbranches, fun lib hlib hsees => ?_⟩
  obtain ⟨array, hreturns, -, hmem⟩ := hsees
  have hties : ∀ left right, txCompare countCrypto unconfirmed branchesPaid left right = 0 :=
    fun left right => txCompare_eq_zero.2 ⟨rfl, rfl⟩
  have hconsistent : ∀ l, Consistent (txCompare countCrypto unconfirmed branchesPaid) l := fun l =>
    ⟨fun a _ b _ => by rw [hties, hties], fun a _ b _ c _ _ _ => by rw [hties]⟩
  have hsorted := hlib.qsort_perm _ [0] (hconsistent [0])
  rw [List.perm_singleton] at hsorted
  have hfound : (lib.bsearch (txCompare countCrypto unconfirmed branchesPaid) 1 [0]).isSome := by
    by_contra hnone
    exact hlib.bsearch_missing _ 1 [0] (hconsistent _) (List.pairwise_singleton _ _) (Option.not_isSome_iff_eq_none.1 hnone) 0
      List.mem_cons_self (hties 1 0)
  have hadded := (Prod.mk.inj ((analyzerFor_returns hbranches lib).1 hreturns)).1
  rw [hsorted, addMissing, List.foldl_cons, List.foldl_nil, if_pos hfound] at hadded
  have hsecond := (hmem 1).2 (Or.inr List.mem_cons_self)
  rw [hadded] at hsecond
  exact absurd hsecond (by decide)

end BitcoinSpoon
