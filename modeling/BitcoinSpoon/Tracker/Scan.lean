/-
  BitcoinSpoon.Tracker.Scan — the scans over the addresses of a wallet
  (`code/TransactionTracker.c`).

  Derivation `i` of a wallet gives two keys and their hashes (`scanAt`); a stored
  transaction matches them by what its scripts push. Every scan starts at some index and
  goes on for ten indices after the last one that matched, and they differ in what they
  match and gather. `none` is a scan that needs more rounds, runs out of `int`s or crashes
  in a derivation. Stored transactions are told apart by where they are stored:
  `DataRaw` compares the addresses of their inputs and outputs.
-/

import BitcoinSpoon.Hd.Curve
import BitcoinSpoon.Loop.GapScan
import BitcoinSpoon.Tracker.Stored

namespace BitcoinSpoon

open Wire Loop

def HDWALLET_SCANAHEAD_COUNT : Nat := 10

/-- `StringF("%d", i)`, for an `i` that is not negative. -/
def decimal (i : Nat) : Bytes := (Nat.toDigits 10 i).map fun digit => UInt8.ofNat digit.toNat

variable (c : HdCrypto)

def pubKeyExpand (publicKey : Data) : Data := publicKeySerializeDefault c.toCrypto (publicKeyParse c.toCrypto publicKey)

def ttKeysAndKeyHashesForWallet (hdWalletParam : Data) : Dict :=
  let compressedPubKey := pubKeyFromHdWallet c hdWalletParam
  let fullPubKey := pubKeyExpand c compressedPubKey
  let compressedHash := hash160 c.toCrypto compressedPubKey
  let fullHash := hash160 c.toCrypto fullPubKey
  let result := dictAdd (dictAdd dictNew compressedPubKey none) fullPubKey none
  dictAdd (dictAdd result fullHash fullPubKey) compressedHash compressedPubKey

/-! ## Matches -/

def ttAnyTransactionContainsOneOf (self : TransactionTracker) (keysAndHashes : Dict) : Bool :=
  self.allTransactions.any fun tx => ttTransactionContainsOneOf tx keysAndHashes

/-- One of the outputs of the stored transactions. -/
def anyOutputContainsOneOf (self : TransactionTracker) (keysAndHashes : Dict) : Bool :=
  self.allTransactions.any fun tx => ttTransactionOutputsContainsOneOf tx keysAndHashes

/-! ## Scans -/

/-- Derivation `i`, as long as `i` is an `int`. -/
def walletAt (root : Data) (i : Nat) : Option Data := if i < 2 ^ 31 then hdWallet c root (decimal i) else none

/-- A derived wallet and what the stored transactions are matched with. -/
def scanAt (root : Data) (i : Nat) : Option (Data × Dict) :=
  (walletAt c root i).map fun wallet => (wallet, ttKeysAndKeyHashesForWallet c wallet)

/-- The transactions that match and are not in the array; their positions stand for them. -/
def addMatching (self : TransactionTracker) (items : Dict) (array : List Nat) : List Nat :=
  self.allTransactions.zipIdx.foldl
    (fun array (tx, position) =>
      if ttTransactionContainsOneOf tx items && !array.contains position then array ++ [position] else array) array

/-- The positions of the transactions, and `usedKeysAndHashes` after the call. -/
def ttAllTransactionsFor (self : TransactionTracker) (hdWalletRoot : Data) (usedKeysAndHashes : Dict) (rounds : Nat) :
    Option (List Nat × Dict) :=
  (gapScan HDWALLET_SCANAHEAD_COUNT (scanAt c hdWalletRoot) (fun (_, items) => ttAnyTransactionContainsOneOf self items)
    (fun _ (_, items) (array, used) => (addMatching self items array, dictAddDict used items)) rounds 0 0
    ([], usedKeysAndHashes)).map Prod.snd

/-- The wallet, once for every stored transaction that pays it. -/
def addPaid (self : TransactionTracker) (hdWalletTmp : Data) (items : Dict) (result : Datas) : Datas :=
  self.allTransactions.foldl
    (fun result tx => if ttTransactionOutputsContainsOneOf tx items then result ++ [hdWalletTmp] else result) result

def ttAllActiveDerivations (self : TransactionTracker) (hdWalletData : Data) (rounds : Nat) : Option Datas :=
  (gapScan HDWALLET_SCANAHEAD_COUNT (scanAt c hdWalletData) (fun (_, items) => anyOutputContainsOneOf self items)
    (fun _ (hdWalletTmp, items) result => addPaid self hdWalletTmp items result) rounds 0 0 []).map Prod.snd

/-- The loop of `TTUnusedWallet`; what it returns is derivation `i`. `none` inside is NULL. -/
def unusedWalletFrom (self : TransactionTracker) (hdWalletParam : Data) (n : Nat) :
    Nat → Nat → Nat → Option (Option (Nat × Data))
  | 0, _, _ => none
  | rounds + 1, i, lastUsedAddress =>
    if i < lastUsedAddress + HDWALLET_SCANAHEAD_COUNT then
      match scanAt c hdWalletParam i with
      | none => none
      | some (hdWalletTmp, items) =>
        if anyOutputContainsOneOf self items then unusedWalletFrom self hdWalletParam n rounds (i + 1) (i + 1)
        else if i - lastUsedAddress = n then some (some (i, hdWalletTmp))
        else unusedWalletFrom self hdWalletParam n rounds (i + 1) lastUsedAddress
    else some none

/-- The index of the wallet returned, and the wallet. -/
def ttUnusedWallet (self : TransactionTracker) (hdWalletParam : Data) (n rounds : Nat) : Option (Option (Nat × Data)) :=
  unusedWalletFrom c self hdWalletParam (n % HDWALLET_SCANAHEAD_COUNT) rounds 0 0

/-! ## A transparent instance

The logarithms of the keys count the children of a wallet. -/

def countHmac (key message : Bytes) : Bytes :=
  scalarBytes ((message.getLastD 0).toNat + 1) ++ plainHash 32 (key ++ message)

def countCrypto : HdCrypto :=
  { logCrypto with
    CCHmac := countHmac
    CCHmac_length := fun key message => by
      rw [countHmac, List.length_append, scalarBytes_length]
      show 32 + (leBytes 32 _).length = 64
      rw [leBytes_length] }

def countRoot : Data := hdWalletPub countCrypto (some (0x02 :: scalarBytes 5)) (some (List.replicate 32 0))

def countWallet (i : Nat) : Data := (hdWallet countCrypto countRoot (decimal i)).getD none

end BitcoinSpoon
