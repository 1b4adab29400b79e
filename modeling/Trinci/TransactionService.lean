import Mathlib.Data.Finset.SDiff
import Trinci.CoreModels

/-!
# The transaction service

The pool of unconfirmed transactions and the handlers of `TransactionService`. The
clock is read once for each transaction that is added, so a handler takes all its
readings. The pool is a hash map: the order in which it lists its entries is not
fixed, and no result depends on the order of the list used here.
-/

namespace Trinci

universe u

variable {A B C T : Type u}

def minTxsToBuild : Nat := 3

def repropagateOldTxsS : UInt64 := 60

inductive PoolPanic
  /-- The check of a transaction ended the service. -/
  | verify
  | missingTx
  deriving DecidableEq

structure TransactionService (A T : Type u) where
  alignmentInProgress : Bool
  buildInProgress : Bool
  nodeId : String
  oldCollector : List (Hash × UInt64)
  unconfirmedPool : AList fun _ : Hash => T × Nat × Option (List A)
  unconfirmedPoolAttachments : Finset A

namespace TransactionService

def start (nodeId : String) : TransactionService A T where
  alignmentInProgress := false
  buildInProgress := false
  nodeId := nodeId
  oldCollector := []
  unconfirmedPool := ∅
  unconfirmedPoolAttachments := ∅

def poolLength (s : TransactionService A T) : Nat := s.unconfirmedPool.entries.length

def checkWhetherToBuildBlock (s : TransactionService A T) :
    TransactionService A T × List (Output A B C T) :=
  if s.alignmentInProgress then (s, [])
  else
    let timer : List (Output A B C T) :=
      if s.poolLength = 1 then [.msg .blockService .startTimerToBuildBlock] else []
    if minTxsToBuild ≤ s.poolLength ∧ !s.buildInProgress then
      ({ s with buildInProgress := true }, timer ++ [.msg .blockService .buildBlock])
    else (s, timer)

section Pool

variable [DecidableEq A] [Transactable T]

/-- The service with the transaction in its pool, and the entry it replaced. -/
def insertInPool (s : TransactionService A T) (tx : T) (size : Nat)
    (attachments : Option (List A)) :
    TransactionService A T × Option (T × Nat × Option (List A)) :=
  let hash := Transactable.getHash tx
  ({ s with
      unconfirmedPoolAttachments := s.unconfirmedPoolAttachments ∪ (attachments.getD []).toFinset
      unconfirmedPool := s.unconfirmedPool.insert hash (tx, size, attachments) },
    s.unconfirmedPool.lookup hash)

omit [Transactable T] in
def removeFromPool (s : TransactionService A T) (hash : Hash) : TransactionService A T :=
  let attachments := match s.unconfirmedPool.lookup hash with
    | some (_, _, some attachments) => attachments.toFinset
    | _ => ∅
  { s with
    unconfirmedPoolAttachments := s.unconfirmedPoolAttachments \ attachments
    unconfirmedPool := s.unconfirmedPool.erase hash }

def addTx (now : UInt64) (s : TransactionService A T) (tx : T) (size : Nat)
    (attachments : Option (List A)) :
    Except PoolPanic (TransactionService A T × List (Output A B C T)) :=
  match Transactable.verify tx with
  | none => .error .verify
  | some false => .ok (s, [])
  | some true =>
    let (s, replaced) := s.insertInPool tx size attachments
    if replaced.isNone then
      .ok ({ s with oldCollector := s.oldCollector ++ [(Transactable.getHash tx, now)] } :
        TransactionService A T).checkWhetherToBuildBlock
    else .ok (s, [])

/-- The loop of `AddTxs`, with the clock readings for its transactions. -/
def addTxs (now : Nat → UInt64) (s : TransactionService A T) :
    List (T × Nat × Option (List A)) →
      Except PoolPanic (TransactionService A T × List (Output A B C T))
  | [] => .ok (s, [])
  | (tx, size, attachments) :: txs => do
    let (s, out) ← s.addTx (now 0) tx size attachments
    let (s, rest) ← s.addTxs (fun i => now (i + 1)) txs
    return (s, out ++ rest)

omit [Transactable T] in
/-- One iteration of the loop of `BlockConsolidated`. -/
def forget (s : TransactionService A T) (hash : Hash) : TransactionService A T :=
  let s := s.removeFromPool hash
  { s with oldCollector := s.oldCollector.filter fun entry => entry.1 ≠ hash }

omit [Transactable T] in
def blockConsolidated (s : TransactionService A T) (txsHashes : List Hash) :
    TransactionService A T × List (Output A B C T) :=
  let s := { txsHashes.foldl forget s with buildInProgress := false }
  if s.poolLength ≠ 0 ∧ s.poolLength < minTxsToBuild then
    (s, [.msg .blockService .startTimerToBuildBlock])
  else s.checkWhetherToBuildBlock

end Pool

/-- The transactions of a block, or a panic at the first that the pool does not hold. -/
def collectBlockTxs (s : TransactionService A T) :
    List Hash → Except PoolPanic (List T)
  | [] => .ok []
  | hash :: hashes =>
    match s.unconfirmedPool.lookup hash with
    | none => .error .missingTx
    | some (tx, _, _) => do
      let txs ← s.collectBlockTxs hashes
      return tx :: txs

def isOld (now : UInt64) (entry : Hash × UInt64) : Bool := repropagateOldTxsS ≤ now - entry.2

def checkOldTxs (now : UInt64) (s : TransactionService A T) :
    TransactionService A T × List (Output A B C T) :=
  if s.alignmentInProgress then (s, [])
  else
    let txs := (s.oldCollector.filter (isOld now)).filterMap fun entry =>
      (s.unconfirmedPool.lookup entry.1).map fun stored => stored.1
    ({ s with oldCollector := s.oldCollector.map fun entry =>
        if isOld now entry then (entry.1, now) else entry },
      if txs.isEmpty then [] else [.msg .nodeInterface (.propagateOldTxs txs)])

variable [DecidableEq A] [Transactable T]

def handleMessages (now : Nat → UInt64) (s : TransactionService A T) (msg : Msg A B C T) :
    Except PoolPanic (TransactionService A T × List (Output A B C T)) :=
  match msg with
  | .addTx tx size attachments => s.addTx (now 0) tx size attachments
  | .addTxs txs => s.addTxs now txs
  | .alignmentEnded => .ok ({ s with alignmentInProgress := false }, [])
  | .alignmentStarted => .ok ({ s with alignmentInProgress := true }, [])
  | .blockConsolidated _ txsHashes _ => .ok (s.blockConsolidated txsHashes)
  | .collectBlockTxs block round txsHashes => do
    let txs ← s.collectBlockTxs txsHashes
    return (s, [.msg .nodeInterface (.executeBlock block round txs)])
  | .checkOldTxs => .ok (s.checkOldTxs (now 0))
  | _ => .ok (s, [])

omit [DecidableEq A] [Transactable T] in
def handleRequests (s : TransactionService A T) : Req → Option (Res A B C T)
  | .getPoolLength => some (.getPoolLength s.poolLength)
  | .getTxs hashes => some (.getTxs (hashes.filterMap fun hash => s.unconfirmedPool.lookup hash))
  | .getUnconfirmedHashes =>
    some (.getUnconfirmedHashes (s.unconfirmedPool.entries.map fun entry => (entry.1, entry.2.2.1)))
  | _ => none

end TransactionService

end Trinci
