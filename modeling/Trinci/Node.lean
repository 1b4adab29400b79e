import Trinci.BlockService
import Trinci.ConsensusService
import Trinci.TransactionService
import Trinci.WasmService

/-!
# A whole node

The services of a node with the messages on their way between them. A message may
be delivered at any time and in any order, which allows for the threads that pass
messages on. Answers to requests are part of the input. Transactions enter through
the REST interface or by gossip, where the database is asked first; what peers and
timers send is an input too. A service that panics does not take the input.
-/

namespace Trinci

open StatefulSteps

variable {W : Type}

abbrev NodeMsg := Msg Hash Block Confirmation Transaction

abbrev NodeOutput := Output Hash Block Confirmation Transaction

inductive NodePanic
  | consensus (p : ConsensusPanic)
  | block (p : BlockStop)
  | pool (p : PoolPanic)
  | wasm (p : ExecutionPanic)

/-- What the service that takes a message reads from outside. -/
structure NodeEnv where
  consensus : Env
  block : BlockEnv Hash Block Confirmation Transaction
  now : Nat → UInt64
  /-- The answer to `GetLeader`, if any. -/
  expectedLeader : Option String

structure Node (W : Type) where
  consensus : ConsensusService Block Confirmation
  blockService : BlockService
  transactionService : TransactionService Hash Transaction
  wasm : WasmService W
  inFlight : List NodeOutput

inductive NodeInput
  /-- One of the messages on their way, by its place. -/
  | deliver (index : Nat) (env : NodeEnv)
  /-- A message from a peer, a timer or a thread. -/
  | outside (msg : NodeOutput) (env : NodeEnv)
  /-- A transaction sent to the REST interface or by gossip. -/
  | submit (tx : Transaction)
  | oldTransactions (txs : List Transaction)
  | bootstrap (block : Block) (bootstrapTxs : List Transaction) (networkName : String)
      (expectedLeader : Option String)

/-- The messages that peers, timers and threads send. `AddTx` comes from the REST
interface of old blocks, which does not ask the database. -/
def fromOutside : NodeOutput → Bool
  | .msg .consensusService msg =>
    match msg with
    | .blockFromPeer _ _ _ => true
    | .blockConfirmationFromPeer _ => true
    | .checkOldBlockProposals => true
    | .confirmBuildBlockInPlaceOfLeader _ _ => true
    | .verifyConfirmations _ _ => true
    | _ => false
  | .msg .blockService msg =>
    match msg with
    | .buildBlockTimeout _ => true
    | .heightFromPeer _ => true
    | .retrieveBlock _ => true
    | .alignmentEnded => true
    | .detectedPossibleMisalignment => true
    | _ => false
  | .msg .transactionService msg =>
    match msg with
    | .addTx _ _ _ => true
    | .alignmentEnded => true
    | .checkOldTxs => true
    | _ => false
  | .msg .nodeInterface (.verifyIfConsolidated _ _) => true
  | _ => false

namespace Node

variable [Primitives] [Serialize BlockData] [Serialize ConfirmationData] [NodeCodec] [Merkle]
  [Pcg32] [Wm W]

/-- The wasm service takes an input. -/
def execute (n : Node W) (input : WasmInput) : Except NodePanic (Node W × List NodeOutput) :=
  match n.wasm.handle input with
  | .error p => .error (.wasm p)
  | .ok (wasm, out) => .ok ({ n with wasm := wasm }, out)

/-- `CoreInterface`: what the core asks of the node. Messages for peers leave it. -/
def coreInterface (n : Node W) (env : NodeEnv) :
    NodeMsg → Except NodePanic (Node W × List NodeOutput)
  | .executeBlock block round txs => n.execute (.executeBlock block round txs env.expectedLeader)
  | .startBlockConsolidation block confirmations txsHashes =>
    n.execute (.startBlockConsolidation block confirmations txsHashes)
  | .verifyIfConsolidated height round =>
    .ok (n, if (n.wasm.db.loadBlock height).isNone then
      [.msg .consensusService (.blockElectionFailed height (round + 1))] else [])
  | _ => .ok (n, [])

/-- The service that a message is for takes it. -/
def receive (n : Node W) (env : NodeEnv) :
    NodeOutput → Except NodePanic (Node W × List NodeOutput)
  | .msg .consensusService msg =>
    match n.consensus.handleMessages env.consensus msg with
    | .error p => .error (.consensus p)
    | .ok (consensus, out) => .ok ({ n with consensus := consensus }, out)
  | .msg .blockService msg =>
    match n.blockService.handleMessages env.block msg with
    | .error p => .error (.block p)
    | .ok (blockService, out) => .ok ({ n with blockService := blockService }, out)
  | .msg .transactionService msg =>
    match n.transactionService.handleMessages env.now msg with
    | .error p => .error (.pool p)
    | .ok (transactionService, out) =>
      .ok ({ n with transactionService := transactionService }, out)
  | .msg .drandService (.updateSeedSource lastBlockHash txsHash rxsHash) =>
    n.execute (.updateSeedSource lastBlockHash txsHash rxsHash)
  | .req .drandService (.getDRandNum max) => n.execute (.getDRandNum max)
  | .msg .nodeInterface msg => n.coreInterface env msg
  | _ => .ok (n, [])

/-- The entry of a submitted transaction in the pool, with its size. -/
def poolEntry (tx : Transaction) : Transaction × Nat × Option (List Hash) :=
  (tx, (rmpSerialize tx).length, Db.retrieveAttachmentsFromTx tx)

def addTx (tx : Transaction) : NodeOutput :=
  .msg .transactionService (.addTx tx (rmpSerialize tx).length (Db.retrieveAttachmentsFromTx tx))

/-- What an input does, with the messages it sends. -/
def respond (n : Node W) : NodeInput → Except NodePanic (Node W × List NodeOutput)
  | .deliver index env =>
    match n.inFlight[index]? with
    | none => .ok (n, [])
    | some msg => ({ n with inFlight := n.inFlight.eraseIdx index } : Node W).receive env msg
  | .outside msg env => if fromOutside msg then n.receive env msg else .ok (n, [])
  | .submit tx =>
    if tx.getNetwork ≠ n.wasm.config.networkName then .ok (n, [])
    else if n.wasm.db.containsTransaction tx.getHash then .ok (n, [])
    else .ok (n, [addTx tx])
  | .oldTransactions txs =>
    .ok (n, [.msg .transactionService (.addTxs
      ((txs.filter fun tx => !n.wasm.db.containsTransaction tx.getHash).map poolEntry))])
  | .bootstrap block bootstrapTxs networkName expectedLeader =>
    n.execute (.executeGenesisBlock block bootstrapTxs networkName expectedLeader)

/-- One input: what it sends is on its way afterwards. -/
def handle (n : Node W) (input : NodeInput) : Except NodePanic (Node W × List NodeOutput) :=
  match n.respond input with
  | .error p => .error p
  | .ok (n, out) => .ok ({ n with inFlight := n.inFlight ++ out }, out)

end Node

end Trinci
