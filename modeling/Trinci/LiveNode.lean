import Trinci.LeaderDraws
import Trinci.Node
import Trinci.PlayersReaders
import Trinci.ServiceSteps
import Trinci.TransactionAuthentication

/-!
# A node with ordered channels

The services of one node, each with the channel it reads from. A channel keeps the
order in which it was written. Only what passes through a thread of its own may be
late: a timer, and every message to the node interface, which forwards each in a new
thread. The wasm service executes one block at a time and waits for the leader, whose
request stands in the channel of the consensus service like a message. The block
service waits for its answers, too: it then knows what the transaction service holds
after all the block service sent before. The drand service answers at once: these are the
runs of a node in which no contract draws with the greatest bound, after which nobody
answers. A restart drops everything but the database.
-/

namespace Trinci

open StepMachines

variable {W : Type}

/-- What stands in the channel of the consensus service. -/
inductive ConsensusEntry
  | msg (m : NodeMsg)
  /-- The request of an execution. -/
  | getLeader

/-- The block that the wasm service executes, with the leader once it is answered. -/
structure TakenBlock where
  block : Block
  round : UInt8
  txs : List Transaction
  leader : Option String

structure LiveNode (W : Type) where
  consensus : ConsensusService Block Confirmation
  blockService : BlockService
  transactionService : TransactionService Hash Transaction
  wasm : WasmService W
  toConsensus : List ConsensusEntry
  toBlock : List NodeMsg
  toTransactions : List NodeMsg
  /-- The timers that run and the messages on their way through the node interface. -/
  threads : List NodeOutput
  taken : Option TakenBlock

inductive LiveInput (W : Type)
  /-- The consensus service takes what is first in its channel. -/
  | consensus (env : Env)
  | block (env : BlockEnv Hash Block Confirmation Transaction)
  | transactions (now : Nat → UInt64)
  /-- One of the threads goes on, by its place. -/
  | pass (index : Nat)
  /-- The block that the wasm service took is executed. -/
  | finish
  /-- A message of a peer, of a periodic timer or of a thread that asks peers. -/
  | arrive (msg : NodeOutput)
  | submit (tx : Transaction)
  | oldTransactions (txs : List Transaction)
  | restart (wm : W) (env : Env)

inductive Halt
  /-- There is nothing to take. -/
  | refused
  | panic (p : NodePanic)

/-! ## The channels -/

def consensusEntry : NodeOutput → Option ConsensusEntry
  | .msg .consensusService msg => some (.msg msg)
  | _ => none

def messageTo (dest : Service) : NodeOutput → Option NodeMsg
  | .msg service msg => if service = dest then some msg else none
  | _ => none

/-- What goes on in a thread and comes back to the node. -/
def isThread : NodeOutput → Bool
  | .msg .nodeInterface msg =>
    match msg with
    | .executeBlock _ _ _ => true
    | .startBlockConsolidation _ _ _ => true
    | .verifyIfConsolidated _ _ => true
    | _ => false
  | .electionThread _ _ => true
  | .buildBlockThread _ => true
  | .leaderThread _ => true
  | _ => false

/-- The messages that peers, periodic timers and threads that ask peers send. -/
def arrives : NodeOutput → Bool
  | .msg .consensusService msg =>
    match msg with
    | .blockFromPeer _ _ _ => true
    | .blockConfirmationFromPeer _ => true
    | .checkOldBlockProposals => true
    | .verifyConfirmations _ _ => true
    | _ => false
  | .msg .blockService msg =>
    match msg with
    | .heightFromPeer _ => true
    | .retrieveBlock _ => true
    | .alignmentEnded => true
    | .detectedPossibleMisalignment => true
    | _ => false
  | .msg .transactionService msg =>
    match msg with
    | .addTx _ _ _ => true
    | .alignmentEnded => true
    | .checkOldTxs => true
    | _ => false
  | _ => false

/-- The messages to the transaction service that may come from elsewhere than the
block service. -/
def fromAbroad : NodeMsg → Bool
  | .addTx _ _ _ => true
  | .addTxs _ => true
  | .alignmentEnded => true
  | .checkOldTxs => true
  | _ => false

/-- The transactions that the block service sent before it asked for the pool. -/
def sentBefore : NodeMsg → List NodeOutput → List Transaction
  | .retrieveBlock _, _ :: .msg .transactionService (.addTxs txs) :: _ => txs.map Prod.fst
  | _, _ => []

def collects : NodeOutput → Bool
  | .msg .transactionService (.collectBlockTxs _ _ _) => true
  | _ => false

/-- The last block. -/
def Db.lastBlock? (db : Db) : Option Block := db.loadBlock (UInt64.ofNat (2 ^ 64 - 1))

/-- The settings as a restart reads them. -/
def Db.loadSettings [NodeCodec] (db : Db) : Option BlockchainSettings :=
  (db.configuration.lookup settingsKey).bind
    (rmpDeserialize : Bytes → Option BlockchainSettings)

namespace LiveNode

abbrev LiveEvent (W : Type) := Event (LiveNode W) (LiveInput W) NodeOutput

/-- What was sent is written to the channels. -/
def post (n : LiveNode W) (out : List NodeOutput) : LiveNode W :=
  { n with
    toConsensus := n.toConsensus ++ out.filterMap consensusEntry
    toBlock := n.toBlock ++ out.filterMap (messageTo .blockService)
    toTransactions := n.toTransactions ++ out.filterMap (messageTo .transactionService)
    threads := n.threads ++ out.filter isThread }

variable [Primitives] [Serialize BlockData] [Serialize ConfirmationData] [NodeCodec] [Merkle]
  [Pcg32] [Wm W]

/-- What the pool lists. -/
def poolList (n : LiveNode W) : List (Hash × Nat) :=
  n.transactionService.unconfirmedPool.entries.map fun entry => (entry.1, entry.2.2.1)

/-- Whether the pool has, or will have when it is asked, the transaction of a hash. -/
def holds (n : LiveNode W) (before : List Transaction) (hash : Hash) : Bool :=
  hash ∈ n.transactionService.unconfirmedPool ||
    before.any fun tx => decide (Transactable.verify tx = some true) && decide (tx.getHash = hash)

/-- The answers by which the block service collects transactions are those of the
transaction service, which took what the block service had sent before: a block is
built from what the pool lists, and what the pool listed for an execution it holds. -/
def answers (n : LiveNode W) (msg : NodeMsg) (env : BlockEnv Hash Block Confirmation Transaction)
    (out : List NodeOutput) : Bool :=
  !out.any collects ||
    n.toTransactions.all fromAbroad &&
    (match env.builtFrom with
      | .answer listed => decide (listed.Perm n.poolList)
      | _ => true) &&
    (match env.unconfirmedHashes with
      | .answer listed => (listed.map Prod.fst).all (n.holds (sentBefore msg out))
      | _ => true)

/-! ## The steps -/

/-- A node before its genesis block, which it executes first. -/
def genesisBlock (bootstrapTxs : List Transaction) : Block where
  data :=
    { validator := none
      height := 0
      size := UInt32.ofNat bootstrapTxs.length
      prevHash := Hash.default
      txsHash := Hash.default
      rxsHash := Hash.default
      stateHash := Hash.default
      timestamp := 0 }
  signature := []

/-- The first start of a node, with the accounts of its bootstrap file. -/
def bootstrap (env : Env) (keypair : TrinciKeyPair) (nodeId : String) (wm : W)
    (accounts : Accounts) (bootstrapTxs : List Transaction) (networkName : String) :
    Except Halt (LiveNode W) :=
  if nodeId.isEmpty || bootstrapTxs.isEmpty then .error .refused
  else
    match (Drawing.initCoreFromBootstrap env keypair nodeId :
        Except ConsensusPanic (Drawing Block Confirmation)) with
    | .error p => .error (.panic (.consensus p))
    | .ok core =>
      let wasm : WasmService W :=
        { config := ⟨nodeId, networkName, ""⟩
          db := { Db.empty with accounts := accounts }
          forksCollector := ∅
          wm := wm
          drand := core.seed
          executed := []
          ran := [] }
      match wasm.handle (.executeGenesisBlock (genesisBlock bootstrapTxs) bootstrapTxs networkName
          (some core.consensus.leader)) with
      | .error p => .error (.panic (.wasm p))
      | .ok (wasm, out) =>
        if out.isEmpty then .error .refused
        else
          .ok (({ consensus := core.consensus
                  blockService := BlockService.start keypair nodeId (none : Option Block)
                  transactionService := TransactionService.start nodeId
                  wasm := wasm
                  toConsensus := []
                  toBlock := []
                  toTransactions := []
                  threads := []
                  taken := none } : LiveNode W).post out)

/-- The start of a node that has a last block. -/
def restart (n : LiveNode W) (wm : W) (env : Env) : Except Halt (LiveNode W) :=
  match n.wasm.db.lastBlock?, n.wasm.db.loadSettings with
  | some block, some settings =>
    match settings.networkName with
    | none => .error (.panic (.wasm .missingSettings))
    | some networkName =>
      match (Drawing.initCoreFromDb env n.blockService.keypair n.blockService.nodeId
          (initPlayers n.wasm.db.accounts) block :
          Except ConsensusPanic (Drawing Block Confirmation)) with
      | .error p => .error (.panic (.consensus p))
      | .ok core =>
        .ok
          { consensus := core.consensus
            blockService := BlockService.start n.blockService.keypair n.blockService.nodeId
              (some block)
            transactionService := TransactionService.start n.blockService.nodeId
            wasm :=
              { n.wasm with
                config := ⟨n.blockService.nodeId, networkName, settings.burningFuelMethod⟩
                forksCollector := ∅
                wm := wm
                drand := core.seed }
            toConsensus := []
            toBlock := []
            toTransactions := []
            threads := []
            taken := none }
  | none, _ => .error .refused
  | some _, none => .error (.panic (.wasm .missingSettings))

def sending (n : LiveNode W) (out : List NodeOutput) :
    Except Halt (LiveNode W × List NodeOutput) :=
  .ok (n.post out, out)

def takeConsensus (n : LiveNode W) (env : Env) : Except Halt (LiveNode W × List NodeOutput) :=
  match n.toConsensus with
  | [] => .error .refused
  | .getLeader :: rest =>
    .ok ({ n with
        toConsensus := rest
        taken := n.taken.map fun taken => { taken with leader := some n.consensus.leader } }, [])
  | .msg msg :: rest =>
    match Drawing.handleMessages env ⟨n.consensus, n.wasm.drand⟩ msg with
    | .error p => .error (.panic (.consensus p))
    | .ok (core, out) =>
      { n with
        consensus := core.consensus
        wasm := { n.wasm with drand := core.seed }
        toConsensus := rest }.sending out

def takeBlock (n : LiveNode W) (env : BlockEnv Hash Block Confirmation Transaction) :
    Except Halt (LiveNode W × List NodeOutput) :=
  match n.toBlock with
  | [] => .error .refused
  | msg :: rest =>
    match n.blockService.handleMessages env msg with
    | .error p => .error (.panic (.block p))
    | .ok (blockService, out) =>
      if n.answers msg env out then
        { n with
          blockService := blockService
          toBlock := rest }.sending out
      else .error .refused

def takeTransactions (n : LiveNode W) (now : Nat → UInt64) :
    Except Halt (LiveNode W × List NodeOutput) :=
  match n.toTransactions with
  | [] => .error .refused
  | msg :: rest =>
    match n.transactionService.handleMessages now msg with
    | .error p => .error (.panic (.pool p))
    | .ok (transactionService, out) =>
      { n with
        transactionService := transactionService
        toTransactions := rest }.sending out

/-- The wasm service takes an input. -/
def execute (n : LiveNode W) (input : WasmInput) : Except Halt (LiveNode W × List NodeOutput) :=
  match n.wasm.handle input with
  | .error p => .error (.panic (.wasm p))
  | .ok (wasm, out) => { n with wasm := wasm }.sending out

/-- A thread goes on. The wasm service takes nothing while it executes a block. -/
def proceed (n : LiveNode W) : NodeOutput → Except Halt (LiveNode W × List NodeOutput)
  | .msg .nodeInterface (.executeBlock block round txs) =>
    if n.taken.isSome then .error .refused
    else if (n.wasm.db.loadBlock block.data.height).isSome then n.sending []
    else
      .ok ({ n with
          toConsensus := n.toConsensus ++ [.getLeader]
          taken := some ⟨block, round, txs, none⟩ }, [])
  | .msg .nodeInterface (.startBlockConsolidation block confirmations txsHashes) =>
    if n.taken.isSome then .error .refused
    else n.execute (.startBlockConsolidation block confirmations txsHashes)
  | .msg .nodeInterface (.verifyIfConsolidated height round) =>
    n.sending (if (n.wasm.db.loadBlock height).isNone then
      [.msg .consensusService (.blockElectionFailed height (round + 1))] else [])
  | .electionThread height round =>
    n.sending [.msg .consensusService (.confirmBuildBlockInPlaceOfLeader height round),
      .msg .nodeInterface (.verifyIfConsolidated height round)]
  | .leaderThread height => n.sending [.msg .nodeInterface (.verifyIfConsolidated (height + 1) 0)]
  | .buildBlockThread height => n.sending [.msg .blockService (.buildBlockTimeout height)]
  | _ => .error .refused

def pass (n : LiveNode W) (index : Nat) : Except Halt (LiveNode W × List NodeOutput) :=
  match n.threads[index]? with
  | none => .error .refused
  | some thread => ({ n with threads := n.threads.eraseIdx index } : LiveNode W).proceed thread

def finish (n : LiveNode W) : Except Halt (LiveNode W × List NodeOutput) :=
  match n.taken with
  | some ⟨block, round, txs, some leader⟩ =>
    ({ n with taken := none } : LiveNode W).execute (.executeBlock block round txs (some leader))
  | _ => .error .refused

def handle (n : LiveNode W) : LiveInput W → Except Halt (LiveNode W × List NodeOutput)
  | .consensus env => n.takeConsensus env
  | .block env => n.takeBlock env
  | .transactions now => n.takeTransactions now
  | .pass index => n.pass index
  | .finish => n.finish
  | .arrive msg => if arrives msg then n.sending [msg] else .error .refused
  | .submit tx =>
    if tx.getNetwork ≠ n.wasm.config.networkName then n.sending []
    else if n.wasm.db.containsTransaction tx.getHash then n.sending []
    else n.sending [Node.addTx tx]
  | .oldTransactions txs =>
    n.sending [.msg .transactionService (.addTxs
      ((txs.filter fun tx => !n.wasm.db.containsTransaction tx.getHash).map Node.poolEntry))]
  | .restart wm env =>
    match n.restart wm env with
    | .error h => .error h
    | .ok n => .ok (n, [])

/-- A node after its first start. Later starts are steps. -/
inductive Started : LiveNode W → Prop
  | mk {env : Env} {keypair : TrinciKeyPair} {nodeId : String} {wm : W} {accounts : Accounts}
      {bootstrapTxs : List Transaction} {networkName : String} {n : LiveNode W} :
      bootstrap env keypair nodeId wm accounts bootstrapTxs networkName = .ok n → Started n

/-! ## What a step is -/

section Steps

omit [Primitives] [Serialize BlockData] [Serialize ConfirmationData] [NodeCodec] [Merkle] [Pcg32]
  [Wm W] in
@[simp]
theorem post_nil (n : LiveNode W) : n.post [] = n := by
  simp [post]

/-- The messages by which peers, timers and users reach the node. -/
def Enters (o : NodeOutput) : Prop :=
  arrives o = true ∨ ∃ txs, o = .msg .transactionService (.addTxs txs)

def isEntry : LiveInput W → Bool
  | .arrive _ => true
  | .submit _ => true
  | .oldTransactions _ => true
  | _ => false

def isRestart : LiveInput W → Bool
  | .restart _ _ => true
  | _ => false

/-- The message that the consensus service takes. -/
def takenMsg (e : LiveEvent W) : Option NodeMsg :=
  match e.input, e.before.toConsensus with
  | .consensus _, .msg m :: _ => some m
  | _, _ => none

/-- The message that the block service takes. -/
def takenByBlock (e : LiveEvent W) : Option NodeMsg :=
  match e.input, e.before.toBlock with
  | .block _, m :: _ => some m
  | _, _ => none

omit [Primitives] [Serialize BlockData] [Serialize ConfirmationData] [NodeCodec] [Merkle] [Pcg32]
  [Wm W] in
theorem takenMsg_restart {e : LiveEvent W} (h : isRestart e.input = true) : takenMsg e = none := by
  obtain ⟨before, input, out, after⟩ := e
  cases input <;> first | rfl | cases h

/-- The steps by what they take. -/
inductive LiveStep (n : LiveNode W) : LiveInput W → List NodeOutput → LiveNode W → Prop
  | consensus {env : Env} {msg : NodeMsg} {rest : List ConsensusEntry}
      {core : Drawing Block Confirmation} {out : List NodeOutput} :
      n.toConsensus = .msg msg :: rest →
      Drawing.handleMessages env ⟨n.consensus, n.wasm.drand⟩ msg = .ok (core, out) →
      LiveStep n (.consensus env) out (({ n with
        consensus := core.consensus
        wasm := { n.wasm with drand := core.seed }
        toConsensus := rest } : LiveNode W).post out)
  | leader {env : Env} {rest : List ConsensusEntry} :
      n.toConsensus = .getLeader :: rest →
      LiveStep n (.consensus env) [] { n with
        toConsensus := rest
        taken := n.taken.map fun taken => { taken with leader := some n.consensus.leader } }
  | block {env : BlockEnv Hash Block Confirmation Transaction} {msg : NodeMsg}
      {rest : List NodeMsg} {blockService : BlockService} {out : List NodeOutput} :
      n.toBlock = msg :: rest → n.blockService.handleMessages env msg = .ok (blockService, out) →
      n.answers msg env out = true →
      LiveStep n (.block env) out
        (({ n with
            blockService := blockService
            toBlock := rest } : LiveNode W).post out)
  | transactions {now : Nat → UInt64} {msg : NodeMsg} {rest : List NodeMsg}
      {transactionService : TransactionService Hash Transaction} {out : List NodeOutput} :
      n.toTransactions = msg :: rest →
      n.transactionService.handleMessages now msg = .ok (transactionService, out) →
      LiveStep n (.transactions now) out
        (({ n with
            transactionService := transactionService
            toTransactions := rest } : LiveNode W).post out)
  | begins {index : Nat} {block : Block} {round : UInt8} {txs : List Transaction} :
      .msg .nodeInterface (.executeBlock block round txs) ∈ n.threads → n.taken = none →
      n.wasm.db.loadBlock block.data.height = none →
      LiveStep n (.pass index) [] { n with
        threads := n.threads.eraseIdx index
        toConsensus := n.toConsensus ++ [.getLeader]
        taken := some ⟨block, round, txs, none⟩ }
  | consolidates {index : Nat} {block : Block} {confirmations : List Confirmation}
      {txsHashes : List Hash} {wasm : WasmService W} {out : List NodeOutput} :
      n.threads[index]? =
        some (.msg .nodeInterface (.startBlockConsolidation block confirmations txsHashes)) →
      n.taken = none → n.wasm.consolidateBlock block confirmations txsHashes = .ok (wasm, out) →
      LiveStep n (.pass index) out
        (({ n with
            threads := n.threads.eraseIdx index
            wasm := wasm } : LiveNode W).post out)
  | verifies {index : Nat} {height : UInt64} {round : UInt8} :
      .msg .nodeInterface (.verifyIfConsolidated height round) ∈ n.threads →
      n.wasm.db.loadBlock height = none →
      LiveStep n (.pass index) [.msg .consensusService (.blockElectionFailed height (round + 1))]
        (({ n with threads := n.threads.eraseIdx index } : LiveNode W).post
          [.msg .consensusService (.blockElectionFailed height (round + 1))])
  | elects {index : Nat} {height : UInt64} {round : UInt8} :
      .electionThread height round ∈ n.threads →
      LiveStep n (.pass index)
        [.msg .consensusService (.confirmBuildBlockInPlaceOfLeader height round),
          .msg .nodeInterface (.verifyIfConsolidated height round)]
        (({ n with threads := n.threads.eraseIdx index } : LiveNode W).post
          [.msg .consensusService (.confirmBuildBlockInPlaceOfLeader height round),
            .msg .nodeInterface (.verifyIfConsolidated height round)])
  | waits {index : Nat} {height : UInt64} :
      .leaderThread height ∈ n.threads →
      LiveStep n (.pass index) [.msg .nodeInterface (.verifyIfConsolidated (height + 1) 0)]
        (({ n with threads := n.threads.eraseIdx index } : LiveNode W).post
          [.msg .nodeInterface (.verifyIfConsolidated (height + 1) 0)])
  | times {index : Nat} {height : UInt64} :
      .buildBlockThread height ∈ n.threads →
      LiveStep n (.pass index) [.msg .blockService (.buildBlockTimeout height)]
        (({ n with threads := n.threads.eraseIdx index } : LiveNode W).post
          [.msg .blockService (.buildBlockTimeout height)])
  | passes {index : Nat} :
      LiveStep n (.pass index) [] { n with threads := n.threads.eraseIdx index }
  | finishes {block : Block} {round : UInt8} {txs : List Transaction} {leader : String}
      {wasm : WasmService W} {out : List NodeOutput} :
      n.taken = some ⟨block, round, txs, some leader⟩ →
      n.wasm.handle (.executeBlock block round txs (some leader)) = .ok (wasm, out) →
      LiveStep n .finish out
        (({ n with
            taken := none
            wasm := wasm } : LiveNode W).post out)
  | enters {input : LiveInput W} {out : List NodeOutput} :
      isEntry input = true → (∀ o ∈ out, Enters o) → LiveStep n input out (n.post out)
  | restarts {wm : W} {env : Env} {n' : LiveNode W} :
      n.restart wm env = .ok n' → LiveStep n (.restart wm env) [] n'

variable {n n' : LiveNode W} {input : LiveInput W} {out : List NodeOutput}

theorem takeConsensus_step {env : Env} (h : n.takeConsensus env = .ok (n', out)) :
    LiveStep n (.consensus env) out n' := by
  unfold takeConsensus at h
  split at h
  · cases h
  · next rest heq =>
    cases h
    exact .leader heq
  · next msg rest heq =>
    split at h
    · cases h
    · next core out' hcore =>
      cases h
      exact .consensus heq hcore

theorem takeBlock_step {env : BlockEnv Hash Block Confirmation Transaction}
    (h : n.takeBlock env = .ok (n', out)) : LiveStep n (.block env) out n' := by
  unfold takeBlock at h
  split at h
  · cases h
  · next msg rest heq =>
    split at h
    · cases h
    · next blockService out' hblock =>
      split at h
      · next honest =>
        cases h
        exact .block heq hblock honest
      · cases h

theorem takeTransactions_step {now : Nat → UInt64} (h : n.takeTransactions now = .ok (n', out)) :
    LiveStep n (.transactions now) out n' := by
  unfold takeTransactions at h
  split at h
  · cases h
  · next msg rest heq =>
    split at h
    · cases h
    · next transactionService out' hpool =>
      cases h
      exact .transactions heq hpool

theorem pass_step {index : Nat} (h : n.pass index = .ok (n', out)) :
    LiveStep n (.pass index) out n' := by
  unfold pass at h
  split at h
  · cases h
  · next thread hthread =>
    have hmem : thread ∈ n.threads := List.mem_of_getElem? hthread
    unfold proceed at h
    split at h
    · next block round txs =>
      simp only at h
      split at h
      · cases h
      · next free =>
        have idle : n.taken = none := by simpa using free
        split at h
        · cases h
          rw [post_nil]
          exact .passes
        · next absent =>
          cases h
          exact .begins hmem idle (by simpa using absent)
    · next block confirmations txsHashes =>
      simp only at h
      split at h
      · cases h
      · next free =>
        have idle : n.taken = none := by simpa using free
        unfold execute at h
        split at h
        · cases h
        · next wasm out' hwasm =>
          cases h
          exact .consolidates hthread idle hwasm
    · next height round =>
      simp only at h
      split at h
      · next absent =>
        cases h
        exact .verifies hmem (by simpa using absent)
      · cases h
        rw [post_nil]
        exact .passes
    · cases h
      exact .elects hmem
    · cases h
      exact .waits hmem
    · cases h
      exact .times hmem
    · cases h

/-- Every step is one of the steps above. -/
theorem handle_step (h : n.handle input = .ok (n', out)) : LiveStep n input out n' := by
  cases input with
  | consensus env => exact takeConsensus_step h
  | block env => exact takeBlock_step h
  | transactions now => exact takeTransactions_step h
  | pass index => exact pass_step h
  | finish =>
    simp only [handle, finish] at h
    split at h
    · next block round txs leader htaken =>
      unfold execute at h
      split at h
      · cases h
      · next wasm out' hwasm =>
        cases h
        exact .finishes htaken hwasm
    · cases h
  | arrive msg =>
    simp only [handle] at h
    split at h
    · next hmsg =>
      cases h
      refine .enters rfl fun o ho => ?_
      obtain rfl := List.mem_singleton.mp ho
      exact .inl hmsg
    · cases h
  | submit tx =>
    simp only [handle] at h
    split at h
    · cases h
      exact .enters rfl (by simp)
    · split at h
      · cases h
        exact .enters rfl (by simp)
      · cases h
        refine .enters rfl fun o ho => ?_
        obtain rfl := List.mem_singleton.mp ho
        exact .inl rfl
  | oldTransactions txs =>
    cases h
    refine .enters rfl fun o ho => ?_
    obtain rfl := List.mem_singleton.mp ho
    exact .inr ⟨_, rfl⟩
  | restart wm env =>
    simp only [handle] at h
    split at h
    · cases h
    · next restarted hrestart =>
      cases h
      exact .restarts hrestart

end Steps

/-! ## What is on its way -/

section Pending

omit [Primitives] [Serialize BlockData] [Serialize ConfirmationData] [NodeCodec] [Merkle] [Pcg32]
  [Wm W]

/-- Everything that was sent and has not been taken. -/
inductive Pending (n : LiveNode W) : NodeOutput → Prop
  | consensus {msg : NodeMsg} :
      ConsensusEntry.msg msg ∈ n.toConsensus → Pending n (.msg .consensusService msg)
  | block {msg : NodeMsg} : msg ∈ n.toBlock → Pending n (.msg .blockService msg)
  | transactions {msg : NodeMsg} :
      msg ∈ n.toTransactions → Pending n (.msg .transactionService msg)
  | thread {o : NodeOutput} : o ∈ n.threads → Pending n o

variable {n : LiveNode W} {out : List NodeOutput} {o : NodeOutput}

theorem mem_messageTo {dest : Service} {msg : NodeMsg} :
    msg ∈ out.filterMap (messageTo dest) ↔ .msg dest msg ∈ out := by
  rw [List.mem_filterMap]
  constructor
  · rintro ⟨o, ho, h⟩
    unfold messageTo at h
    split at h
    · split at h
      · next same =>
        cases same
        cases h
        exact ho
      · cases h
    · cases h
  · intro h
    exact ⟨_, h, if_pos rfl⟩

theorem mem_consensusEntry {msg : NodeMsg} :
    ConsensusEntry.msg msg ∈ out.filterMap consensusEntry ↔ .msg .consensusService msg ∈ out := by
  rw [List.mem_filterMap]
  constructor
  · rintro ⟨o, ho, h⟩
    unfold consensusEntry at h
    split at h
    · cases h
      exact ho
    · cases h
  · intro h
    exact ⟨_, h, rfl⟩

theorem pending_post (h : (n.post out).Pending o) : n.Pending o ∨ o ∈ out := by
  cases h with
  | consensus h =>
    rcases List.mem_append.mp h with h | h
    · exact .inl (.consensus h)
    · exact .inr (mem_consensusEntry.mp h)
  | block h =>
    rcases List.mem_append.mp h with h | h
    · exact .inl (.block h)
    · exact .inr (mem_messageTo.mp h)
  | transactions h =>
    rcases List.mem_append.mp h with h | h
    · exact .inl (.transactions h)
    · exact .inr (mem_messageTo.mp h)
  | thread h =>
    rcases List.mem_append.mp h with h | h
    · exact .inl (.thread h)
    · exact .inr (List.mem_filter.mp h).1

/-- A node that lost some of what was on its way. -/
theorem Pending.mono {n n' : LiveNode W} (h : n'.Pending o)
    (consensus : ∀ msg, ConsensusEntry.msg msg ∈ n'.toConsensus →
      ConsensusEntry.msg msg ∈ n.toConsensus)
    (block : n'.toBlock ⊆ n.toBlock) (transactions : n'.toTransactions ⊆ n.toTransactions)
    (threads : n'.threads ⊆ n.threads) : n.Pending o := by
  cases h with
  | consensus h => exact .consensus (consensus _ h)
  | block h => exact .block (block h)
  | transactions h => exact .transactions (transactions h)
  | thread h => exact .thread (threads h)

end Pending

section Restarts

variable {n n' : LiveNode W} {input : LiveInput W} {out : List NodeOutput}

omit [Serialize ConfirmationData] [Merkle] [Wm W] in
theorem restart_ok {wm : W} {env : Env} (h : n.restart wm env = .ok n') :
    ∃ block core config, n.wasm.db.lastBlock? = some block ∧
      (Drawing.initCoreFromDb env n.blockService.keypair n.blockService.nodeId
        (initPlayers n.wasm.db.accounts) block :
        Except ConsensusPanic (Drawing Block Confirmation)) = .ok core ∧
      n' =
        { consensus := core.consensus
          blockService := BlockService.start n.blockService.keypair n.blockService.nodeId
            (some block)
          transactionService := TransactionService.start n.blockService.nodeId
          wasm :=
            { n.wasm with
              config := config
              forksCollector := ∅
              wm := wm
              drand := core.seed }
          toConsensus := []
          toBlock := []
          toTransactions := []
          threads := []
          taken := none } := by
  unfold restart at h
  split at h
  · next block settings hblock hsettings =>
    split at h
    · cases h
    · next networkName _ =>
      split at h
      · cases h
      · next core hcore =>
        cases h
        exact ⟨block, core, _, hblock, hcore, rfl⟩
  · cases h
  · cases h

omit [Serialize ConfirmationData] in
theorem bootstrap_ok {env : Env} {keypair : TrinciKeyPair} {nodeId : String} {wm : W}
    {accounts : Accounts} {bootstrapTxs : List Transaction} {networkName : String}
    (h : bootstrap env keypair nodeId wm accounts bootstrapTxs networkName = .ok n) :
    ∃ (core : Drawing Block Confirmation) (wasm : WasmService W) (out : List NodeOutput),
      nodeId ≠ "" ∧ bootstrapTxs ≠ [] ∧
      Drawing.initCoreFromBootstrap env keypair nodeId = .ok core ∧
      WasmService.handle
        { config := ⟨nodeId, networkName, ""⟩
          db := { Db.empty with accounts := accounts }
          forksCollector := ∅
          wm := wm
          drand := core.seed
          executed := []
          ran := [] }
        (.executeGenesisBlock (genesisBlock bootstrapTxs) bootstrapTxs networkName
          (some core.consensus.leader)) = .ok (wasm, out) ∧ out ≠ [] ∧
      n = ({ consensus := core.consensus
             blockService := BlockService.start keypair nodeId (none : Option Block)
             transactionService := TransactionService.start nodeId
             wasm := wasm
             toConsensus := []
             toBlock := []
             toTransactions := []
             threads := []
             taken := none } : LiveNode W).post out := by
  unfold bootstrap at h
  split at h
  · cases h
  · next named =>
    rw [Bool.or_eq_true, not_or] at named
    split at h
    · cases h
    · next core hcore =>
      dsimp only at h
      split at h
      · cases h
      · next wasm out hwasm =>
        split at h
        · cases h
        · next sent =>
          cases h
          refine ⟨core, wasm, out, ?_, ?_, hcore, hwasm, ?_, rfl⟩
          · simpa using named.1
          · simpa using named.2
          · simpa using sent

/-- What is on its way after a step was on its way before or was sent. -/
theorem LiveStep.pending {o : NodeOutput} (step : LiveStep n input out n') (h : n'.Pending o) :
    n.Pending o ∨ o ∈ out := by
  cases step with
  | consensus heq _ =>
    refine (pending_post h).imp_left fun h => h.mono ?_ (fun _ h => h) (fun _ h => h) fun _ h => h
    exact fun _ h => heq ▸ List.mem_cons_of_mem _ h
  | leader heq =>
    refine .inl (h.mono ?_ (fun _ h => h) (fun _ h => h) fun _ h => h)
    exact fun _ h => heq ▸ List.mem_cons_of_mem _ h
  | block heq _ _ =>
    refine (pending_post h).imp_left fun h => h.mono (fun _ h => h) ?_ (fun _ h => h) fun _ h => h
    exact fun _ h => heq ▸ List.mem_cons_of_mem _ h
  | transactions heq _ =>
    refine (pending_post h).imp_left fun h => h.mono (fun _ h => h) (fun _ h => h) ?_ fun _ h => h
    exact fun _ h => heq ▸ List.mem_cons_of_mem _ h
  | begins _ _ _ =>
    refine .inl (h.mono ?_ (fun _ h => h) (fun _ h => h) (List.eraseIdx_subset))
    intro msg h
    simpa using h
  | consolidates _ _ _ =>
    exact (pending_post h).imp_left fun h =>
      h.mono (fun _ h => h) (fun _ h => h) (fun _ h => h) List.eraseIdx_subset
  | verifies _ _ =>
    exact (pending_post h).imp_left fun h =>
      h.mono (fun _ h => h) (fun _ h => h) (fun _ h => h) List.eraseIdx_subset
  | elects _ =>
    exact (pending_post h).imp_left fun h =>
      h.mono (fun _ h => h) (fun _ h => h) (fun _ h => h) List.eraseIdx_subset
  | waits _ =>
    exact (pending_post h).imp_left fun h =>
      h.mono (fun _ h => h) (fun _ h => h) (fun _ h => h) List.eraseIdx_subset
  | times _ =>
    exact (pending_post h).imp_left fun h =>
      h.mono (fun _ h => h) (fun _ h => h) (fun _ h => h) List.eraseIdx_subset
  | passes =>
    exact .inl (h.mono (fun _ h => h) (fun _ h => h) (fun _ h => h) List.eraseIdx_subset)
  | finishes _ _ =>
    exact (pending_post h).imp_left fun h =>
      h.mono (fun _ h => h) (fun _ h => h) (fun _ h => h) fun _ h => h
  | enters _ _ => exact pending_post h
  | restarts hrestart =>
    obtain ⟨block, core, config, -, -, rfl⟩ := restart_ok hrestart
    cases h with
    | consensus h => cases h
    | block h => cases h
    | transactions h => cases h
    | thread h => cases h

end Restarts

end LiveNode

/-! ## A network of two players

The bootstrap file names alice and bob, with one unit each. Blocks are encoded with all
the bytes of their height. -/

namespace Sample.Duo

/-- The last `k` bytes of a number. -/
def digits : (k : Nat) → Nat → Bytes
  | 0, _ => []
  | k + 1, n => UInt8.ofNat n :: digits k (n / 256)

scoped instance (priority := 2000) blockData : Serialize BlockData where
  rmpSerialize data := digits 8 data.height.toNat ++ [data.timestamp.toUInt8, data.size.toUInt8] ++
    data.prevHash.bytes.take 6 ++ data.txsHash.bytes.take 6

/-- The arguments of a call. -/
def payload : TransactionData → Bytes
  | .v1 txData => txData.args
  | _ => []

scoped instance (priority := 2000) codec : NodeCodec :=
  { nodeCodec with
    transaction := fun
      | .unitTransaction tx => 6 :: encodeData tx.data ++ payload tx.data
      | .bulkTransaction tx => 7 :: encodeData tx.data ++ payload tx.data
    playersIds := fun bytes => if bytes = [2] then some (some ["alice", "bob"]) else none
    validator := fun bytes =>
      if bytes = [1] then some (.player ⟨"alice", 1, 3⟩)
      else if bytes = [2] then some (.player ⟨"bob", 1, 3⟩)
      else none
    settings := fun bytes => some ⟨"", if bytes = [1] then some "net" else none, []⟩
    settingsBytes := fun settings => if settings.networkName = some "net" then [1] else [] }

/-- The accounts of the bootstrap file. -/
def accounts : Accounts where
  accounts := ∅
  data := ((((∅ : AList fun _ : String × String => Bytes).insert
    (serviceAccountId, settingsKey) []).insert
    (serviceAccountId, validatorsKey) [2]).insert
    (serviceAccountId, "blockchain:validators:alice") [1]).insert
    (serviceAccountId, "blockchain:validators:bob") [2]

/-- Numbers are drawn by the drand service. -/
def env : Env where
  now := 1
  blockRng := 0
  confirmationRng := 0
  getDRandNum _ := none
  getLastBlockInfo _ := none

/-- The answers to a node that does not lead, while its pool is empty and no peer replies. -/
def blockEnv : BlockEnv Hash Block Confirmation Transaction where
  now := 1
  isLeader := .answer false
  builtFrom := .answer []
  unconfirmedHashes := .answer []
  actualPlayers := .answer ["alice", "bob"]
  actualPlayersAgain := .answer ["alice", "bob"]
  getTxs _ := .failed
  getFullBlock _ := .failed
  getNeighbors := .failed
  getLastBlockInfo _ := .failed
  iterate := id

/-- The first start of the node of player `n`. -/
def start (n : UInt8) : Except Halt (LiveNode Willing) :=
  LiveNode.bootstrap env (keypair n) (if n = 1 then "alice" else "bob") .mk accounts
    [unitOf 1 (keypair 1)] "net"

/-- Whether the node of player `n` takes the inputs from its first start on, to a run
with the property. -/
def runs (n : UInt8) (inputs : List (LiveInput Willing))
    (property : List (LiveNode.LiveEvent Willing) → LiveNode Willing → Bool) : Bool :=
  match start n with
  | .error _ => false
  | .ok start =>
    match exec LiveNode.handle start inputs with
    | .error _ => false
    | .ok (trace, last) => property trace last

theorem exists_run_from (n : UInt8) (inputs : List (LiveInput Willing))
    (property : List (LiveNode.LiveEvent Willing) → LiveNode Willing → Bool)
    (h : runs n inputs property = true) : ∃ node trace last, start n = .ok node ∧
      Run (Computes LiveNode.handle) node trace last ∧ property trace last = true ∧
      trace.map Event.input = inputs := by
  unfold runs at h
  split at h
  · cases h
  · next node hstart =>
    split at h
    · cases h
    · next trace last hexec =>
      exact ⟨node, trace, last, hstart, exec_run hexec, h, exec_inputs hexec⟩

theorem exists_run (n : UInt8) (inputs : List (LiveInput Willing))
    (property : List (LiveNode.LiveEvent Willing) → LiveNode Willing → Bool)
    (h : runs n inputs property = true) : ∃ start trace last, LiveNode.Started start ∧
      Run (Computes LiveNode.handle) start trace last ∧ property trace last = true ∧
      trace.map Event.input = inputs := by
  obtain ⟨node, trace, last, hstart, run, check, inputs⟩ := exists_run_from n inputs property h
  exact ⟨node, trace, last, ⟨hstart⟩, run, check, inputs⟩

/-- The services take the genesis block. -/
def takeGenesis : List (LiveInput Willing) :=
  [.block blockEnv, .consensus env, .transactions fun _ => 0]

def genesisHash : Hash :=
  match start 1 with
  | .ok node => (node.wasm.db.lastBlock?.map Block.getHash).getD Hash.default
  | .error _ => Hash.default

def bobsTxs : List Transaction := [unitOf 2 (keypair 1), unitOf 3 (keypair 1)]

/-- The block after the genesis block as bob built it. -/
def bobsBlock : Block :=
  Block.sign (keypair 2) 0
    (Block.new (keypair 2).publicKey (bobsTxs.map Transaction.getHash) 1 genesisHash 7)

/-- Player `n` confirms bob's block in a round. -/
def confirmation (n round : UInt8) : Confirmation :=
  Confirmation.sign (keypair n) 0
    (Confirmation.new bobsBlock.getHash 1 round (keypair n).publicKey)

/-- What the pool lists of the transaction. -/
def listed (n : UInt8) : Hash × Nat :=
  ((unitOf n (keypair 1)).getHash, (rmpSerialize (unitOf n (keypair 1))).length)

/-- The answers to a leader whose pool lists these transactions. -/
def leaderEnv (txs : List UInt8) : BlockEnv Hash Block Confirmation Transaction :=
  { blockEnv with
    isLeader := .answer true
    builtFrom := .answer (txs.map listed)
    unconfirmedHashes := .answer (txs.map listed) }

/-- A transaction enters the pool. -/
def enterPool (n : UInt8) : List (LiveInput Willing) :=
  [.submit (unitOf n (keypair 1)), .transactions fun _ => 0]

end Sample.Duo

end Trinci
