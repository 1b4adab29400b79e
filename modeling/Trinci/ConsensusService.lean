import Mathlib.Data.List.AList
import Mathlib.Data.List.Sort
import Mathlib.Data.UInt
import Trinci.CoreModels
import Trinci.FirstMatch

/-!
# The consensus service

One function for each method of `ConsensusService`, in state-passing form. What
a handler reads from outside (the clock, the entropy of a signature, the answers
to its requests) is an `Env`; what it sends or spawns is its output list, in
order. Arithmetic on heights wraps as in a release build. A failed `expect`,
`unwrap` or index ends the service thread and is an error here.
-/

namespace Trinci

open FirstMatch

universe u

variable {A B C T : Type u}

def roundCheckMisalignment : UInt8 := 10

def verifyOldBlockProposalsS : UInt64 := 15

inductive ConsensusPanic
  | executionWithoutProposal
  | quorumWithoutProposal
  | updateWithoutConfirmation
  | alignmentWithoutConfirmation
  | verifyWithoutConfirmation
  | drawnLeaderOutOfRange
  | noPlayers
  deriving DecidableEq

/-- What the service reads from outside while it handles one message. -/
structure Env where
  now : UInt64
  blockRng : Nat
  confirmationRng : Nat
  getDRandNum : UInt64 → Option UInt64
  getLastBlockInfo : String → Option BlockInfo

structure ConsensusService (B C : Type u) where
  actualRound : UInt8
  blocksCollector : AList fun _ : UInt64 => List (B × C × List Hash)
  blockProposals : List (UInt64 × List (BlockProposal B C))
  consolidationInProgress : Option UInt64
  height : UInt64
  keypair : TrinciKeyPair
  lastBlockHash : Hash
  leader : String
  nodeId : String
  players : Players
  proposalExitPoll : List (UInt64 × UInt8)

/-- The proposals of one height, largest count first; equal counts keep their order. -/
def sortByCount (proposals : List (BlockProposal B C)) : List (BlockProposal B C) :=
  proposals.insertionSort fun a b => b.count ≤ a.count

/-- One iteration of the loop in `update_proposals`. -/
def BlockProposal.absorb [DecidableEq C] (block : Option (B × List Hash))
    (proposal : BlockProposal B C) (confirmation : C) : BlockProposal B C :=
  let proposal :=
    if confirmation ∈ proposal.receivedConfirmations then proposal
    else { proposal with
      receivedConfirmations := proposal.receivedConfirmations ++ [confirmation]
      count := proposal.count + 1 }
  if block.isSome && proposal.block.isNone then { proposal with block := block }
  else proposal

def BlockProposal.isFor (hash : Hash) (round : UInt8) (proposal : BlockProposal B C) : Bool :=
  proposal.blockHash == hash && proposal.round == round

/-- The proposals of one height, with the group's own search of `find_map`. -/
def findNextRound (height : UInt64) (round : UInt8) :
    List (UInt64 × List (BlockProposal B C)) →
      List (UInt64 × List (BlockProposal B C)) × Option (BlockProposal B C)
  | [] => ([], none)
  | (groupHeight, proposals) :: groups =>
    if groupHeight = height then
      let sorted := sortByCount proposals
      match sorted.find? (fun proposal => proposal.round == round) with
      | some proposal => ((groupHeight, sorted) :: groups, some proposal)
      | none =>
        let rest := findNextRound height round groups
        ((groupHeight, sorted) :: rest.1, rest.2)
    else
      let rest := findNextRound height round groups
      ((groupHeight, proposals) :: rest.1, rest.2)

namespace ConsensusService

section Queries

variable (s : ConsensusService B C)

def isLeader (nodeId : String) : Bool := s.leader == nodeId

def isPlayer : Bool := s.players.playersIds.contains s.nodeId

/-- The lookup shared by the execution handler and the quorum check. -/
def findProposal (hash : Hash) (height : UInt64) (round : UInt8) :
    Option (BlockProposal B C) :=
  (s.blockProposals.find? fun group => group.1 == height).bind fun group =>
    group.2.find? (BlockProposal.isFor hash round)

def shouldPlayerVote [Executable B] (block : Option (B × List Hash))
    (blockRound : UInt8) : Bool :=
  match block with
  | none => false
  | some (block, _) =>
    s.isPlayer &&
    !(s.proposalExitPoll.contains (Executable.getHeight block, blockRound)) &&
    (match Executable.getBuilderId block with
      | none => false
      | some builderId => s.players.playersIds.contains builderId) &&
    blockRound == s.actualRound &&
    Executable.getHeight block == s.height + 1 &&
    Executable.getPrevHash block == s.lastBlockHash

def confirmBuildBlockInPlaceOfLeader (env : Env) (heightToBuild : UInt64)
    (round : UInt8) : List (Output A B C T) :=
  let build : List (Output A B C T) :=
    if s.blockProposals.any fun group =>
      group.1 == heightToBuild && group.2.any fun proposal => proposal.round == round
    then []
    else [.msg .blockService (.buildBlockInPlaceOfLeader heightToBuild)]
  if round % roundCheckMisalignment = 0 then
    .req .nodeInterface (.getLastBlockInfo s.leader) ::
      match env.getLastBlockInfo s.leader with
      | some info =>
        if info.height ≥ heightToBuild + 2 then
          [.msg .blockService .detectedPossibleMisalignment]
        else build
      | none => build
  else build

def blockElectionFailed (heightToBuild : UInt64) (round : UInt8) : List (Output A B C T) :=
  if s.isPlayer then [.electionThread heightToBuild round] else []

/-- The collected block of a proposal, if any. -/
def collectedBlock [Executable B] (height : UInt64) (hash : Hash) :
    Option (B × C × List Hash) :=
  (s.blocksCollector.lookup height).bind fun blocks =>
    blocks.find? fun entry => Executable.getHash entry.1 == hash

/-- The blocks already collected for the height after the consolidated one. -/
def blockConsolidated [Executable B] (height : UInt64) : List (Output A B C T) :=
  match s.blockProposals.find? fun group => group.1 == height + 1 with
  | none => []
  | some (_, proposals) =>
    (sortByCount (proposals.filter fun proposal => s.actualRound ≤ proposal.round)).filterMap
      fun proposal => (s.collectedBlock (height + 1) proposal.blockHash).map
        fun (block, confirmation, txsHashes) =>
          .msg .blockService (.blockFromPeer block confirmation txsHashes)

end Queries

def updateProposals [Confirmable C] [DecidableEq C] (env : Env) (s : ConsensusService B C)
    (confirmations : List C) (block : Option (B × List Hash)) :
    Except ConsensusPanic (ConsensusService B C) :=
  match confirmations with
  | [] => .error .updateWithoutConfirmation
  | first :: _ =>
    let hash := Confirmable.getBlockHash first
    let height := Confirmable.getBlockHeight first
    let round := Confirmable.getBlockRound first
    let fresh := BlockProposal.new block hash height confirmations round env.now
    .ok { s with
      blockProposals := upsert (fun group => group.1 == height)
        (fun group => (group.1, upsert (BlockProposal.isFor hash round)
          (fun proposal => confirmations.foldl (BlockProposal.absorb block) proposal)
          fresh group.2))
        (height, [fresh]) s.blockProposals }

def verifyBlockProposalQuorum [Confirmable C] (s : ConsensusService B C) (hash : Hash)
    (height : UInt64) (round : UInt8) :
    Except ConsensusPanic (ConsensusService B C × List (Output A B C T)) :=
  match s.findProposal hash height round with
  | none => .error .quorumWithoutProposal
  | some proposal =>
    if height = s.height + 1 then
      match proposal.block with
      | none => .ok (s, [])
      | some (block, txsHashes) =>
        if proposal.receivedConfirmations.all fun confirmation =>
          s.players.playersIds.contains (Confirmable.getPlayerId confirmation)
        then
          if s.players.playersIds.length / 2 + 1 ≤ proposal.count then
            .ok ({ s with consolidationInProgress := some height },
              [.msg .nodeInterface
                (.startBlockConsolidation block proposal.receivedConfirmations txsHashes)])
          else .ok (s, [])
        else .ok (s, [])
    else .ok (s, [])

section Signing

variable [Primitives] [Executable B] [Confirmable C]

/-- The confirmation this node signs for a block in a round. -/
def confirm (env : Env) (s : ConsensusService B C) (block : B) (round : UInt8) : C :=
  Confirmable.sign s.keypair env.confirmationRng
    (Confirmable.new (Executable.getHash block) (Executable.getHeight block) round
      s.keypair.publicKey)

def recordVote (s : ConsensusService B C) (block : B) (round : UInt8) :
    ConsensusService B C :=
  { s with proposalExitPoll := s.proposalExitPoll ++ [(Executable.getHeight block, round)] }

def voteProposal (env : Env) (s : ConsensusService B C) (block : B) (round : UInt8) :
    ConsensusService B C × C × List (Output A B C T) :=
  let confirmation := s.confirm env block round
  (s.recordVote block round, confirmation,
    [.msg .nodeInterface (.propagateConfirmationToPeers confirmation)])

end Signing

section Handlers

variable [Primitives] [Executable B] [Confirmable C] [DecidableEq C]

def checkNextRoundProposals (env : Env) (s : ConsensusService B C) (height : UInt64)
    (round : UInt8) :
    Except ConsensusPanic (Bool × ConsensusService B C × List (Output A B C T)) :=
  let (groups, found) := findNextRound height round s.blockProposals
  let s := { s with blockProposals := groups }
  match found.bind fun proposal => proposal.block with
  | none => .ok (false, s, [])
  | some (block, txsHashes) =>
    if s.shouldPlayerVote (some (block, txsHashes)) round then do
      let (s, confirmation, voted) := s.voteProposal env block round
      let s ← s.updateProposals env [confirmation] (some (block, txsHashes))
      let (s, out) ← s.verifyBlockProposalQuorum (Executable.getHash block) height round
      return (true, s, voted ++ out)
    else do
      let (s, out) ← s.verifyBlockProposalQuorum (Executable.getHash block) height round
      return (true, s, out)

/-- The loop body for one proposal: what it sends or spawns. -/
def checkOldProposal (s : ConsensusService B C) (now : UInt64)
    (proposal : BlockProposal B C) : List (Output A B C T) :=
  if now - proposal.timestamp ≥ verifyOldBlockProposalsS then
    match (if proposal.block.isNone then
        s.collectedBlock proposal.blockHeight proposal.blockHash else none) with
    | some (block, confirmation, txsHashes) =>
      if s.consolidationInProgress.isNone then
        [.msg .blockService (.blockFromPeer block confirmation txsHashes)]
      else []
    | none => [.confirmationsThread { proposal with timestamp := now }]
  else []

def BlockProposal.refresh (now : UInt64) (proposal : BlockProposal B C) : BlockProposal B C :=
  if now - proposal.timestamp ≥ verifyOldBlockProposalsS then
    { proposal with timestamp := now }
  else proposal

def checkOldBlockProposals (env : Env) (s : ConsensusService B C) :
    ConsensusService B C × List (Output A B C T) :=
  match s.blockProposals.find? fun group => group.1 == s.height + 1 with
  | none =>
    (s, if s.blockProposals.any fun group => s.height + 1 < group.1 then
        [.msg .blockService .detectedPossibleMisalignment] else [])
  | some (_, proposals) =>
    let sorted := sortByCount
      (proposals.filter fun proposal => s.actualRound ≤ proposal.round)
    ({ s with
        blockProposals := modifyFirst (fun group => group.1 == s.height + 1)
          (fun group => (group.1, sorted.map (BlockProposal.refresh env.now)))
          s.blockProposals },
      sorted.flatMap (s.checkOldProposal env.now))

def drawNewLeader (env : Env) (s : ConsensusService B C) (block : B) :
    Except ConsensusPanic (ConsensusService B C × List (Output A B C T)) :=
  let update : Output A B C T := .msg .drandService (.updateSeedSource
    (Executable.getHash block) (Executable.getTxsHash block) (Executable.getRxsHash block))
  if s.players.playersIds.length > 1 then
    let max := s.players.weights.sum - 1
    let out := [update, .req .drandService (.getDRandNum max)]
    match env.getDRandNum max with
    | none => .ok (s, out)
    | some drandNum =>
      match s.players.getWeightedPlayerIds[drandNum.toNat]? with
      | none => .error .drawnLeaderOutOfRange
      | some newLeader => .ok ({ s with leader := newLeader }, out)
  else
    match s.players.playersIds with
    | [] => .error .noPlayers
    | playerId :: _ => .ok ({ s with leader := playerId }, [update])

def resetProposals (s : ConsensusService B C) (blockHash : Hash) (blockHeight : UInt64) :
    ConsensusService B C :=
  { s with
    actualRound := 0
    height := blockHeight
    lastBlockHash := blockHash
    proposalExitPoll :=
      if s.isPlayer then s.proposalExitPoll.filter fun vote => vote.1 ≤ blockHeight
      else s.proposalExitPoll
    blockProposals := s.blockProposals.filter fun group => blockHeight < group.1 }

def verifyConfirmationsFromPeer (env : Env) (s : ConsensusService B C)
    (confirmations : List C) (block : Option (B × List Hash)) :
    Except ConsensusPanic (ConsensusService B C × List (Output A B C T)) :=
  match confirmations with
  | [] => .error .verifyWithoutConfirmation
  | first :: _ =>
    if (confirmations.any fun confirmation =>
        !(s.players.playersIds.contains (Confirmable.getPlayerId confirmation)) ||
          !(Confirmable.verify confirmation)) ||
      Confirmable.getBlockHeight first != s.height + 1 ||
      decide (Confirmable.getBlockRound first < s.actualRound)
    then .ok (s, [])
    else do
      let s ← s.updateProposals env confirmations block
      match block with
      | some (block, txsHashes) =>
        return (s, [.msg .blockService (.blockFromPeer block first txsHashes)])
      | none =>
        if s.consolidationInProgress.isNone then
          s.verifyBlockProposalQuorum (Confirmable.getBlockHash first)
            (Confirmable.getBlockHeight first) (Confirmable.getBlockRound first)
        else return (s, [])

/-- The handler of a block sent by a peer or by its builder. -/
def handleBlockFromPeer (env : Env) (s : ConsensusService B C) (block : B)
    (confirmation : C) (txsHashes : List Hash) :
    Except ConsensusPanic (ConsensusService B C × List (Output A B C T)) :=
  let height := Executable.getHeight block
  if s.consolidationInProgress = some height then .ok (s, [])
  else if Executable.verify block then
    if s.actualRound ≤ Confirmable.getBlockRound confirmation ∧ s.height < height then do
      let collected := (s.blocksCollector.lookup height).getD [] ++
        [(block, confirmation, txsHashes)]
      let s := { s with blocksCollector := s.blocksCollector.insert height collected }
      let s ← s.updateProposals env [confirmation] none
      return (s, if height = s.height + 1 ∨
          (height = s.height + 2 ∧ s.consolidationInProgress = some (height - 1)) then
        [.msg .blockService (.blockFromPeer block confirmation txsHashes)] else [])
    else .ok (s, [])
  else .ok (s, [])

def handleProposalAfterBuild (env : Env) (s : ConsensusService B C) (block : B)
    (blockRound : UInt8) (txsHashes : List Hash) :
    Except ConsensusPanic (ConsensusService B C × List (Output A B C T)) :=
  if s.proposalExitPoll.contains (Executable.getHeight block, blockRound) then .ok (s, [])
  else do
    let block := Executable.sign s.keypair env.blockRng block
    let s := s.recordVote block blockRound
    let confirmation := s.confirm env block blockRound
    let s ← s.updateProposals env [confirmation] (some (block, txsHashes))
    let (s, out) ←
      if s.players.playersIds.length = 1 then
        s.verifyBlockProposalQuorum (Executable.getHash block) (Executable.getHeight block)
          blockRound
      else .ok (s, [])
    return (s, out ++
      [.msg .nodeInterface (.propagateBlockToPeers block confirmation txsHashes)])

def handleBlockExecutionEnded (env : Env) (s : ConsensusService B C) (block : B)
    (txsHashes : List Hash) :
    Except ConsensusPanic (ConsensusService B C × List (Output A B C T)) :=
  let hash := Executable.getHash block
  let height := Executable.getHeight block
  match s.findProposal hash height s.actualRound with
  | none => .error .executionWithoutProposal
  | some proposal => do
    let (s, confirmations, voted) :=
      if s.shouldPlayerVote (some (block, txsHashes)) s.actualRound then
        let (s, confirmation, voted) := s.voteProposal env block s.actualRound
        (s, proposal.receivedConfirmations ++ [confirmation], voted)
      else (s, proposal.receivedConfirmations, [])
    let s ← s.updateProposals env confirmations (some (block, txsHashes))
    if s.consolidationInProgress.isNone then
      let (s, out) ← s.verifyBlockProposalQuorum hash height s.actualRound
      return (s, voted ++ out)
    else return (s, voted)

def handleMessages (env : Env) (s : ConsensusService B C) (msg : Msg A B C T) :
    Except ConsensusPanic (ConsensusService B C × List (Output A B C T)) :=
  match msg with
  | .blockElectionFailed heightToBuild newRound =>
    if s.consolidationInProgress = some heightToBuild then .ok (s, [])
    else do
      let s := { s with actualRound := newRound }
      let refresh : Output A B C T := .msg .blockService (.refreshRound newRound)
      let (proposed, s, out) ← s.checkNextRoundProposals env heightToBuild s.actualRound
      return (s, refresh :: out ++
        if proposed then [] else s.blockElectionFailed heightToBuild newRound)
  | .blockConfirmationFromPeer confirmation =>
    if (s.actualRound ≤ Confirmable.getBlockRound confirmation ∨
        s.height < Confirmable.getBlockHeight confirmation) ∧
      Confirmable.verify confirmation
    then do
      let s ← s.updateProposals env [confirmation] none
      if s.consolidationInProgress.isNone then
        s.verifyBlockProposalQuorum (Confirmable.getBlockHash confirmation)
          (Confirmable.getBlockHeight confirmation) (Confirmable.getBlockRound confirmation)
      else return (s, [])
    else .ok (s, [])
  | .blockConsolidated block _ players => do
    let height := Executable.getHeight block
    let s := { s with
      players := players
      blocksCollector := s.blocksCollector.erase height }
    let s := s.resetProposals (Executable.getHash block) height
    let (s, out) ← s.drawNewLeader env block
    let s := { s with consolidationInProgress := none }
    return (s, out ++ s.blockConsolidated height)
  | .blockExecutionEnded block txsHashes => s.handleBlockExecutionEnded env block txsHashes
  | .blockFromPeer block confirmation txsHashes =>
    s.handleBlockFromPeer env block confirmation txsHashes
  | .checkOldBlockProposals =>
    if s.consolidationInProgress.isNone then .ok (s.checkOldBlockProposals env)
    else .ok (s, [])
  | .confirmBuildBlockInPlaceOfLeader heightToBuild round =>
    .ok (s, s.confirmBuildBlockInPlaceOfLeader env heightToBuild round)
  | .proposalAfterBuild block blockRound txsHashes =>
    s.handleProposalAfterBuild env block blockRound txsHashes
  | .proposalFromAlignmentBlock confirmations =>
    match confirmations with
    | [] => .error .alignmentWithoutConfirmation
    | first :: _ => do
      let s := { s with actualRound := Confirmable.getBlockRound first }
      let s ← s.updateProposals env confirmations none
      return (s, [])
  | .verifyConfirmations block confirmations =>
    s.verifyConfirmationsFromPeer env confirmations block
  -- every other message is logged as unexpected and dropped
  | _ => .ok (s, [])

/-- Requests are answered without changing the service; others are logged. -/
def handleRequests (s : ConsensusService B C) : Req → Option (Res A B C T)
  | .getActualPlayers => some (.getActualPlayers s.players.playersIds)
  | .getLeader => some (.getLeader s.leader)
  | .isLeader nodeId => some (.isLeader (s.isLeader nodeId))
  | _ => none

/-- The state a service starts in. A restarted node draws the leader again. -/
def start (env : Env) (keypair : TrinciKeyPair) (nodeId : String) (players : Players)
    (block : Option B) :
    Except ConsensusPanic (ConsensusService B C × List (Output A B C T)) :=
  match players.playersIds with
  | [] => .error .noPlayers
  | leader :: _ =>
    let service (height : UInt64) (lastBlockHash : Hash) : ConsensusService B C :=
      { actualRound := 0
        blocksCollector := ∅
        blockProposals := []
        consolidationInProgress := none
        height := height
        keypair := keypair
        lastBlockHash := lastBlockHash
        leader := leader
        nodeId := nodeId
        players := players
        proposalExitPoll := [] }
    match block with
    | none => .ok (service 0 Hash.default, [])
    | some block =>
      let s := service (Executable.getHeight block) (Executable.getHash block)
      if s.height > 0 then s.drawNewLeader env block else .ok (s, [])

end Handlers

end ConsensusService

/-- `retrieve_confirmations`: `answer` is what each numbered attempt gets. -/
def retrieveConfirmations {R : Type u} (answer : Nat → Option R) : Option R :=
  (List.range (maxReqAttempts + 1)).findSome? answer

/-- What the thread of an old proposal sends once its requests were answered. -/
def confirmationsThread [Executable B] (proposal : BlockProposal B C)
    (answer : Nat → Option (List C × Option (B × List Hash))) : List (Output A B C T) :=
  match retrieveConfirmations answer with
  | none => []
  | some (confirmations, block) =>
    if block.any fun entry => Executable.getHash entry.1 != proposal.blockHash then
      [.msg .blockService .detectedPossibleMisalignment]
    else [.msg .consensusService (.verifyConfirmations block confirmations)]

end Trinci
