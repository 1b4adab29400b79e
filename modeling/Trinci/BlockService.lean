import Trinci.CoreModels
import Trinci.StatefulSteps

/-!
# The block service

The methods of `BlockService` over a state that holds the service and what it sent
so far: a method that fails keeps what it sent before. The answers to its requests
come from outside, with the ones that fail or have the wrong kind. Loops over
attempts count the attempts that are left. Arithmetic on heights wraps as in a
release build.
-/

namespace Trinci

open StatefulSteps

universe u

variable {A B C T : Type}

def blockMaxSizeBytes : Nat := 524288 * 2

def blockBaseSizeBytes : Nat := 111

def maxTxsInBlock : Nat := 500

/-- The first attempt and the repeated ones. -/
def requestAttempts : Nat := maxReqAttempts + 1

inductive ChainError
  | alignmentError (msg : String)
  | blockVerificationFault
  | confirmationError
  | invalidBlockHeight (expected received : UInt64)
  | invalidBlockPlayer (nodeId : String)
  | invalidBlockPreviousHash (expected received : Hash)
  | missingBlockBuilder
  | missingBlockError
  | missingTxsError
  deriving DecidableEq

inductive BlockStop
  | chain (e : ChainError)
  | comm
  /-- The check of a received transaction ended the service. -/
  | verifyPanic
  deriving DecidableEq

/-- What comes back for a request. -/
inductive Reply (α : Type)
  | answer (a : α)
  /-- An answer of another kind. -/
  | wrong
  | failed

structure BlockService where
  actualRound : UInt8
  /-- Whether a sender to an alignment thread is held. -/
  alignmentSender : Bool
  buildInProgress : Bool
  height : UInt64
  keypair : TrinciKeyPair
  lastBlockHash : Hash
  nodeId : String
  deriving DecidableEq

/-- The answers to the requests of one message, in the order they are made. The
block service asks for the pool once when it builds and once when it executes, and
twice for the players. Requests in a loop are numbered. -/
structure BlockEnv (A B C T : Type) where
  now : UInt64
  isLeader : Reply Bool
  builtFrom : Reply (List (Hash × Nat))
  unconfirmedHashes : Reply (List (Hash × Nat))
  actualPlayers : Reply (List String)
  actualPlayersAgain : Reply (List String)
  getTxs : Nat → Reply (List (T × Nat × Option (List A)))
  getFullBlock : Nat → Reply (Option (FullBlock B C T))
  getNeighbors : Reply (List String)
  getLastBlockInfo : String → Reply BlockInfo
  /-- The order in which the candidates of `best_last_block` are iterated. -/
  iterate : List (BlockInfo × List String) → List (BlockInfo × List String)

structure Handling (A B C T : Type) where
  service : BlockService
  out : List (Output A B C T)

abbrev Handler (A B C T : Type) := Stateful (Handling A B C T) BlockStop

deriving instance DecidableEq for BlockInfo

namespace BlockService

def start [Executable B] (keypair : TrinciKeyPair) (nodeId : String) (block : Option B) :
    BlockService where
  actualRound := 0
  alignmentSender := false
  buildInProgress := false
  height := match block with
    | some block => Executable.getHeight block
    | none => 0
  keypair := keypair
  lastBlockHash := match block with
    | some block => Executable.getHash block
    | none => Hash.default
  nodeId := nodeId

def service : Handler A B C T BlockService := do
  let s ← get
  return s.service

def update (f : BlockService → BlockService) : Handler A B C T PUnit :=
  modify fun s => { s with service := f s.service }

def send (out : Output A B C T) : Handler A B C T PUnit :=
  modify fun s => { s with out := s.out ++ [out] }

/-- An answer of the expected kind, or the error of the request. -/
def expect {α : Type} : Reply α → Handler A B C T α
  | .answer a => pure a
  | _ => throw .comm

/-! ## Execution -/

/-- Whether a received transaction is not one of those asked for, with the checks in
the order of the list. Nothing where a check panics. -/
def anyUnwanted [Transactable T] (hashes : List Hash) :
    List (T × Nat × Option (List A)) → Option Bool
  | [] => some false
  | (tx, _, _) :: txs =>
    match Transactable.verify tx with
    | none => none
    | some false => some true
    | some true =>
      if Transactable.getHash tx ∈ hashes then anyUnwanted hashes txs else some true

def collectMissingTxs [Transactable T] (env : BlockEnv A B C T) (missing : List Hash) :
    (left : Nat) → Handler A B C T PUnit
  | 0 => throw (.chain .missingTxsError)
  | left + 1 =>
    match env.getTxs (requestAttempts - (left + 1)) with
    | .answer txs =>
      match anyUnwanted missing txs with
      | none => throw .verifyPanic
      | some unwanted =>
        if unwanted || txs.length != missing.length then collectMissingTxs env missing left
        else send (.msg .transactionService (.addTxs txs))
    | _ => collectMissingTxs env missing left

def beginExecution [Transactable T] (env : BlockEnv A B C T) (block : B)
    (txsHashes : List Hash) : Handler A B C T PUnit :=
  match env.unconfirmedHashes with
  | .failed => throw .comm
  | .wrong => pure ⟨⟩
  | .answer unconfirmed => do
    let missing := txsHashes.filter fun hash => !(unconfirmed.map Prod.fst).contains hash
    if !missing.isEmpty then
      collectMissingTxs env missing requestAttempts
    let s ← service
    send (.msg .transactionService (.collectBlockTxs block s.actualRound txsHashes))

/-! ## Building -/

/-- The hashes taken from the end of the list while they fit. -/
def fill (limit : Nat) : (size : Nat) → List (Hash × Nat) → List Hash
  | _, [] => []
  | size, (hash, txSize) :: rest =>
    if size + txSize < limit then hash :: fill limit (size + txSize) rest else []

def buildBlock [Primitives] [Executable B] [Transactable T] (env : BlockEnv A B C T) :
    Handler A B C T PUnit := do
  update fun s => { s with buildInProgress := true }
  let hashes ← expect env.builtFrom
  let blockTxs := (fill (blockMaxSizeBytes - blockBaseSizeBytes) 0 hashes.reverse).take maxTxsInBlock
  let s ← service
  let block := Executable.new s.keypair.publicKey blockTxs (s.height + 1) s.lastBlockHash env.now
  beginExecution env block blockTxs

/-- A block that could not be built leaves the service ready to build. -/
def tryBuildBlock [Primitives] [Executable B] [Transactable T] (env : BlockEnv A B C T) :
    Handler A B C T PUnit :=
  tryCatch (buildBlock env) fun stop =>
    match stop with
    | .verifyPanic => throw .verifyPanic
    | _ => update fun s => { s with buildInProgress := false }

def verifyIfLeaderAndBuild [Primitives] [Executable B] [Transactable T]
    (env : BlockEnv A B C T) (height : UInt64) : Handler A B C T PUnit := do
  match env.isLeader with
  | .answer true => tryBuildBlock env
  | _ => pure ⟨⟩
  send (.leaderThread height)

/-! ## Blocks from peers -/

def verifyExtBlock [Executable B] [Confirmable C] [Transactable T] (env : BlockEnv A B C T)
    (block : B) (txsHashes : List Hash) (confirmations : List C) : Handler A B C T PUnit := do
  if !Executable.verify block then throw (.chain .blockVerificationFault)
  match Executable.getBuilderId block with
  | none => throw (.chain .missingBlockBuilder)
  | some builderId => do
    let s ← service
    if Executable.getHeight block ≠ s.height + 1 then
      throw (.chain (.invalidBlockHeight (s.height + 1) (Executable.getHeight block)))
    if Executable.getPrevHash block ≠ s.lastBlockHash then
      throw (.chain (.invalidBlockPreviousHash s.lastBlockHash (Executable.getPrevHash block)))
    let actualPlayers ← expect env.actualPlayers
    if !actualPlayers.contains builderId then
      throw (.chain (.invalidBlockPlayer builderId))
    let actualPlayers ← expect env.actualPlayersAgain
    if !actualPlayers.contains builderId then
      throw (.chain (.invalidBlockPlayer builderId))
    if confirmations.any fun confirmation =>
        !actualPlayers.contains (Confirmable.getPlayerId confirmation) &&
          decide (s.actualRound ≤ Confirmable.getBlockRound confirmation) then
      throw (.chain .confirmationError)
    beginExecution env block txsHashes

def retrieveAlignmentBlock [Executable B] [Confirmable C] [Transactable T] [Serialize T]
    (env : BlockEnv A B C T) : (left : Nat) → Handler A B C T PUnit
  | 0 => throw (.chain .missingBlockError)
  | left + 1 =>
    match env.getFullBlock (requestAttempts - (left + 1)) with
    | .answer (some fullBlock) =>
      if Executable.verify fullBlock.block && fullBlock.confirmations.all Confirmable.verify then do
        send (.msg .consensusService (.proposalFromAlignmentBlock fullBlock.confirmations))
        send (.msg .transactionService
          (.addTxs (fullBlock.txs.map fun tx => (tx, (rmpSerialize tx).length, none))))
        verifyExtBlock env fullBlock.block (fullBlock.txs.map Transactable.getHash)
          fullBlock.confirmations
      else throw (.chain .blockVerificationFault)
    | _ => retrieveAlignmentBlock env left

/-! ## Alignment -/

/-- `entry(info).or_default().push(neighbor)` -/
def addCandidate (candidates : List (BlockInfo × List String)) (info : BlockInfo)
    (neighbor : String) : List (BlockInfo × List String) :=
  if candidates.any fun entry => entry.1 == info then
    candidates.map fun entry => if entry.1 = info then (entry.1, entry.2 ++ [neighbor]) else entry
  else candidates ++ [(info, [neighbor])]

/-- The candidates of the neighbors; a request that fails ends the search. -/
def collectCandidates (answer : String → Reply BlockInfo) :
    List String → List (BlockInfo × List String) → Option (List (BlockInfo × List String))
  | [], candidates => some candidates
  | neighbor :: neighbors, candidates =>
    match answer neighbor with
    | .failed => none
    | .wrong => collectCandidates answer neighbors candidates
    | .answer info => collectCandidates answer neighbors (addCandidate candidates info neighbor)

def candidateLe (a b : BlockInfo × List String) : Bool :=
  a.2.length < b.2.length || a.2.length == b.2.length && a.1.height ≤ b.1.height

/-- `max_by_key`: the last of the largest entries. -/
def maxCandidate : List (BlockInfo × List String) → Option (BlockInfo × List String)
  | [] => none
  | first :: rest =>
    some (rest.foldl (fun best entry => if candidateLe best entry then entry else best) first)

def bestLastBlock (env : BlockEnv A B C T) : Handler A B C T (UInt64 × List String) :=
  match env.getNeighbors with
  | .failed => throw .comm
  | .wrong => throw (.chain (.alignmentError "failed to find best last block"))
  | .answer neighbors =>
    match collectCandidates env.getLastBlockInfo neighbors [] with
    | none => throw .comm
    | some candidates =>
      match maxCandidate (env.iterate candidates) with
      | some (info, peers) => pure (info.height, peers)
      | none => throw (.chain (.alignmentError "failed to find best last block"))

def align (env : BlockEnv A B C T) : Handler A B C T PUnit := do
  let s ← service
  if s.alignmentSender then pure ⟨⟩
  else do
    let (height, trustedPeers) ← bestLastBlock env
    if s.height < height then do
      update fun s => { s with alignmentSender := true }
      send (.msg .transactionService .alignmentStarted)
      send (.alignmentThread height trustedPeers)
    else pure ⟨⟩

/-! ## Consolidation and the messages -/

def finalizeConsolidation [Executable B] (block : B) (txsHashes : List Hash)
    (players : Players) : Handler A B C T PUnit := do
  update fun s => { s with
    actualRound := 0
    buildInProgress := false
    height := Executable.getHeight block
    lastBlockHash := Executable.getHash block }
  let s ← service
  if s.alignmentSender then send (.alignmentStep s.height)
  send (.msg .consensusService (.blockConsolidated block txsHashes players))
  send (.msg .transactionService (.blockConsolidated block txsHashes players))

/-- An error that is only logged. -/
def logged (x : Handler A B C T PUnit) : Handler A B C T PUnit :=
  tryCatch x fun stop =>
    match stop with
    | .verifyPanic => throw .verifyPanic
    | _ => pure ⟨⟩

variable [Primitives] [Executable B] [Confirmable C] [Transactable T] [Serialize T]

def handle (env : BlockEnv A B C T) (msg : Msg A B C T) : Handler A B C T PUnit := do
  let s ← service
  match msg with
  | .alignmentEnded => update fun s => { s with alignmentSender := false }
  | .blockConsolidated block txsHashes players => finalizeConsolidation block txsHashes players
  | .blockFromPeer block confirmation txsHashes =>
    logged (verifyExtBlock env block txsHashes [confirmation])
  | .buildBlock =>
    if !s.buildInProgress then verifyIfLeaderAndBuild env s.height
  | .buildBlockTimeout height =>
    if !s.buildInProgress && height == s.height then verifyIfLeaderAndBuild env height
  | .buildBlockInPlaceOfLeader heightToBuild =>
    if s.height < heightToBuild then tryBuildBlock env
  | .detectedPossibleMisalignment => logged (align env)
  | .heightFromPeer height => if s.height + 1 < height then logged (align env)
  | .refreshRound newRound =>
    if s.actualRound < newRound then update fun s => { s with actualRound := newRound }
  | .retrieveBlock _ =>
    tryCatch (retrieveAlignmentBlock env requestAttempts) fun stop =>
      match stop with
      | .verifyPanic => throw .verifyPanic
      | _ => update fun s => { s with alignmentSender := false }
  | .startTimerToBuildBlock => send (.buildBlockThread s.height)
  | _ => pure ⟨⟩

/-- The service after a message and what it sent, or the end of the service. -/
def handleMessages (env : BlockEnv A B C T) (s : BlockService) (msg : Msg A B C T) :
    Except BlockStop (BlockService × List (Output A B C T)) :=
  let x := handle env msg
  let done := after x ⟨s, []⟩
  match result x ⟨s, []⟩ with
  | .error .verifyPanic => .error .verifyPanic
  | _ => .ok (done.service, done.out)

end BlockService

end Trinci
