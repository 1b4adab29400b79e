import Mathlib.Data.List.AList
import Trinci.Crypto

/-!
# Blocks, confirmations and the messages between the core services

The core is generic over blocks, confirmations, transactions and attachments.
Each trait is a class; a class also carries what signing leaves unchanged, so
that the services never depend on a representation. Constructors that read the
clock or the system generator take the value read as an argument.
-/

namespace Trinci

universe u

def maxReqAttempts : Nat := 5

class Executable (B : Type u) where
  getBuilderId : B → Option String
  getBuilderPubKey : B → Option TrinciPublicKey
  getHash : B → Hash
  getHeight : B → UInt64
  getPrevHash : B → Hash
  getTxsHash : B → Hash
  getRxsHash : B → Hash
  setStateHash : B → Hash → B
  setTxsHash : B → Hash → B
  setRxsHash : B → Hash → B
  new : TrinciPublicKey → List Hash → UInt64 → Hash → (timestamp : UInt64) → B
  sign : TrinciKeyPair → (rng : Nat) → B → B
  verify : B → Bool
  getHash_sign : ∀ kp rng b, getHash (sign kp rng b) = getHash b
  getHeight_sign : ∀ kp rng b, getHeight (sign kp rng b) = getHeight b

class Confirmable (C : Type u) where
  getBlockHash : C → Hash
  getBlockHeight : C → UInt64
  getBlockRound : C → UInt8
  getPlayerId : C → String
  new : Hash → UInt64 → UInt8 → TrinciPublicKey → C
  sign : TrinciKeyPair → (rng : Nat) → C → C
  verify : C → Bool
  getBlockHash_sign : ∀ kp rng hash height round key,
    getBlockHash (sign kp rng (new hash height round key)) = hash
  getBlockHeight_sign : ∀ kp rng hash height round key,
    getBlockHeight (sign kp rng (new hash height round key)) = height
  getBlockRound_sign : ∀ kp rng hash height round key,
    getBlockRound (sign kp rng (new hash height round key)) = round
  getPlayerId_sign : ∀ kp rng hash height round key,
    getPlayerId (sign kp rng (new hash height round key)) =
      getPlayerId (new Hash.default 0 0 key)

class Transactable (T : Type u) where
  getHash : T → Hash
  /-- Nothing where the check panics. -/
  verify : T → Option Bool

attribute [simp] Executable.getHash_sign Executable.getHeight_sign
attribute [simp] Confirmable.getBlockHash_sign Confirmable.getBlockHeight_sign
attribute [simp] Confirmable.getBlockRound_sign Confirmable.getPlayerId_sign

structure BlockProposal (B C : Type u) where
  block : Option (B × List Hash)
  blockHash : Hash
  blockHeight : UInt64
  count : Nat
  receivedConfirmations : List C
  round : UInt8
  timestamp : UInt64

def BlockProposal.new {B C : Type u} (block : Option (B × List Hash)) (blockHash : Hash)
    (blockHeight : UInt64) (receivedConfirmations : List C) (round : UInt8)
    (timestamp : UInt64) : BlockProposal B C where
  block := block
  blockHash := blockHash
  blockHeight := blockHeight
  count := receivedConfirmations.length
  receivedConfirmations := receivedConfirmations
  round := round
  timestamp := timestamp

structure Player where
  accountId : String
  unitsInStake : UInt64
  lifePoints : UInt8
  deriving DecidableEq

structure Players where
  playersIds : List String
  /-- The weights are `usize` values; sums wrap in a release build. -/
  weights : List UInt64
  deriving DecidableEq

def Players.getWeightedPlayerIds (players : Players) : List String :=
  (players.playersIds.zip players.weights).flatMap fun entry =>
    List.replicate entry.2.toNat entry.1

structure FullBlock (B C T : Type u) where
  block : B
  confirmations : List C
  txs : List T

structure BlockInfo where
  height : UInt64
  hash : Hash

inductive Msg (A B C T : Type u)
  | addTx (tx : T) (size : Nat) (attachments : Option (List A))
  | addTxs (txs : List (T × Nat × Option (List A)))
  | alignmentEnded
  | alignmentStarted
  | blockConfirmationFromPeer (confirmation : C)
  | blockConsolidated (block : B) (txsHashes : List Hash) (players : Players)
  | blockFromPeer (block : B) (confirmation : C) (txsHashes : List Hash)
  | buildBlock
  | blockExecutionEnded (block : B) (txsHashes : List Hash)
  | buildBlockInPlaceOfLeader (heightToBuild : UInt64)
  | buildBlockTimeout (height : UInt64)
  | checkOldBlockProposals
  | checkOldTxs
  | collectBlockTxs (block : B) (round : UInt8) (txsHashes : List Hash)
  | confirmBuildBlockInPlaceOfLeader (heightToBuild : UInt64) (round : UInt8)
  | detectedPossibleMisalignment
  | executeBlock (block : B) (round : UInt8) (txs : List T)
  | heightFromPeer (height : UInt64)
  | blockElectionFailed (heightToBuild : UInt64) (newRound : UInt8)
  | newHeight (height : UInt64)
  | propagateBlockToPeers (block : B) (confirmation : C) (txsHashes : List Hash)
  | propagateConfirmationToPeers (confirmation : C)
  | propagateOldTxs (txs : List T)
  | proposalAfterBuild (block : B) (round : UInt8) (txsHashes : List Hash)
  | proposalFromAlignmentBlock (confirmations : List C)
  | refreshRound (round : UInt8)
  | retrieveBlock (trustedPeers : List String)
  | startBlockConsolidation (block : B) (confirmations : List C) (txsHashes : List Hash)
  | startTimerToBuildBlock
  | updateSeedSource (lastBlockHash txsHash rxsHash : Hash)
  | verifyConfirmations (block : Option (B × List Hash)) (confirmations : List C)
  | verifyIfConsolidated (height : UInt64) (round : UInt8)

inductive Req
  | getActualPlayers
  | getConfirmations (height : UInt64) (hash : Hash) (askForBlock : Bool)
  | getDRandNum (max : UInt64)
  | getFullBlock (height : UInt64) (trustedPeers : List String)
  | getLastBlockInfo (toId : String)
  | getLeader
  | getNeighbors
  | getPoolLength
  | getTxs (hashes : List Hash)
  | getUnconfirmedHashes
  | isLeader (peerId : String)

inductive Res (A B C T : Type u)
  | getActualPlayers (playersIds : List String)
  | getConfirmations (confirmations : Option (List C)) (block : Option (B × List Hash))
  | getDRandNum (num : UInt64)
  | getFullBlock (fullBlock : Option (FullBlock B C T)) (fromId : String)
  | getLastBlockInfo (info : BlockInfo)
  | getLeader (leader : String)
  | getNeighbors (ids : List String)
  | getPoolLength (length : Nat)
  | getTxs (txs : List (T × Nat × Option (List A)))
  | getUnconfirmedHashes (hashes : List (Hash × Nat))
  | isLeader (answer : Bool)

inductive Service
  | blockService
  | consensusService
  | drandService
  | transactionService
  | nodeInterface
  deriving DecidableEq

/-- What a service does to the outside while it handles one message. -/
inductive Output (A B C T : Type u)
  | msg (dest : Service) (msg : Msg A B C T)
  | req (dest : Service) (req : Req)
  /-- The thread of `block_election_failed`. -/
  | electionThread (heightToBuild : UInt64) (round : UInt8)
  /-- The thread of `check_old_block_proposals`. -/
  | confirmationsThread (proposal : BlockProposal B C)
  /-- The thread of `StartTimerToBuildBlock`. -/
  | buildBlockThread (height : UInt64)
  /-- The thread of `verify_if_leader_and_build`. -/
  | leaderThread (height : UInt64)
  /-- The thread of `spawn_alignment_thread`. -/
  | alignmentThread (height : UInt64) (trustedPeers : List String)
  /-- The new height for the alignment thread. -/
  | alignmentStep (height : UInt64)

end Trinci
