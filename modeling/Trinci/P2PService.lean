import Trinci.PeerRequests

/-!
# The service between the peers

Gossip of peers is checked against the database and passed on to the services of the core.
Requests go to one peer, under an id that the swarm gives; whoever made the request waits on
a channel that is kept under the id until the answer comes. Requests of peers are answered by
the database service.
-/

namespace Trinci

open StepMachines

variable {Chan : Type}

def maxKnownPeers : Nat := 5

def numOfNeighbors : Nat := 4

/-- What is gossiped. -/
inductive Payload
  | block (block : Block) (confirmation : Confirmation) (txsHashes : List Hash)
  | confirmation (confirmation : Confirmation)
  | oldTransactions (txs : List Transaction)
  | transaction (tx : Transaction)

inductive TrinciTopics
  | blocks
  | consensus
  | txs
  deriving DecidableEq

/-- What the node sends to its peers by gossip. -/
inductive P2PMsg
  | propagateBlockToPeers (block : Block) (confirmation : Confirmation) (txsHashes : List Hash)
  | propagateConfirmationToPeers (confirmation : Confirmation)
  | propagateOldTxs (txs : List Transaction)
  | propagateTxToPeers (tx : Transaction)

/-- The encodings of what goes over the network. -/
class PeerCodec where
  payload : Payload → Bytes
  payload? : Bytes → Option Payload
  req : NodeReq → Bytes
  req? : Bytes → Option NodeReq
  res : NodeRes → Bytes
  res? : Bytes → Option NodeRes

section Codecs

variable [PeerCodec]

instance : Serialize Payload := ⟨PeerCodec.payload⟩

instance : Deserialize Payload := ⟨PeerCodec.payload?⟩

instance : Serialize NodeReq := ⟨PeerCodec.req⟩

instance : Deserialize NodeReq := ⟨PeerCodec.req?⟩

instance : Serialize NodeRes := ⟨PeerCodec.res⟩

instance : Deserialize NodeRes := ⟨PeerCodec.res?⟩

end Codecs

structure Peer where
  addresses : List String
  peerId : String

structure LatestKnownPeers where
  bootstrapPeer : Option Peer
  latestPeers : List Peer

def LatestKnownPeers.new (bootstrapAddresses : Option (List String))
    (bootstrapPeerId : Option String) : LatestKnownPeers where
  bootstrapPeer := match bootstrapAddresses, bootstrapPeerId with
    | some addresses, some peerId => some ⟨addresses, peerId⟩
    | _, _ => none
  latestPeers := []

/-- One more peer told its addresses; the oldest makes room. -/
def LatestKnownPeers.known (peers : LatestKnownPeers) (peer : Peer) : LatestKnownPeers :=
  { peers with latestPeers :=
      (if peers.latestPeers.length = maxKnownPeers then peers.latestPeers.drop 1
        else peers.latestPeers) ++ [peer] }

/-- The id of a request that the swarm sent. -/
abbrev OutboundRequestId := UInt64

structure P2PService (Chan : Type) where
  networkName : String
  pendingReq : AList fun _ : OutboundRequestId => Option Chan
  latestKnownPeers : LatestKnownPeers

/-- What the swarm, the database service and the random numbers answer while an input is
handled. -/
structure P2PEnv where
  /-- The id for the request that is sent. -/
  requestId : OutboundRequestId
  closestLocalPeers : List String
  externalAddresses : List String
  peerIdFromStr : String → Option String
  random : Nat → Nat
  dbService : NodeReq → Option NodeRes

inductive P2PInput (Chan : Type)
  | gossip (data : Bytes)
  | identified (peerId : String) (listenAddrs : List String)
  | peerRequest (request : Bytes)
  | peerResponse (response : Bytes) (requestId : OutboundRequestId)
  | outboundFailure (requestId : OutboundRequestId)
  | msg (msg : P2PMsg)
  | req (req : NodeReq) (resChan : Chan)

inductive P2POutput (Chan : Type)
  | core (out : NodeOutput)
  | addAddress (peerId address : String)
  | sendRequest (peerId : String) (requestId : OutboundRequestId) (request : Bytes)
  | sendResponse (response : Bytes)
  | publish (topic : TrinciTopics) (data : Bytes)
  | reply (resChan : Chan) (res : NodeRes)

/-- The peer to ask is not among those that were named or are near, or is no peer id. -/
inductive P2PPanic
  | noNeighbor
  | badPeerId

namespace P2PService

def start (bootstrapAddresses : Option (List String)) (bootstrapPeerId : Option String)
    (networkName : String) : P2PService Chan where
  networkName := networkName
  pendingReq := ∅
  latestKnownPeers := .new bootstrapAddresses bootstrapPeerId

section Gossip

variable [Primitives] [NodeCodec]

/-- What goes to the core for a payload. Transactions are asked of the database first. -/
def handleGossipMsg (s : P2PService Chan) (env : P2PEnv) : Payload → List NodeOutput
  | .confirmation confirmation =>
    [.msg .consensusService (.blockConfirmationFromPeer confirmation)]
  | .block block confirmation txsHashes =>
    [.msg .consensusService (.blockFromPeer block confirmation txsHashes)]
  | .oldTransactions txs =>
    match env.dbService (.hasTxs (txs.map Transaction.getHash)) with
    | some (.hasTxs mask) =>
      [.msg .transactionService (.addTxs (((txs.zip mask).filter fun entry => !entry.2).map
        fun entry => Node.poolEntry entry.1))]
    | _ => []
  | .transaction tx =>
    if tx.getNetwork ≠ s.networkName then []
    else match env.dbService (.hasTx tx.getHash) with
    | some (.hasTx false) => [Node.addTx tx]
    | _ => []

end Gossip

section Requests

variable [PeerCodec]

def sendRequest (s : P2PService Chan) (env : P2PEnv) (peerId : String) (req : NodeReq)
    (resChan : Option Chan) : P2PService Chan × List (P2POutput Chan) :=
  ({ s with pendingReq := s.pendingReq.insert env.requestId resChan },
    [.sendRequest peerId env.requestId (rmpSerialize req)])

/-- A peer that tells its addresses is asked for its height. -/
def handleIdentifyEvent (s : P2PService Chan) (env : P2PEnv) (peerId : String)
    (listenAddrs : List String) : P2PService Chan × List (P2POutput Chan) :=
  let s : P2PService Chan :=
    { s with latestKnownPeers := s.latestKnownPeers.known ⟨listenAddrs, peerId⟩ }
  let (s, out) := s.sendRequest env peerId .getHeight none
  (s, listenAddrs.map (.addAddress peerId) ++ out)

def handlePeerRequests (env : P2PEnv) (request : Bytes) : List (P2POutput Chan) :=
  match (rmpDeserialize request : Option NodeReq) with
  | none => []
  | some req =>
    match env.dbService req with
    | some res => [.sendResponse (rmpSerialize res)]
    | none => []

/-- Whoever waits under the id gets the answer; a height nobody waits for goes to the core. -/
def settling (slot : Option (Option Chan)) (res : NodeRes) : List (P2POutput Chan) :=
  match slot, res with
  | some (some resChan), res => [.reply resChan res]
  | some none, .getHeight height => [.core (.msg .blockService (.heightFromPeer height))]
  | _, _ => []

def handlePeerResponse (s : P2PService Chan) (response : Bytes)
    (requestId : OutboundRequestId) : P2PService Chan × List (P2POutput Chan) :=
  match (rmpDeserialize response : Option NodeRes) with
  | none => (s, [])
  | some res =>
    ({ s with pendingReq := s.pendingReq.erase requestId },
      settling (s.pendingReq.lookup requestId) res)

def handleMessages : P2PMsg → List (P2POutput Chan)
  | .propagateBlockToPeers block confirmation txsHashes =>
    [.publish .blocks (rmpSerialize (Payload.block block confirmation txsHashes))]
  | .propagateConfirmationToPeers confirmation =>
    [.publish .consensus (rmpSerialize (Payload.confirmation confirmation))]
  | .propagateOldTxs txs =>
    txs.map fun tx => .publish .txs (rmpSerialize (Payload.oldTransactions [tx]))
  | .propagateTxToPeers tx => [.publish .txs (rmpSerialize (Payload.transaction tx))]

def getRandomNeighbor (env : P2PEnv) : Except P2PPanic String :=
  let neighbors := env.closestLocalPeers.take numOfNeighbors
  match neighbors[env.random (min neighbors.length numOfNeighbors - 1)]? with
  | some peerId => .ok peerId
  | none => .error .noNeighbor

def namedPeer (env : P2PEnv) (neighbor : String) : Except P2PPanic String :=
  match env.peerIdFromStr neighbor with
  | some peerId => .ok peerId
  | none => .error .badPeerId

/-- `address.split("/p2p/").next()` -/
def withoutPeerId (address : String) : String := (address.splitOn "/p2p/").headD ""

def handleRequests (s : P2PService Chan) (env : P2PEnv) (req : NodeReq) (resChan : Chan) :
    Except P2PPanic (P2PService Chan × List (P2POutput Chan)) :=
  match req with
  | .getFullBlock _ trustedPeers =>
    match trustedPeers[env.random (trustedPeers.length - 1)]? with
    | none => .error .noNeighbor
    | some neighbor => do
      let peerId ← namedPeer env neighbor
      return s.sendRequest env peerId req (some resChan)
  | .getLastBlockInfo neighbor => do
    let peerId ← namedPeer env neighbor
    return s.sendRequest env peerId req (some resChan)
  | .getNeighbors =>
    .ok (s, [.reply resChan (.getNeighbors (env.closestLocalPeers.take numOfNeighbors))])
  | .getP2pAddresses =>
    .ok (s, [.reply resChan (.getP2pAddresses (env.externalAddresses.map withoutPeerId))])
  | .getTxs _ => do
    let peerId ← getRandomNeighbor env
    return s.sendRequest env peerId req (some resChan)
  | .getConfirmations _ _ _ => do
    let peerId ← getRandomNeighbor env
    return s.sendRequest env peerId req (some resChan)
  | _ => .ok (s, [])

variable [Primitives] [NodeCodec]

def handle (s : P2PService Chan) (env : P2PEnv) :
    P2PInput Chan → Except P2PPanic (P2PService Chan × List (P2POutput Chan))
  | .gossip data =>
    match (rmpDeserialize data : Option Payload) with
    | some payload => .ok (s, (s.handleGossipMsg env payload).map .core)
    | none => .ok (s, [])
  | .identified peerId listenAddrs => .ok (s.handleIdentifyEvent env peerId listenAddrs)
  | .peerRequest request => .ok (s, handlePeerRequests env request)
  | .peerResponse response requestId => .ok (s.handlePeerResponse response requestId)
  | .outboundFailure requestId =>
    .ok ({ s with pendingReq := s.pendingReq.erase requestId }, [])
  | .msg msg => .ok (s, handleMessages msg)
  | .req req resChan => s.handleRequests env req resChan

end Requests

end P2PService

end Trinci
