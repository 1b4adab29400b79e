import Mathlib.Data.List.DropRight
import Trinci.P2PService
import Trinci.WaitingTables

/-!
# Requests that wait for peers

A request that goes to a peer is kept with the channel of whoever made it, and is settled by
an answer that can be decoded or by a failure. So the service keeps just the requests that
were not settled, and a channel gets one answer at most: the one that came under the id of its
request. An answer that cannot be decoded settles nothing.
-/

namespace Trinci

open StepMachines WaitingTables

variable {Chan : Type}

namespace P2PService

abbrev P2PEvent (Chan : Type) :=
  Event (P2PService Chan) (P2PEnv × P2PInput Chan) (P2POutput Chan)

section Steps

variable [PeerCodec]

/-- The requests that the service answers itself. -/
inductive AtOnce (env : P2PEnv) : NodeReq → NodeRes → Prop
  | neighbors : AtOnce env .getNeighbors
      (.getNeighbors (env.closestLocalPeers.take numOfNeighbors))
  | addresses : AtOnce env .getP2pAddresses
      (.getP2pAddresses (env.externalAddresses.map withoutPeerId))

/-- The steps by what they do to the requests that wait. -/
inductive P2PStep [Primitives] [NodeCodec] (s : P2PService Chan) (env : P2PEnv) :
    P2PInput Chan → P2PService Chan → List (P2POutput Chan) → Prop
  | gossips (data : Bytes) (sent : List NodeOutput)
      (heard : sent = [] ∨ ∃ payload, (rmpDeserialize data : Option Payload) = some payload ∧
        sent = s.handleGossipMsg env payload) :
      P2PStep s env (.gossip data) s (sent.map .core)
  | identifies (peerId : String) (listenAddrs : List String) :
      P2PStep s env (.identified peerId listenAddrs)
        { s with
          latestKnownPeers := s.latestKnownPeers.known ⟨listenAddrs, peerId⟩
          pendingReq := s.pendingReq.insert env.requestId none }
        (listenAddrs.map (.addAddress peerId) ++
          [.sendRequest peerId env.requestId (rmpSerialize NodeReq.getHeight)])
  | serves (request : Bytes) :
      P2PStep s env (.peerRequest request) s (handlePeerRequests env request)
  | mistakes (response : Bytes) (requestId : OutboundRequestId)
      (unreadable : (rmpDeserialize response : Option NodeRes) = none) :
      P2PStep s env (.peerResponse response requestId) s []
  | settles (response : Bytes) (requestId : OutboundRequestId) (res : NodeRes)
      (read : (rmpDeserialize response : Option NodeRes) = some res) :
      P2PStep s env (.peerResponse response requestId)
        { s with pendingReq := s.pendingReq.erase requestId }
        (settling (s.pendingReq.lookup requestId) res)
  | fails (requestId : OutboundRequestId) :
      P2PStep s env (.outboundFailure requestId)
        { s with pendingReq := s.pendingReq.erase requestId } []
  | publishes (msg : P2PMsg) : P2PStep s env (.msg msg) s (handleMessages msg)
  | asks (req : NodeReq) (resChan : Chan) (peerId : String) :
      P2PStep s env (.req req resChan)
        { s with pendingReq := s.pendingReq.insert env.requestId (some resChan) }
        [.sendRequest peerId env.requestId (rmpSerialize req)]
  | answers (req : NodeReq) (resChan : Chan) (res : NodeRes) (told : AtOnce env req res) :
      P2PStep s env (.req req resChan) s [.reply resChan res]
  | ignores (req : NodeReq) (resChan : Chan) : P2PStep s env (.req req resChan) s []

variable {s s' : P2PService Chan} {env : P2PEnv} {input : P2PInput Chan}
  {out : List (P2POutput Chan)}

theorem handleRequests_ok {req : NodeReq} {resChan : Chan}
    (h : s.handleRequests env req resChan = .ok (s', out)) :
    (∃ peerId, (s', out) = s.sendRequest env peerId req (some resChan)) ∨
      (s' = s ∧ ∃ res, AtOnce env req res ∧ out = [.reply resChan res]) ∨ s' = s ∧ out = [] := by
  have sends : ∀ {x : Except P2PPanic String},
      (x >>= fun peerId => pure (s.sendRequest env peerId req (some resChan))) = .ok (s', out) →
        ∃ peerId, (s', out) = s.sendRequest env peerId req (some resChan) := by
    intro x hx
    obtain ⟨peerId, -, hsent⟩ := bind_eq_ok.mp hx
    exact ⟨peerId, (Except.ok.inj hsent).symm⟩
  cases req with
  | getFullBlock height trustedPeers =>
    simp only [handleRequests] at h
    split at h
    · cases h
    · exact .inl (sends h)
  | getLastBlockInfo neighbor => exact .inl (sends h)
  | getTxs hashes => exact .inl (sends h)
  | getConfirmations height hash ask => exact .inl (sends h)
  | getNeighbors =>
    cases h
    exact .inr (.inl ⟨rfl, _, .neighbors, rfl⟩)
  | getP2pAddresses =>
    cases h
    exact .inr (.inl ⟨rfl, _, .addresses, rfl⟩)
  | _ =>
    cases h
    exact .inr (.inr ⟨rfl, rfl⟩)

theorem handle_step [Primitives] [NodeCodec] (h : s.handle env input = .ok (s', out)) :
    P2PStep s env input s' out := by
  cases input with
  | gossip data =>
    simp only [handle] at h
    split at h
    · next payload hpayload =>
      cases h
      exact .gossips data _ (.inr ⟨payload, hpayload, rfl⟩)
    · cases h
      exact .gossips data [] (.inl rfl)
  | identified peerId listenAddrs =>
    cases h
    exact .identifies peerId listenAddrs
  | peerRequest request =>
    cases h
    exact .serves request
  | peerResponse response requestId =>
    simp only [handle, handlePeerResponse] at h
    split at h
    · next unreadable =>
      cases h
      exact .mistakes response requestId unreadable
    · next res read =>
      cases h
      exact .settles response requestId res read
  | outboundFailure requestId =>
    cases h
    exact .fails requestId
  | msg msg =>
    cases h
    exact .publishes msg
  | req req resChan =>
    obtain ⟨peerId, sent⟩ | ⟨rfl, res, told, rfl⟩ | ⟨rfl, rfl⟩ := handleRequests_ok h
    · cases sent
      exact .asks req resChan peerId
    · exact .answers req resChan res told
    · exact .ignores req resChan

end Steps

section Runs

variable [PeerCodec] [Primitives] [NodeCodec]

def step (s : P2PService Chan) (input : P2PEnv × P2PInput Chan) :
    Except P2PPanic (P2PService Chan × List (P2POutput Chan)) :=
  s.handle input.1 input.2

/-- Who waits for the answer to what an input asks. -/
def opened : P2PInput Chan → Option Chan
  | .req _ resChan => some resChan
  | _ => none

def issuing (input : P2PInput Chan) :
    P2POutput Chan → Option (Change OutboundRequestId (Option Chan))
  | .sendRequest _ requestId _ => some (.issued requestId (opened input))
  | _ => none

/-- An answer settles its request only if it can be decoded. -/
def settled? : P2PInput Chan → List (Change OutboundRequestId (Option Chan))
  | .peerResponse response requestId =>
    if (rmpDeserialize response : Option NodeRes).isSome then [.settled requestId] else []
  | .outboundFailure requestId => [.settled requestId]
  | _ => []

/-- What an event does to the requests that wait. -/
def changes (e : P2PEvent Chan) : List (Change OutboundRequestId (Option Chan)) :=
  e.out.filterMap (issuing e.input.2) ++ settled? e.input.2

def requestIdOf : P2POutput Chan → Option OutboundRequestId
  | .sendRequest _ requestId _ => some requestId
  | _ => none

def replied : P2POutput Chan → Option Chan
  | .reply resChan _ => some resChan
  | _ => none

/-- The peer that tells its addresses. -/
def told? (e : P2PEvent Chan) : Option Peer :=
  match e.input.2 with
  | .identified peerId listenAddrs => some ⟨listenAddrs, peerId⟩
  | _ => none

variable {s s' : P2PService Chan} {env : P2PEnv} {input : P2PInput Chan}
  {out : List (P2POutput Chan)}

omit [Primitives] [NodeCodec] in
/-- Where no request goes to a peer, requests are settled at most. -/
theorem changes_eq_settled (quiet : ∀ o ∈ out, issuing input o = none) :
    changes ⟨s, (env, input), out, s'⟩ = settled? input := by
  simp only [changes, List.filterMap_eq_nil_iff.mpr quiet, List.nil_append]

omit [PeerCodec] [Primitives] [NodeCodec] in
theorem mem_settling {slot : Option (Option Chan)} {res : NodeRes} {o : P2POutput Chan}
    (ho : o ∈ settling slot res) :
    (∃ resChan, slot = some (some resChan) ∧ o = .reply resChan res) ∨
      ∃ height, slot = some none ∧ res = .getHeight height ∧
        o = .core (.msg .blockService (.heightFromPeer height)) := by
  unfold settling at ho
  split at ho
  · exact .inl ⟨_, rfl, List.mem_singleton.mp ho⟩
  · exact .inr ⟨_, rfl, rfl, List.mem_singleton.mp ho⟩
  · cases ho

omit [Primitives] [NodeCodec] in
theorem mem_handlePeerRequests {request : Bytes} {o : P2POutput Chan}
    (ho : o ∈ handlePeerRequests env request) :
    ∃ req res, (rmpDeserialize request : Option NodeReq) = some req ∧
      env.dbService req = some res ∧ o = .sendResponse (rmpSerialize res) := by
  unfold handlePeerRequests at ho
  split at ho
  · cases ho
  · next req read =>
    split at ho
    · next res said => exact ⟨req, res, read, said, List.mem_singleton.mp ho⟩
    · cases ho

omit [Primitives] [NodeCodec] in
theorem mem_handleMessages {msg : P2PMsg} {o : P2POutput Chan} (ho : o ∈ handleMessages msg) :
    ∃ topic data, o = .publish topic data := by
  cases msg with
  | propagateOldTxs txs =>
    obtain ⟨tx, -, rfl⟩ := List.mem_map.mp ho
    exact ⟨_, _, rfl⟩
  | _ => exact ⟨_, _, List.mem_singleton.mp ho⟩

theorem P2PStep.changes_eq (h : P2PStep s env input s' out) :
    s'.pendingReq = (changes ⟨s, (env, input), out, s'⟩).foldl Change.apply s.pendingReq := by
  cases h with
  | gossips data sent heard =>
    rw [changes_eq_settled fun o ho => ?_]
    · rfl
    · obtain ⟨message, -, rfl⟩ := List.mem_map.mp ho
      rfl
  | identifies peerId listenAddrs =>
    have addresses : (listenAddrs.map (P2POutput.addAddress peerId)).filterMap
        (issuing (.identified peerId listenAddrs : P2PInput Chan)) = [] := by
      refine List.filterMap_eq_nil_iff.mpr fun o ho => ?_
      obtain ⟨address, -, rfl⟩ := List.mem_map.mp ho
      rfl
    simp only [changes, List.filterMap_append, addresses, List.nil_append]
    rfl
  | serves request =>
    rw [changes_eq_settled fun o ho => ?_]
    · rfl
    · obtain ⟨req, res, -, -, rfl⟩ := mem_handlePeerRequests ho
      rfl
  | mistakes response requestId unreadable => simp [changes, settled?, unreadable]
  | settles response requestId res read =>
    rw [changes_eq_settled fun o ho => ?_, settled?, read]
    · rfl
    · obtain ⟨resChan, -, rfl⟩ | ⟨height, -, -, rfl⟩ := mem_settling ho <;> rfl
  | fails requestId => rfl
  | publishes msg =>
    rw [changes_eq_settled fun o ho => ?_]
    · rfl
    · obtain ⟨topic, data, rfl⟩ := mem_handleMessages ho
      rfl
  | asks req resChan peerId => rfl
  | answers req resChan res told => rfl
  | ignores req resChan => rfl

omit [PeerCodec] [Primitives] [NodeCodec] in
/-- The peers that are kept are the last of those that were known. -/
theorem known_rtake (peers : List Peer) (bootstrapPeer : Option Peer) (peer : Peer) :
    (LatestKnownPeers.known ⟨bootstrapPeer, peers.rtake maxKnownPeers⟩ peer).latestPeers =
      (peers ++ [peer]).rtake maxKnownPeers := by
  simp only [LatestKnownPeers.known, List.rtake, List.length_drop, List.length_append,
    List.length_singleton]
  by_cases full : maxKnownPeers ≤ peers.length
  · have length : peers.length - (peers.length - maxKnownPeers) = maxKnownPeers := by omega
    have start : peers.length + 1 - maxKnownPeers = peers.length - maxKnownPeers + 1 := by omega
    rw [if_pos length, List.drop_drop, start, List.drop_append_of_le_length]
    simp only [maxKnownPeers] at full ⊢
    omega
  · have length : ¬ peers.length - (peers.length - maxKnownPeers) = maxKnownPeers := by omega
    have whole : peers.length - maxKnownPeers = 0 := by omega
    have whole' : peers.length + 1 - maxKnownPeers = 0 := by omega
    rw [if_neg length, whole, whole', List.drop_zero, List.drop_zero]

theorem P2PStep.latest_eq (h : P2PStep s env input s' out) :
    s'.latestKnownPeers = match told? ⟨s, (env, input), out, s'⟩ with
      | some peer => s.latestKnownPeers.known peer
      | none => s.latestKnownPeers := by
  cases h <;> rfl

variable {bootstrapAddresses : Option (List String)} {bootstrapPeerId : Option String}
  {networkName : String} {trace : List (P2PEvent Chan)}

omit [Primitives] [NodeCodec] in
theorem ids_settled? (input : P2PInput Chan) : ids (settled? input) = [] := by
  unfold settled?
  split
  · split <;> rfl
  · rfl
  · rfl

omit [Primitives] [NodeCodec] in
theorem ids_changes (trace : List (P2PEvent Chan)) :
    ids (trace.flatMap changes) = (outputs trace).filterMap requestIdOf := by
  induction trace with
  | nil => rfl
  | cons e trace ih =>
    have sent : ids (e.out.filterMap (issuing e.input.2)) = e.out.filterMap requestIdOf := by
      rw [ids, List.filterMap_filterMap]
      congr 1
      funext o
      cases o <;> rfl
    rw [List.flatMap_cons, ids_append, ih, changes, ids_append, ids_settled?, List.append_nil,
      sent]
    exact List.filterMap_append.symm

theorem run_table
    (run : Run (Computes step) (start bootstrapAddresses bootstrapPeerId networkName) trace s) :
    s.pendingReq = table (trace.flatMap changes) := by
  induction run with
  | nil => rfl
  | snoc run hstep ih =>
    rw [List.flatMap_append, List.flatMap_singleton, table_append, ← ih]
    exact (handle_step hstep).changes_eq

/-- After every run: just those wait whose request was sent and not settled since, and the
peers that are kept are the last that told their addresses. -/
theorem run_pending
    (run : Run (Computes step) (start bootstrapAddresses bootstrapPeerId networkName) trace s)
    (once : ((outputs trace).filterMap requestIdOf).Nodup) :
    (∀ requestId slot, s.pendingReq.lookup requestId = some slot ↔
        Waits requestId slot (trace.flatMap changes)) ∧
      s.latestKnownPeers.latestPeers = (trace.filterMap told?).rtake maxKnownPeers := by
  constructor
  · intro requestId slot
    rw [← ids_changes] at once
    rw [run_table run, lookup_table_iff once]
  · clear once
    induction run with
    | nil => rfl
    | @snoc trace s s' input out run hstep ih =>
      rw [(handle_step hstep).latest_eq, List.filterMap_append]
      cases told : told? ⟨s, input, out, s'⟩ with
      | none => simpa [told] using ih
      | some peer =>
        rw [List.filterMap_cons_some told, List.filterMap_nil, ← known_rtake _
          s.latestKnownPeers.bootstrapPeer, ← ih]

omit [PeerCodec] in
theorem not_heightFromPeer_mem {payload : Payload} {height : UInt64} :
    .msg .blockService (.heightFromPeer height) ∉ s.handleGossipMsg env payload := by
  intro sent
  unfold handleGossipMsg at sent
  split at sent
  · cases List.mem_singleton.mp sent
  · cases List.mem_singleton.mp sent
  · split at sent
    · cases List.mem_singleton.mp sent
    · cases sent
  · split at sent
    · cases sent
    · split at sent
      · cases List.mem_singleton.mp sent
      · cases sent

/-- What an input asks of a peer. -/
inductive Asks (peerId : String) : P2PInput Chan → NodeReq → Prop
  | height (listenAddrs : List String) : Asks peerId (.identified peerId listenAddrs) .getHeight
  | request (req : NodeReq) (resChan : Chan) : Asks peerId (.req req resChan) req

/-- Why an output is sent. -/
inductive Cause (s : P2PService Chan) (env : P2PEnv) (input : P2PInput Chan) :
    P2POutput Chan → Prop
  | heard {payload : Payload} {message : NodeOutput}
      (told : message ∈ s.handleGossipMsg env payload) : Cause s env input (.core message)
  | told (peerId address : String) : Cause s env input (.addAddress peerId address)
  | asked {peerId : String} {req : NodeReq} (asks : Asks peerId input req) :
      Cause s env input (.sendRequest peerId env.requestId (rmpSerialize req))
  | served {request : Bytes} {req : NodeReq} {res : NodeRes}
      (given : input = .peerRequest request)
      (read : (rmpDeserialize request : Option NodeReq) = some req)
      (said : env.dbService req = some res) :
      Cause s env input (.sendResponse (rmpSerialize res))
  | published (topic : TrinciTopics) (data : Bytes) : Cause s env input (.publish topic data)
  | settled {response : Bytes} {requestId : OutboundRequestId} {resChan : Chan} {res : NodeRes}
      (given : input = .peerResponse response requestId)
      (read : (rmpDeserialize response : Option NodeRes) = some res)
      (waits : s.pendingReq.lookup requestId = some (some resChan)) :
      Cause s env input (.reply resChan res)
  | height {response : Bytes} {requestId : OutboundRequestId} {height : UInt64}
      (given : input = .peerResponse response requestId)
      (read : (rmpDeserialize response : Option NodeRes) = some (.getHeight height))
      (waits : s.pendingReq.lookup requestId = some none) :
      Cause s env input (.core (.msg .blockService (.heightFromPeer height)))
  | atOnce {req : NodeReq} {resChan : Chan} {res : NodeRes} (given : input = .req req resChan)
      (known : AtOnce env req res) : Cause s env input (.reply resChan res)

theorem P2PStep.cause (h : P2PStep s env input s' out) : ∀ o ∈ out, Cause s env input o := by
  intro o ho
  cases h with
  | gossips data messages heard =>
    obtain ⟨message, hmessage, rfl⟩ := List.mem_map.mp ho
    obtain rfl | ⟨payload, -, rfl⟩ := heard
    · cases hmessage
    · exact .heard hmessage
  | identifies peerId listenAddrs =>
    obtain ho | ho := List.mem_append.mp ho
    · obtain ⟨address, -, rfl⟩ := List.mem_map.mp ho
      exact .told peerId address
    · obtain rfl := List.mem_singleton.mp ho
      exact .asked (.height listenAddrs)
  | serves request =>
    obtain ⟨req, res, read, said, rfl⟩ := mem_handlePeerRequests ho
    exact .served rfl read said
  | mistakes response requestId unreadable => cases ho
  | settles response requestId res read =>
    obtain ⟨resChan, waits, rfl⟩ | ⟨height, waits, rfl, rfl⟩ := mem_settling ho
    · exact .settled rfl read waits
    · exact .height rfl read waits
  | fails requestId => cases ho
  | publishes msg =>
    obtain ⟨topic, data, rfl⟩ := mem_handleMessages ho
    exact .published topic data
  | asks req resChan peerId =>
    obtain rfl := List.mem_singleton.mp ho
    exact .asked (.request req resChan)
  | answers req resChan res told =>
    obtain rfl := List.mem_singleton.mp ho
    exact .atOnce rfl told
  | ignores req resChan => cases ho

/-! ## Answers -/

/-- What is known of the channels that were opened and of those that were replied to, while
none is opened twice. -/
structure Replying (channels done : List Chan) (s : P2PService Chan) : Prop where
  known : done ⊆ channels
  waiting : ∀ requestId resChan, s.pendingReq.lookup requestId = some (some resChan) →
    resChan ∈ channels ∧ resChan ∉ done
  apart : ∀ requestId requestId' resChan, s.pendingReq.lookup requestId = some (some resChan) →
    s.pendingReq.lookup requestId' = some (some resChan) → requestId = requestId'
  once : done.Nodup

section Replies

variable {channels done : List Chan} {resChan : Chan} {requestId : OutboundRequestId}

omit [PeerCodec] [Primitives] [NodeCodec] in
/-- Nobody else waits. -/
theorem Replying.fewer (h : Replying channels done s)
    (fewer : ∀ requestId resChan, s'.pendingReq.lookup requestId = some (some resChan) →
      s.pendingReq.lookup requestId = some (some resChan)) : Replying channels done s' where
  known := h.known
  waiting requestId resChan hwaits := h.waiting requestId resChan (fewer _ _ hwaits)
  apart _ _ resChan hwaits hwaits' := h.apart _ _ resChan (fewer _ _ hwaits) (fewer _ _ hwaits')
  once := h.once

omit [PeerCodec] [Primitives] [NodeCodec] in
theorem Replying.erase (h : Replying channels done s) (requestId : OutboundRequestId) :
    Replying channels done { s with pendingReq := s.pendingReq.erase requestId } :=
  h.fewer fun _ _ hwaits => (lookup_erase_eq_some hwaits).2

omit [PeerCodec] [Primitives] [NodeCodec] in
/-- The one who waited under an id is replied to. -/
theorem Replying.settle (h : Replying channels done s)
    (found : s.pendingReq.lookup requestId = some (some resChan)) :
    Replying channels (done ++ [resChan])
      { s with pendingReq := s.pendingReq.erase requestId } := by
  obtain ⟨hopened, hsilent⟩ := h.waiting _ _ found
  constructor
  · exact List.append_subset.mpr ⟨h.known, by simpa using hopened⟩
  · intro requestId' resChan' hwaits
    obtain ⟨other, hwaits⟩ := lookup_erase_eq_some hwaits
    obtain ⟨hopened', hsilent'⟩ := h.waiting _ _ hwaits
    rw [List.mem_append, List.mem_singleton, not_or]
    refine ⟨hopened', hsilent', ?_⟩
    rintro rfl
    exact other (h.apart _ _ _ hwaits found)
  · exact (h.erase requestId).apart
  · rw [← List.concat_eq_append]
    exact List.Nodup.concat hsilent h.once

omit [PeerCodec] [Primitives] [NodeCodec] in
/-- A channel is opened that was not there. -/
theorem Replying.open (h : Replying channels done s) (resChan : Chan) :
    Replying (channels ++ [resChan]) done s where
  known := fun _ hdone => List.mem_append_left _ (h.known hdone)
  waiting requestId resChan hwaits :=
    (h.waiting requestId resChan hwaits).imp_left (List.mem_append_left _)
  apart := h.apart
  once := h.once

omit [PeerCodec] [Primitives] [NodeCodec] in
/-- Its request goes to a peer. -/
theorem Replying.ask (h : Replying channels done s) (fresh : resChan ∉ channels)
    (requestId : OutboundRequestId) :
    Replying (channels ++ [resChan]) done
      { s with pendingReq := s.pendingReq.insert requestId (some resChan) } := by
  have cases_of : ∀ requestId' resChan',
      (s.pendingReq.insert requestId (some resChan)).lookup requestId' = some (some resChan') →
        (requestId' = requestId ∧ resChan' = resChan) ∨
          s.pendingReq.lookup requestId' = some (some resChan') := by
    intro requestId' resChan' hwaits
    by_cases same : requestId' = requestId
    · subst same
      rw [AList.lookup_insert, Option.some.injEq, Option.some.injEq] at hwaits
      exact .inl ⟨rfl, hwaits.symm⟩
    · rw [AList.lookup_insert_ne same] at hwaits
      exact .inr hwaits
  have old := h.open resChan
  constructor
  · exact old.known
  · intro requestId' resChan' hwaits
    obtain ⟨-, rfl⟩ | hwaits := cases_of _ _ hwaits
    · exact ⟨by simp, fun hdone => fresh (h.known hdone)⟩
    · exact old.waiting _ _ hwaits
  · intro requestId₁ requestId₂ resChan' hwaits₁ hwaits₂
    obtain ⟨rfl, rfl⟩ | old₁ := cases_of _ _ hwaits₁
    · obtain ⟨rfl, -⟩ | old₂ := cases_of _ _ hwaits₂
      · rfl
      · exact absurd (h.waiting _ _ old₂).1 fresh
    · obtain ⟨-, rfl⟩ | old₂ := cases_of _ _ hwaits₂
      · exact absurd (h.waiting _ _ old₁).1 fresh
      · exact h.apart _ _ _ old₁ old₂
  · exact h.once

omit [PeerCodec] [Primitives] [NodeCodec] in
/-- Its request is answered at once. -/
theorem Replying.answer (h : Replying channels done s) (fresh : resChan ∉ channels) :
    Replying (channels ++ [resChan]) (done ++ [resChan]) s := by
  have old := h.open resChan
  constructor
  · exact List.append_subset.mpr ⟨old.known, by simp⟩
  · intro requestId resChan' hwaits
    obtain ⟨hopened, hsilent⟩ := h.waiting _ _ hwaits
    refine ⟨List.mem_append_left _ hopened, ?_⟩
    rw [List.mem_append, List.mem_singleton, not_or]
    refine ⟨hsilent, ?_⟩
    rintro rfl
    exact fresh hopened
  · exact h.apart
  · rw [← List.concat_eq_append]
    exact List.Nodup.concat (fun hdone => fresh (h.known hdone)) h.once

theorem Replying.step (h : Replying channels done s) (hstep : P2PStep s env input s' out)
    (once : (channels ++ (opened input).toList).Nodup) :
    Replying (channels ++ (opened input).toList) (done ++ out.filterMap replied) s' := by
  have silent : (∀ o ∈ out, replied o = none) → done ++ out.filterMap replied = done :=
    fun quiet => by rw [List.filterMap_eq_nil_iff.mpr quiet, List.append_nil]
  have apart : ∀ resChan, opened input = some resChan → resChan ∉ channels := by
    intro resChan hopened hmem
    rw [hopened] at once
    exact (List.nodup_append'.mp once).2.2 hmem List.mem_cons_self
  cases hstep with
  | gossips data sent heard =>
    rw [silent fun o ho => ?_]
    · simpa [P2PService.opened] using h
    · obtain ⟨message, -, rfl⟩ := List.mem_map.mp ho
      rfl
  | identifies peerId listenAddrs =>
    rw [silent fun o ho => ?_]
    · simp only [P2PService.opened, Option.toList_none, List.append_nil]
      refine h.fewer fun requestId resChan hwaits => ?_
      by_cases same : requestId = env.requestId
      · subst same
        rw [AList.lookup_insert] at hwaits
        cases hwaits
      · rwa [AList.lookup_insert_ne same] at hwaits
    · rw [List.mem_append, List.mem_map, List.mem_singleton] at ho
      obtain ⟨address, -, rfl⟩ | rfl := ho <;> rfl
  | serves request =>
    rw [silent fun o ho => ?_]
    · simpa [P2PService.opened] using h
    · obtain ⟨req, res, -, -, rfl⟩ := mem_handlePeerRequests ho
      rfl
  | mistakes response requestId unreadable => simpa [P2PService.opened] using h
  | settles response requestId res read =>
    simp only [P2PService.opened, Option.toList_none, List.append_nil]
    cases found : s.pendingReq.lookup requestId with
    | none => simpa [settling] using h.erase requestId
    | some slot =>
      cases slot with
      | some resChan => exact h.settle found
      | none =>
        rw [found] at silent
        rw [silent fun o ho => ?_]
        · exact h.erase requestId
        · obtain ⟨resChan, same, -⟩ | ⟨height, -, -, rfl⟩ := mem_settling ho
          · cases same
          · rfl
  | fails requestId => simpa [P2PService.opened] using h.erase requestId
  | publishes msg =>
    rw [silent fun o ho => ?_]
    · simpa [P2PService.opened] using h
    · obtain ⟨topic, data, rfl⟩ := mem_handleMessages ho
      rfl
  | asks req resChan peerId =>
    rw [silent fun o ho => ?_]
    · exact h.ask (apart resChan rfl) env.requestId
    · cases List.mem_singleton.mp ho
      rfl
  | answers req resChan res told => exact h.answer (apart resChan rfl)
  | ignores req resChan => simpa [P2PService.opened] using h.open resChan

end Replies

/-- The channels that were opened, in order. -/
def channels (trace : List (P2PEvent Chan)) : List Chan :=
  trace.filterMap fun e => opened e.input.2

theorem run_replying
    (run : Run (Computes step) (start bootstrapAddresses bootstrapPeerId networkName) trace s)
    (once : (channels trace).Nodup) :
    Replying (channels trace) ((outputs trace).filterMap replied) s := by
  induction run with
  | nil =>
    have nobody : ∀ requestId, (∅ : AList fun _ : OutboundRequestId => Option Chan).lookup
        requestId = none := AList.lookup_empty
    refine ⟨List.nil_subset _, fun requestId resChan h => ?_, fun requestId _ resChan h => ?_,
      List.nodup_nil⟩
    · cases (nobody requestId).symm.trans h
    · cases (nobody requestId).symm.trans h
  | @snoc trace s s' input out run hstep ih =>
    have more : channels (trace ++ [⟨s, input, out, s'⟩]) =
        channels trace ++ (opened input.2).toList := by
      rw [channels, List.filterMap_append]
      cases hopened : opened input.2 <;> simp [channels, hopened]
    rw [more] at once
    rw [more, outputs_snoc, List.filterMap_append]
    exact (ih (List.nodup_append'.mp once).1).step (handle_step hstep) once

/-- A request that waits was sent to a peer for the one who waits. -/
theorem run_sent
    (run : Run (Computes step) (start bootstrapAddresses bootstrapPeerId networkName) trace s)
    {requestId : OutboundRequestId} {slot : Option Chan}
    (waits : s.pendingReq.lookup requestId = some slot) :
    ∃ e ∈ trace, opened e.input.2 = slot ∧ ∃ peerId req, Asks peerId e.input.2 req ∧
      .sendRequest peerId requestId (rmpSerialize req) ∈ e.out := by
  rw [run_table run] at waits
  obtain ⟨e, he, hissued⟩ := List.mem_flatMap.mp (issued_of_lookup waits)
  rw [changes, List.mem_append, List.mem_filterMap] at hissued
  obtain ⟨o, ho, hissued⟩ | hsettled := hissued
  · obtain ⟨earlier, later, htrace⟩ := List.append_of_mem he
    have cause := (handle_step (run.split htrace).2).cause o ho
    cases cause with
    | asked asks =>
      obtain ⟨rfl, rfl⟩ := Change.issued.inj (Option.some.inj hissued)
      exact ⟨e, he, rfl, _, _, asks, ho⟩
    | _ => cases hissued
  · have none_issued : requestId ∈ ids (settled? e.input.2) := mem_ids_iff.mpr ⟨slot, hsettled⟩
    rw [ids_settled?] at none_issued
    cases none_issued

end Runs

end P2PService

/-! ## Answers that come, that cannot be read and that never come -/

namespace Sample.Duo

open P2PService

/-- Heights and last blocks are asked for and told, with one byte for a height. -/
scoped instance peerCodec : PeerCodec where
  payload := fun _ => []
  payload? := fun _ => none
  req := fun
    | .getHeight => [0]
    | .getLastBlockInfo neighbor => [1, if neighbor = "bob" then 2 else 3]
    | _ => []
  req? := fun
    | [0] => some .getHeight
    | [1, byte] => some (.getLastBlockInfo (if byte = 2 then "bob" else "carol"))
    | _ => none
  res := fun
    | .getHeight height => [0, height.toUInt8]
    | .getLastBlockInfo info => [1, info.height.toUInt8]
    | _ => []
  res? := fun
    | [0, byte] => some (.getHeight byte.toUInt64)
    | [1, byte] => some (.getLastBlockInfo ⟨byte.toUInt64, Hash.default⟩)
    | _ => none

/-- The swarm gives this id, and knows nobody. -/
def idle (requestId : OutboundRequestId) : P2PEnv where
  requestId := requestId
  closestLocalPeers := []
  externalAddresses := []
  peerIdFromStr := some
  random := fun _ => 0
  dbService := fun _ => none

/-- Six peers tell their addresses. Two of them are asked for their last block, and bob's
answer can be read and carol's cannot. -/
def sixPeers : List (P2PEnv × P2PInput Nat) :=
  [(idle 1, .identified "bob" ["/ip4/10.0.0.2"]), (idle 2, .identified "carol" []),
    (idle 3, .identified "dave" []), (idle 4, .identified "erin" []),
    (idle 5, .identified "frank" []), (idle 6, .identified "grace" []),
    (idle 7, .req (.getLastBlockInfo "bob") 70), (idle 8, .req (.getLastBlockInfo "carol") 80),
    (idle 9, .outboundFailure 2), (idle 9, .peerResponse [0, 5] 1),
    (idle 9, .peerResponse [1, 5] 7), (idle 9, .peerResponse [9] 8)]

/-- Who asked carol waits, and so does the question for the height of dave, whereas nobody
waits for bob. The first peer is forgotten. -/
theorem unread_question_waits : ∃ s : P2PService Nat,
    Run (Computes step) (P2PService.start none none "net")
      (traceOf step (P2PService.start none none "net") sixPeers) s ∧
    (outputs (traceOf step (P2PService.start none none "net") sixPeers)).filterMap replied =
      [70] ∧
    Waits 8 (some 80) ((traceOf step (P2PService.start none none "net") sixPeers).flatMap
      changes) ∧
    Waits 3 none ((traceOf step (P2PService.start none none "net") sixPeers).flatMap changes) ∧
    (∀ slot, ¬ Waits 7 slot
      ((traceOf step (P2PService.start none none "net") sixPeers).flatMap changes)) ∧
    (∀ slot, ¬ Waits 2 slot
      ((traceOf step (P2PService.start none none "net") sixPeers).flatMap changes)) ∧
    s.latestKnownPeers.latestPeers.map Peer.peerId =
      ["carol", "dave", "erin", "frank", "grace"] := by
  have run := traceOf_run (f := step) (s := (P2PService.start none none "net" : P2PService Nat))
    (l := sixPeers) (by decide +kernel)
  obtain ⟨waiting, latest⟩ := run_pending run (by decide +kernel)
  have settled : ∀ requestId : OutboundRequestId,
      (finalOf step (P2PService.start none none "net") sixPeers).pendingReq.lookup requestId =
        none → ∀ slot, ¬ Waits requestId slot
          ((traceOf step (P2PService.start none none "net") sixPeers).flatMap changes) := by
    intro requestId gone slot waits
    cases gone.symm.trans ((waiting requestId slot).mpr waits)
  refine ⟨_, run, by decide +kernel, (waiting 8 _).mp (by decide +kernel),
    (waiting 3 _).mp (by decide +kernel), settled 7 (by decide +kernel),
    settled 2 (by decide +kernel), ?_⟩
  rw [latest]
  decide +kernel

end Sample.Duo

end Trinci
