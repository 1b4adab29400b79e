import Mathlib.Logic.Function.Basic
import Trinci.PendingRequests

/-!
# A network of peers

Requests and answers between any number of nodes, in any order of their arrival, while
their databases change and any request may fail. A peer that does not follow the protocol
answers what it likes to the requests it gets, and gossips and tells what it likes. Whoever
asks gets one answer at most, to its own request and from the peer it was sent to; if that
peer is honest, the answer is what its database service said to the request.
-/

namespace Trinci

open StepMachines WaitingTables P2PService

variable {Chan : Type}

structure Station (Chan : Type) where
  p2p : P2PService Chan
  db : Option Db

/-- A request, or an answer to it. -/
structure Wire where
  asker : String
  asked : String
  requestId : OutboundRequestId
  data : Bytes

structure PeerNetwork (Chan : Type) where
  stations : String → Station Chan
  requests : List Wire
  responses : List Wire

inductive NetInput (Chan : Type)
  /-- What a node gets other than requests and answers of its peers. -/
  | handles (node : String) (env : P2PEnv) (input : P2PInput Chan)
  | serves (index : Nat) (env : P2PEnv)
  | responds (index : Nat) (env : P2PEnv)
  | forges (index : Nat) (response : Bytes)
  | writes (node : String) (db : Option Db)

/-- The answers of the database service are what it says about this database. -/
def P2PEnv.From [Primitives] [NodeCodec] [Serialize BlockData] [DbCodec] (env : P2PEnv)
    (db : Option Db) : Prop :=
  ∀ req res, env.dbService req = some res → ∃ sources : DbService.Sources, sources.db = db ∧
    DbService.handleRequests sources req = .ok (some res)

namespace PeerNetwork

/-- A network in which nobody has asked anything. -/
def quiet (bootstrapAddresses : String → Option (List String))
    (bootstrapPeerId : String → Option String) (networkName : String → String)
    (dbs : String → Option Db) : PeerNetwork Chan where
  stations := fun peerId => ⟨P2PService.start (bootstrapAddresses peerId)
    (bootstrapPeerId peerId) (networkName peerId), dbs peerId⟩
  requests := []
  responses := []

/-- The inputs that do not come over a wire. -/
def isOwn : P2PInput Chan → Bool
  | .peerRequest _ => false
  | .peerResponse _ _ => false
  | _ => true

def requestWire (asker : String) : P2POutput Chan → Option Wire
  | .sendRequest peerId requestId request => some ⟨asker, peerId, requestId, request⟩
  | _ => none

def responseWire (wire : Wire) : P2POutput Chan → Option Wire
  | .sendResponse response => some { wire with data := response }
  | _ => none

/-- Whether the failure of its request was told to the asker. -/
def isLost (node : String) (input : P2PInput Chan) (wire : Wire) : Bool :=
  match input with
  | .outboundFailure requestId => wire.asker == node && wire.requestId == requestId
  | _ => false

def setP2P (net : PeerNetwork Chan) (node : String) (p2p : P2PService Chan) :
    String → Station Chan :=
  Function.update net.stations node { net.stations node with p2p := p2p }

section Steps

variable [PeerCodec] [Primitives] [NodeCodec] [Serialize BlockData] [DbCodec]

inductive NetStep (honest : String → Prop) (net : PeerNetwork Chan) :
    NetInput Chan → List (P2POutput Chan) → PeerNetwork Chan → Prop
  | handles {node : String} {env : P2PEnv} {input : P2PInput Chan} {p2p : P2PService Chan}
      {out : List (P2POutput Chan)} (own : isOwn input = true)
      (answers : env.From (net.stations node).db)
      (handled : (net.stations node).p2p.handle env input = .ok (p2p, out)) :
      NetStep honest net (.handles node env input) out {
        stations := net.setP2P node p2p
        requests := (net.requests ++ out.filterMap (requestWire node)).filter fun wire =>
          !isLost node input wire
        responses := net.responses.filter fun wire => !isLost node input wire }
  | serves {index : Nat} {wire : Wire} {env : P2PEnv} {p2p : P2PService Chan}
      {out : List (P2POutput Chan)} (found : net.requests[index]? = some wire)
      (answers : env.From (net.stations wire.asked).db)
      (handled : (net.stations wire.asked).p2p.handle env (.peerRequest wire.data) =
        .ok (p2p, out)) :
      NetStep honest net (.serves index env) out {
        stations := net.setP2P wire.asked p2p
        requests := net.requests.eraseIdx index
        responses := net.responses ++ out.filterMap (responseWire wire) }
  | responds {index : Nat} {wire : Wire} {env : P2PEnv} {p2p : P2PService Chan}
      {out : List (P2POutput Chan)} (found : net.responses[index]? = some wire)
      (handled : (net.stations wire.asker).p2p.handle env
        (.peerResponse wire.data wire.requestId) = .ok (p2p, out)) :
      NetStep honest net (.responds index env) out {
        stations := net.setP2P wire.asker p2p
        requests := net.requests
        responses := net.responses.eraseIdx index }
  | forges {index : Nat} {wire : Wire} {response : Bytes}
      (found : net.requests[index]? = some wire) (liar : ¬ honest wire.asked) :
      NetStep honest net (.forges index response) [] { net with
        requests := net.requests.eraseIdx index
        responses := net.responses ++ [{ wire with data := response }] }
  | writes {node : String} {db : Option Db} :
      NetStep honest net (.writes node db) [] { net with
        stations := Function.update net.stations node { net.stations node with db := db } }

abbrev NetEvent (Chan : Type) := Event (PeerNetwork Chan) (NetInput Chan) (P2POutput Chan)

/-- What a node gets of an input of the network, if it takes part. -/
def message? (node : String) (net : PeerNetwork Chan) :
    NetInput Chan → Option (P2PEnv × P2PInput Chan)
  | .handles node' env input => if node' = node then some (env, input) else none
  | .serves index env =>
    match net.requests[index]? with
    | some wire => if wire.asked = node then some (env, .peerRequest wire.data) else none
    | none => none
  | .responds index env =>
    match net.responses[index]? with
    | some wire =>
      if wire.asker = node then some (env, .peerResponse wire.data wire.requestId) else none
    | none => none
  | _ => none

/-- What an event is for a node. -/
def at? (node : String) (e : NetEvent Chan) : Option (P2PEvent Chan) :=
  (message? node e.before e.input).map fun message =>
    ⟨(e.before.stations node).p2p, message, e.out, (e.after.stations node).p2p⟩

omit [PeerCodec] [Primitives] [NodeCodec] [Serialize BlockData] [DbCodec] in
theorem at?_eq_some {node : String} {net net' : PeerNetwork Chan} {input : NetInput Chan}
    {out : List (P2POutput Chan)} {message : P2PEnv × P2PInput Chan}
    (h : message? node net input = some message) :
    at? node ⟨net, input, out, net'⟩ =
      some ⟨(net.stations node).p2p, message, out, (net'.stations node).p2p⟩ :=
  congrArg (Option.map _) h

omit [PeerCodec] [Primitives] [NodeCodec] [Serialize BlockData] [DbCodec] in
theorem at?_eq_none {node : String} {net net' : PeerNetwork Chan} {input : NetInput Chan}
    {out : List (P2POutput Chan)} (h : message? node net input = none) :
    at? node ⟨net, input, out, net'⟩ = none :=
  congrArg (Option.map _) h

/-- The events of a node. -/
def eventsAt (node : String) (trace : List (NetEvent Chan)) : List (P2PEvent Chan) :=
  trace.filterMap (at? node)

variable {honest : String → Prop} {net net' : PeerNetwork Chan} {input : NetInput Chan}
  {out : List (P2POutput Chan)} {bootstrapAddresses : String → Option (List String)}
  {bootstrapPeerId : String → Option String} {networkName : String → String}
  {dbs : String → Option Db}
  {trace : List (NetEvent Chan)}

/-- A step of the network is a step of the node that takes part, and nothing to the others. -/
theorem NetStep.at_cases (h : NetStep honest net input out net') (node : String) :
    (∃ message, message? node net input = some message ∧
      P2PService.step (net.stations node).p2p message = .ok ((net'.stations node).p2p, out)) ∨
    message? node net input = none ∧ (net'.stations node).p2p = (net.stations node).p2p := by
  have takes : ∀ p2p : P2PService Chan, (net.setP2P node p2p node).p2p = p2p := fun p2p => by
    rw [setP2P, Function.update_self]
  have idles : ∀ {node' : String} {p2p : P2PService Chan}, node' ≠ node →
      (net.setP2P node' p2p node).p2p = (net.stations node).p2p := fun other => by
    rw [setP2P, Function.update_of_ne (Ne.symm other)]
  cases h with
  | @handles node' env input p2p out own answers handled =>
    by_cases same : node' = node
    · subst same
      exact .inl ⟨(env, input), if_pos rfl, by rw [takes]; exact handled⟩
    · exact .inr ⟨if_neg same, idles same⟩
  | @serves index wire env p2p out found answers handled =>
    by_cases same : wire.asked = node
    · subst same
      exact .inl ⟨(env, .peerRequest wire.data), by simp [message?, found],
        by rw [takes]; exact handled⟩
    · exact .inr ⟨by simp [message?, found, same], idles same⟩
  | @responds index wire env p2p out found handled =>
    by_cases same : wire.asker = node
    · subst same
      exact .inl ⟨(env, .peerResponse wire.data wire.requestId), by simp [message?, found],
        by rw [takes]; exact handled⟩
    · exact .inr ⟨by simp [message?, found, same], idles same⟩
  | forges found liar => exact .inr ⟨rfl, rfl⟩
  | @writes node' db =>
    refine .inr ⟨rfl, ?_⟩
    by_cases same : node = node'
    · subst same
      simp
    · simp [Function.update_of_ne same]

/-- What a node gets as an answer came over a wire. -/
theorem NetStep.wired (h : NetStep honest net input out net') {node : String} {env : P2PEnv}
    {response : Bytes} {requestId : OutboundRequestId}
    (given : message? node net input = some (env, .peerResponse response requestId)) :
    ∃ wire ∈ net.responses, wire.asker = node ∧ wire.data = response ∧
      wire.requestId = requestId := by
  cases h with
  | handles own answers handled =>
    obtain ⟨-, same⟩ := Option.ite_none_right_eq_some.mp given
    cases same
    cases own
  | serves found answers handled =>
    simp only [message?, found] at given
    obtain ⟨-, same⟩ := Option.ite_none_right_eq_some.mp given
    cases same
  | responds found handled =>
    simp only [message?, found] at given
    obtain ⟨asker, same⟩ := Option.ite_none_right_eq_some.mp given
    cases same
    exact ⟨_, List.mem_of_getElem? found, asker, rfl, rfl⟩
  | forges found liar => cases given
  | writes => cases given

/-- Each node of a network makes a run of its own. -/
theorem run_at
    (run : Run (NetStep honest) (quiet bootstrapAddresses bootstrapPeerId networkName dbs) trace
      net) (node : String) :
    Run (Computes P2PService.step) (P2PService.start (bootstrapAddresses node)
      (bootstrapPeerId node) (networkName node)) (eventsAt node trace) (net.stations node).p2p := by
  induction run with
  | nil => exact .nil
  | snoc run hstep ih =>
    rw [eventsAt, List.filterMap_append]
    obtain ⟨message, given, hp2p⟩ | ⟨given, same⟩ := hstep.at_cases node
    · rw [List.filterMap_cons_some (at?_eq_some given), List.filterMap_nil]
      exact ih.snoc hp2p
    · rw [List.filterMap_cons_none (at?_eq_none given), List.filterMap_nil, List.append_nil, same]
      exact ih

/-! ## Answers -/

/-- The request on a wire was sent by its asker. -/
def Sent (trace : List (NetEvent Chan)) (wire : Wire) : Prop :=
  ∃ e ∈ eventsAt wire.asker trace, .sendRequest wire.asked wire.requestId wire.data ∈ e.out

/-- After the request of a wire was sent, the one that was asked took it from the wire and
read it, and sent what its database service said. -/
def Served (trace : List (NetEvent Chan)) (wire : Wire) (response : Bytes) : Prop :=
  ∃ before serving after, trace = before ++ serving :: after ∧ Sent before wire ∧
    ∃ index env sources req res, serving.input = .serves index env ∧
      serving.before.requests[index]? = some wire ∧
      sources.db = (serving.before.stations wire.asked).db ∧
      (rmpDeserialize wire.data : Option NodeReq) = some req ∧
      DbService.handleRequests sources req = .ok (some res) ∧
      response = rmpSerialize res ∧ .sendResponse response ∈ serving.out

/-- What is known of the wires. -/
structure Posted (honest : String → Prop) (trace : List (NetEvent Chan))
    (net : PeerNetwork Chan) : Prop where
  requests : ∀ wire ∈ net.requests, Sent trace wire
  responses : ∀ wire ∈ net.responses, ∃ request, Sent trace { wire with data := request } ∧
    (honest wire.asked → Served trace { wire with data := request } wire.data)

omit [PeerCodec] [Primitives] [NodeCodec] [Serialize BlockData] [DbCodec] in
theorem Sent.later {wire : Wire} (h : Sent trace wire) (e : NetEvent Chan) :
    Sent (trace ++ [e]) wire := by
  obtain ⟨sending, hmem, hsent⟩ := h
  refine ⟨sending, ?_, hsent⟩
  rw [eventsAt, List.filterMap_append]
  exact List.mem_append_left _ hmem

theorem Served.later {wire : Wire} {response : Bytes} (h : Served trace wire response)
    (e : NetEvent Chan) : Served (trace ++ [e]) wire response := by
  obtain ⟨before, serving, after, rfl, rest⟩ := h
  exact ⟨before, serving, after ++ [e], by simp, rest⟩

/-- Fewer wires, after one more event. -/
theorem Posted.fewer (h : Posted honest trace net) {e : NetEvent Chan}
    (requests : net'.requests ⊆ net.requests) (responses : net'.responses ⊆ net.responses) :
    Posted honest (trace ++ [e]) net' where
  requests wire hwire := (h.requests wire (requests hwire)).later e
  responses wire hwire := by
    obtain ⟨request, hsent, hserved⟩ := h.responses wire (responses hwire)
    exact ⟨request, hsent.later e, fun honest => (hserved honest).later e⟩

theorem Posted.step (h : Posted honest trace net) (hstep : NetStep honest net input out net') :
    Posted honest (trace ++ [⟨net, input, out, net'⟩]) net' := by
  cases hstep with
  | @handles node env input p2p out own answers handled =>
    constructor
    · intro wire hwire
      obtain ⟨hwire, -⟩ := List.mem_filter.mp hwire
      obtain old | new := List.mem_append.mp hwire
      · exact (h.requests wire old).later _
      · obtain ⟨o, ho, hrequest⟩ := List.mem_filterMap.mp new
        cases o with
        | sendRequest peerId requestId request =>
          obtain rfl := Option.some.inj hrequest
          exact ⟨⟨_, (env, input), out, _⟩, List.mem_filterMap.mpr
            ⟨_, List.mem_append_right _ List.mem_cons_self,
              at?_eq_some (if_pos rfl)⟩, ho⟩
        | _ => cases hrequest
    · intro wire hwire
      obtain ⟨request, hsent, hserved⟩ := h.responses wire (List.mem_filter.mp hwire).1
      exact ⟨request, hsent.later _, fun honest => (hserved honest).later _⟩
  | @serves index wire env p2p out found answers handled =>
    constructor
    · intro wire' hwire
      exact (h.requests wire' (List.mem_of_mem_eraseIdx hwire)).later _
    · intro wire' hwire
      obtain old | new := List.mem_append.mp hwire
      · obtain ⟨request, hsent, hserved⟩ := h.responses wire' old
        exact ⟨request, hsent.later _, fun honest => (hserved honest).later _⟩
      · obtain ⟨o, ho, hresponse⟩ := List.mem_filterMap.mp new
        have cause := (handle_step handled).cause o ho
        cases cause with
        | served given read said =>
          obtain rfl := Option.some.inj hresponse
          cases given
          obtain ⟨sources, hdb, hsaid⟩ := answers _ _ said
          have asked := h.requests wire (List.mem_of_getElem? found)
          refine ⟨wire.data, asked.later _, fun _ => ?_⟩
          exact ⟨trace, _, [], rfl, asked, index, env, sources, _, _, rfl, found, hdb, read, hsaid,
            rfl, ho⟩
        | _ => cases hresponse
  | responds found handled =>
    exact h.fewer (List.Subset.refl _) fun wire hwire => List.mem_of_mem_eraseIdx hwire
  | @forges index wire response found liar =>
    constructor
    · intro wire' hwire
      exact (h.requests wire' (List.mem_of_mem_eraseIdx hwire)).later _
    · intro wire' hwire
      obtain old | new := List.mem_append.mp hwire
      · obtain ⟨request, hsent, hserved⟩ := h.responses wire' old
        exact ⟨request, hsent.later _, fun honest => (hserved honest).later _⟩
      · obtain rfl := List.mem_singleton.mp new
        exact ⟨wire.data, (h.requests wire (List.mem_of_getElem? found)).later _,
          fun honest => absurd honest liar⟩
  | writes => exact h.fewer (List.Subset.refl _) (List.Subset.refl _)

theorem run_posted
    (run : Run (NetStep honest) (quiet bootstrapAddresses bootstrapPeerId networkName dbs) trace
      net) : Posted honest trace net := by
  induction run with
  | nil =>
    exact ⟨fun wire hwire => absurd hwire List.not_mem_nil,
      fun wire hwire => absurd hwire List.not_mem_nil⟩
  | snoc run hstep ih => exact ih.step hstep

/-- The answer is to what this input asked of a peer; an honest one took the request from its
wire after it was sent, and the answer is what its database service said. -/
def Answered (honest : String → Prop) (earlier : List (NetEvent Chan)) (asker : String)
    (input : P2PInput Chan) (res : NodeRes) : Prop :=
  ∃ asking ∈ eventsAt asker earlier, asking.input.2 = input ∧
    ∃ asked req requestId, Asks asked input req ∧
      .sendRequest asked requestId (rmpSerialize req) ∈ asking.out ∧
      (honest asked → ∃ response,
        Served earlier ⟨asker, asked, requestId, rmpSerialize req⟩ response ∧
        (rmpDeserialize response : Option NodeRes) = some res)

/-- An answer that comes over a wire is to the request of the one who waits. -/
theorem answered_of_waits
    (run : Run (NetStep honest) (quiet bootstrapAddresses bootstrapPeerId networkName dbs) trace
      net) {wire : Wire} (found : wire ∈ net.responses)
    (once : ((outputs (eventsAt wire.asker trace)).filterMap requestIdOf).Nodup)
    {slot : Option Chan} {res : NodeRes}
    (waits : (net.stations wire.asker).p2p.pendingReq.lookup wire.requestId = some slot)
    (read : (rmpDeserialize wire.data : Option NodeRes) = some res) :
    ∃ input, opened input = slot ∧ Answered honest trace wire.asker input res := by
  obtain ⟨asking, hasking, hslot, asked, req, asks, hsent⟩ :=
    run_sent (run_at run wire.asker) waits
  obtain ⟨request, ⟨sending, hsending, hsent'⟩, hserved⟩ := (run_posted run).responses wire found
  -- both are the request that was sent under this id
  have same := eq_of_nodup_filterMap once (List.mem_flatMap.mpr ⟨asking, hasking, hsent⟩)
    (List.mem_flatMap.mpr ⟨sending, hsending, hsent'⟩) rfl rfl
  obtain ⟨rfl, -, rfl⟩ := P2POutput.sendRequest.inj same
  exact ⟨asking.input.2, hslot, asking, hasking, rfl, _, req, _, asks, hsent,
    fun honest => ⟨wire.data, hserved honest, read⟩⟩

/-- In every run: a channel is replied to once at most. A reply is known at once or answers
the request that the channel was opened for, and a height that the core is told answers the
question for the height of a peer that told its addresses. -/
theorem run_answered
    (run : Run (NetStep honest) (quiet bootstrapAddresses bootstrapPeerId networkName dbs) trace
      net)
    (ids : ∀ node, ((outputs (eventsAt node trace)).filterMap requestIdOf).Nodup)
    (chans : ∀ node, (channels (eventsAt node trace)).Nodup) :
    (∀ node, ((outputs (eventsAt node trace)).filterMap replied).Nodup) ∧
      Along (fun earlier e => ∀ node taken, at? node e = some taken →
        (∀ resChan res, .reply resChan res ∈ e.out →
          (∃ req, taken.input.2 = .req req resChan ∧ AtOnce taken.input.1 req res) ∨
            ∃ req, Answered honest earlier node (.req req resChan) res) ∧
        ∀ height, .core (.msg .blockService (.heightFromPeer height)) ∈ e.out →
          ∃ peerId listenAddrs, Answered honest earlier node (.identified peerId listenAddrs)
            (.getHeight height)) trace := by
  refine ⟨fun node => (run_replying (run_at run node) (chans node)).once, ?_⟩
  rintro earlier e later htrace node taken htaken
  obtain ⟨before, hstep⟩ := run.split htrace
  have once : ((outputs (eventsAt node earlier)).filterMap requestIdOf).Nodup := by
    have all := ids node
    rw [htrace, eventsAt, List.filterMap_append, outputs, List.flatMap_append,
      List.filterMap_append, List.nodup_append'] at all
    exact all.1
  obtain ⟨taking, htaking, rfl⟩ := Option.map_eq_some_iff.mp htaken
  obtain ⟨message, given, hp2p⟩ | ⟨absent, -⟩ := hstep.at_cases node
  swap
  · rw [absent] at htaking
    cases htaking
  obtain rfl := Option.some.inj (given.symm.trans htaking)
  have answered : ∀ response requestId slot res, message.2 = .peerResponse response requestId →
      (rmpDeserialize response : Option NodeRes) = some res →
      (e.before.stations node).p2p.pendingReq.lookup requestId = some slot →
      ∃ input, opened input = slot ∧ Answered honest earlier node input res := by
    intro response requestId slot res same read waits
    have wired := hstep.wired (given.trans (congrArg (fun input => some (message.1, input)) same))
    obtain ⟨wire, found, rfl, rfl, rfl⟩ := wired
    exact answered_of_waits before found once waits read
  constructor
  · intro resChan res hreply
    have cause := (handle_step hp2p).cause _ hreply
    cases cause with
    | settled given read waits =>
      obtain ⟨input, hopened, hanswered⟩ := answered _ _ _ _ given read waits
      cases input with
      | req req resChan' =>
        obtain rfl := Option.some.inj hopened
        exact .inr ⟨req, hanswered⟩
      | _ => cases hopened
    | atOnce given known => exact .inl ⟨_, given, known⟩
  · intro height hsent
    have cause := (handle_step hp2p).cause _ hsent
    cases cause with
    | heard told => exact absurd told not_heightFromPeer_mem
    | height given read waits =>
      obtain ⟨input, hopened, hanswered⟩ := answered _ _ _ _ given read waits
      have asked := hanswered
      obtain ⟨asking, -, rfl, peerId, req, requestId, asks, -⟩ := asked
      cases hasks : asking.input.2 with
      | identified peerId' listenAddrs =>
        rw [hasks] at hanswered
        exact ⟨peerId', listenAddrs, hanswered⟩
      | req req' resChan' =>
        rw [hasks] at hopened
        cases hopened
      | _ =>
        rw [hasks] at asks
        cases asks

end Steps

end PeerNetwork

/-! ## Alice asks bob, who is honest, and carol, who is not -/

namespace Sample.Duo

open PeerNetwork

/-- Carol alone may lie. -/
def Honest (peerId : String) : Prop := peerId ≠ "carol"

/-- Nodes with empty databases. -/
def emptyStations : PeerNetwork Nat :=
  quiet (fun _ => none) (fun _ => none) (fun _ => "net") fun _ => some Db.empty

/-- The next id, and what the database service says about a database. -/
def serving (requestId : OutboundRequestId) (db : Option Db) : P2PEnv :=
  { idle requestId with dbService := fun req =>
      match DbService.handleRequests ⟨"bob", db, fun _ => .failed⟩ req with
      | .ok res => res
      | .error _ => none }

theorem serving_from (requestId : OutboundRequestId) (db : Option Db) :
    (serving requestId db).From db := by
  intro req res said
  refine ⟨⟨"bob", db, fun _ => .failed⟩, rfl, ?_⟩
  simp only [serving] at said
  split at said
  · next answer handled => rw [handled, said]
  · cases said

inductive Move
  | handles (node : String) (requestId : OutboundRequestId) (input : P2PInput Nat)
  | serves (index : Nat)
  | responds (index : Nat)
  | forges (index : Nat) (response : Bytes)

/-- The event that a move makes of the network. -/
def perform (net : PeerNetwork Nat) : Move → Option (NetEvent Nat)
  | .handles node requestId input =>
    let env := serving requestId (net.stations node).db
    match (net.stations node).p2p.handle env input with
    | .ok (p2p, out) =>
      if isOwn input then
        some ⟨net, .handles node env input, out,
          { stations := net.setP2P node p2p
            requests := (net.requests ++ out.filterMap (requestWire node)).filter fun wire =>
              !isLost node input wire
            responses := net.responses.filter fun wire => !isLost node input wire }⟩
      else none
    | .error _ => none
  | .serves index =>
    match net.requests[index]? with
    | some wire =>
      let env := serving 0 (net.stations wire.asked).db
      match (net.stations wire.asked).p2p.handle env (.peerRequest wire.data) with
      | .ok (p2p, out) =>
        some ⟨net, .serves index env, out,
          { stations := net.setP2P wire.asked p2p
            requests := net.requests.eraseIdx index
            responses := net.responses ++ out.filterMap (responseWire wire) }⟩
      | .error _ => none
    | none => none
  | .responds index =>
    match net.responses[index]? with
    | some wire =>
      match (net.stations wire.asker).p2p.handle (idle 0)
          (.peerResponse wire.data wire.requestId) with
      | .ok (p2p, out) =>
        some ⟨net, .responds index (idle 0), out,
          { stations := net.setP2P wire.asker p2p
            requests := net.requests
            responses := net.responses.eraseIdx index }⟩
      | .error _ => none
    | none => none
  | .forges index response =>
    match net.requests[index]? with
    | some wire =>
      if wire.asked = "carol" then
        some ⟨net, .forges index response, [],
          { net with
            requests := net.requests.eraseIdx index
            responses := net.responses ++ [{ wire with data := response }] }⟩
      else none
    | none => none

theorem perform_step {net : PeerNetwork Nat} {move : Move} {e : NetEvent Nat}
    (h : perform net move = some e) : NetStep Honest net e.input e.out e.after := by
  cases move with
  | handles node requestId input =>
    simp only [perform] at h
    split at h
    · next p2p out handled =>
      obtain ⟨own, h⟩ := Option.ite_none_right_eq_some.mp h
      cases h
      exact .handles own (serving_from requestId _) handled
    · cases h
  | serves index =>
    simp only [perform] at h
    split at h
    · next wire found =>
      split at h
      · next p2p out handled =>
        cases h
        exact .serves found (serving_from 0 _) handled
      · cases h
    · cases h
  | responds index =>
    simp only [perform] at h
    split at h
    · next wire found =>
      split at h
      · next p2p out handled =>
        cases h
        exact .responds found handled
      · cases h
    · cases h
  | forges index response =>
    simp only [perform] at h
    split at h
    · next wire found =>
      obtain ⟨carol, h⟩ := Option.ite_none_right_eq_some.mp h
      cases h
      exact .forges found fun honest => honest carol
    · cases h

/-- The events of the moves, one after the other. -/
def play (net : PeerNetwork Nat) : List Move → Option (List (NetEvent Nat))
  | [] => some []
  | move :: moves =>
    match perform net move with
    | some e => (play e.after moves).map fun later => ⟨net, e.input, e.out, e.after⟩ :: later
    | none => none

theorem play_run {net : PeerNetwork Nat} {moves : List Move} {trace : List (NetEvent Nat)}
    (h : play net moves = some trace) : ∃ last, Run (NetStep Honest) net trace last := by
  induction moves generalizing net trace with
  | nil =>
    obtain rfl := Option.some.inj h
    exact ⟨net, .nil⟩
  | cons move moves ih =>
    rw [play] at h
    split at h
    · next e hmove =>
      obtain ⟨later, hlater, rfl⟩ := Option.map_eq_some_iff.mp h
      obtain ⟨last, run⟩ := ih hlater
      exact ⟨last, run.cons (perform_step hmove)⟩
    · cases h

/-- What a node sends is part of what is sent. -/
theorem outputs_eventsAt_sublist (node : String) (trace : List (NetEvent Nat)) :
    (outputs (eventsAt node trace)).Sublist (outputs trace) := by
  induction trace with
  | nil => exact .slnil
  | cons e trace ih =>
    cases hat : at? node e with
    | none =>
      rw [eventsAt, List.filterMap_cons_none hat]
      exact ih.trans (List.sublist_append_right e.out _)
    | some taken =>
      obtain ⟨message, -, rfl⟩ := Option.map_eq_some_iff.mp hat
      rw [eventsAt, List.filterMap_cons_some hat]
      exact (List.Sublist.refl e.out).append ih

/-- Who waits for an answer after an input of the network. -/
def openedBy : NetInput Nat → Option Nat
  | .handles _ _ input => opened input
  | _ => none

theorem opened_of_at? {node : String} {e : NetEvent Nat} {taken : P2PEvent Nat}
    (hat : at? node e = some taken) : opened taken.input.2 = openedBy e.input := by
  obtain ⟨message, given, rfl⟩ := Option.map_eq_some_iff.mp hat
  obtain ⟨before, input, out, after⟩ := e
  cases input with
  | handles node' env input =>
    obtain ⟨-, same⟩ := Option.ite_none_right_eq_some.mp given
    cases same
    rfl
  | serves index env =>
    simp only [message?] at given
    split at given
    · obtain ⟨-, same⟩ := Option.ite_none_right_eq_some.mp given
      cases same
      rfl
    · cases given
  | responds index env =>
    simp only [message?] at given
    split at given
    · obtain ⟨-, same⟩ := Option.ite_none_right_eq_some.mp given
      cases same
      rfl
    · cases given
  | forges index response => cases given
  | writes node' db => cases given

theorem channels_eventsAt_sublist (node : String) (trace : List (NetEvent Nat)) :
    (channels (eventsAt node trace)).Sublist (trace.filterMap fun e => openedBy e.input) := by
  induction trace with
  | nil => exact .slnil
  | cons e trace ih =>
    cases hat : at? node e with
    | none =>
      rw [eventsAt, List.filterMap_cons_none hat]
      exact ih.trans ((List.sublist_cons_self e trace).filterMap _)
    | some taken =>
      have hopened := opened_of_at? hat
      simp only [channels, eventsAt, List.filterMap_cons, hat, hopened]
      cases openedBy e.input with
      | none => exact ih
      | some slot => exact ih.cons_cons slot

/-- Alice asks bob for his height, and for somebody bob and carol for their last block. Carol
makes up her answer, and bob's answers come in another order than the questions. -/
def asksBoth : List Move :=
  [.handles "alice" 1 (.identified "bob" ["/ip4/10.0.0.2"]),
    .handles "alice" 2 (.req (.getLastBlockInfo "bob") 70),
    .handles "alice" 3 (.req (.getLastBlockInfo "carol") 80), .serves 1, .forges 1 [1, 9],
    .responds 1, .responds 0, .serves 0, .responds 0]

/-- Whether alice replies to a channel with a last block of this height. -/
def repliesWith (resChan : Nat) (height : UInt64) (e : NetEvent Nat) : Bool :=
  (at? "alice" e).isSome && e.out.any fun o =>
    match o with
    | .reply resChan' (.getLastBlockInfo info) =>
      decide (resChan' = resChan) && decide (info.height = height)
    | _ => false

theorem exists_of_repliesWith {resChan : Nat} {height : UInt64} {e : NetEvent Nat}
    (h : repliesWith resChan height e = true) : ∃ taken info, at? "alice" e = some taken ∧
      info.height = height ∧ .reply resChan (.getLastBlockInfo info) ∈ e.out := by
  rw [repliesWith, Bool.and_eq_true, Option.isSome_iff_exists, List.any_eq_true] at h
  obtain ⟨⟨taken, hat⟩, o, ho, replies⟩ := h
  split at replies
  · next resChan' info =>
    rw [Bool.and_eq_true, decide_eq_true_eq, decide_eq_true_eq] at replies
    obtain ⟨rfl, same⟩ := replies
    exact ⟨taken, info, hat, same, ho⟩
  · cases replies

/-- Whether alice tells her core a height. -/
def tellsHeight (height : UInt64) (e : NetEvent Nat) : Bool :=
  (at? "alice" e).isSome && e.out.any fun o =>
    match o with
    | .core (.msg .blockService (.heightFromPeer told)) => decide (told = height)
    | _ => false

theorem exists_of_tellsHeight {height : UInt64} {e : NetEvent Nat}
    (h : tellsHeight height e = true) : ∃ taken, at? "alice" e = some taken ∧
      .core (.msg .blockService (.heightFromPeer height)) ∈ e.out := by
  rw [tellsHeight, Bool.and_eq_true, Option.isSome_iff_exists, List.any_eq_true] at h
  obtain ⟨⟨taken, hat⟩, o, ho, tells⟩ := h
  split at tells
  · next told =>
    obtain rfl := decide_eq_true_eq.mp tells
    exact ⟨taken, hat, ho⟩
  · cases tells

/-- Each of the two channels gets the answer to its own question, and the height that alice's
core is told is bob's. -/
theorem own_answers_come : ∃ trace, ∃ net : PeerNetwork Nat,
    Run (NetStep Honest) emptyStations trace net ∧
    (∀ node, ((outputs (eventsAt node trace)).filterMap replied).Nodup) ∧
    (∃ earlier req info, earlier <+: trace ∧ info.height = 0 ∧
      Answered Honest earlier "alice" (.req req 70) (.getLastBlockInfo info)) ∧
    (∃ earlier req info, earlier <+: trace ∧ info.height = 9 ∧
      Answered Honest earlier "alice" (.req req 80) (.getLastBlockInfo info)) ∧
    ∃ earlier peerId listenAddrs, earlier <+: trace ∧
      Answered Honest earlier "alice" (.identified peerId listenAddrs) (.getHeight 0) := by
  have played : (play emptyStations asksBoth).any (fun trace =>
      decide ((outputs trace).filterMap requestIdOf).Nodup &&
        decide (trace.filterMap fun e => openedBy e.input).Nodup &&
        trace.any (repliesWith 70 0) && trace.any (repliesWith 80 9) &&
        trace.any (tellsHeight 0)) = true := by decide +kernel
  obtain ⟨trace, hplay, check⟩ := (Option.any_eq_true _ _).mp played
  simp only [Bool.and_eq_true, decide_eq_true_eq] at check
  obtain ⟨⟨⟨⟨ids, chans⟩, bob⟩, carol⟩, height⟩ := check
  obtain ⟨net, run⟩ := play_run hplay
  obtain ⟨once, answered⟩ := run_answered run
    (fun node => ((outputs_eventsAt_sublist node trace).filterMap requestIdOf).nodup ids)
    (fun node => (channels_eventsAt_sublist node trace).nodup chans)
  -- a question for a last block is not answered at once
  have replies : ∀ resChan height, trace.any (repliesWith resChan height) = true →
      ∃ earlier req info, earlier <+: trace ∧ info.height = height ∧
        Answered Honest earlier "alice" (.req req resChan) (.getLastBlockInfo info) := by
    intro resChan height some
    obtain ⟨e, he, hreply⟩ := List.any_eq_true.mp some
    obtain ⟨earlier, later, htrace⟩ := List.append_of_mem he
    obtain ⟨taken, info, hat, same, sent⟩ := exists_of_repliesWith hreply
    obtain ⟨req, -, known⟩ | ⟨req, hanswered⟩ :=
      (answered earlier e later htrace "alice" taken hat).1 resChan _ sent
    · cases known
    · exact ⟨earlier, req, info, ⟨e :: later, htrace.symm⟩, same, hanswered⟩
  refine ⟨trace, net, run, once, replies 70 0 bob, replies 80 9 carol, ?_⟩
  obtain ⟨e, he, htold⟩ := List.any_eq_true.mp height
  obtain ⟨earlier, later, htrace⟩ := List.append_of_mem he
  obtain ⟨taken, hat, sent⟩ := exists_of_tellsHeight htold
  obtain ⟨peerId, listenAddrs, hanswered⟩ :=
    (answered earlier e later htrace "alice" taken hat).2 0 sent
  exact ⟨earlier, peerId, listenAddrs, ⟨e :: later, htrace.symm⟩, hanswered⟩

end Sample.Duo

end Trinci
