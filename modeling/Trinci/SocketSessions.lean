import Mathlib.Logic.Function.Basic
import Trinci.EventService

/-!
# The sessions of socket clients

A connection keeps the id that its first subscription got, and hands it over with every
later request. The event service forgets an id once a request to unsubscribe leaves it
without topics. The connection is not told: it goes on with the id, and its next request is
refused, which ends its handler.
-/

namespace Trinci

open StepMachines

inductive SocketRequest
  | subscribe (events : EventTopics)
  | unsubscribe (events : EventTopics)

inductive SocketError
  | invalidComm
  | genericError
  deriving DecidableEq

/-- The event service after a request, and the id the connection keeps or the error that ends
its handler. -/
def handleSocketRequests {S : Type} (service : EventService S) (eventSender : S)
    (id : Option UInt64) : SocketRequest → EventService S × Except SocketError (Option UInt64)
  | .subscribe events =>
    let answer := service.handleRequests (.subscribe events eventSender id)
    (answer.1, match answer.2 with
      | [.subscribe (some connectionId)] => .ok (if id.isNone then some connectionId else id)
      | _ => .error .invalidComm)
  | .unsubscribe events =>
    match id with
    | none => (service, .ok none)
    | some subscriberId =>
      let answer := service.handleRequests (.unsubscribe events subscriberId)
      (answer.1, match answer.2 with
        | [.unsubscribe true] => .ok (some subscriberId)
        | [.unsubscribe false] => .error .genericError
        | _ => .error .invalidComm)

/-- The event service and the open connections, each with its id once it has one. An event
sender is the number of its connection. -/
structure Sockets where
  eventService : EventService Nat
  connections : Nat → Option (Option UInt64)

inductive SocketInput
  | connect (n : Nat)
  | request (n : Nat) (req : SocketRequest)
  /-- Nothing can be read from or written to the client any more. -/
  | drop (n : Nat)

namespace Sockets

def start (nodeId : String) : Sockets := ⟨EventService.start nodeId, fun _ => none⟩

def setConnection (s : Sockets) (n : Nat) (connection : Option (Option UInt64)) : Sockets :=
  { s with connections := Function.update s.connections n connection }

/-- One turn of a `connection_handler`. What is written back says whether a request was
handled; an error ends the handler without a word. -/
def handle (s : Sockets) : SocketInput → Sockets × List (Nat × Bool)
  | .connect n =>
    match s.connections n with
    | none => (s.setConnection n (some none), [])
    | some _ => (s, [])
  | .request n req =>
    match s.connections n with
    | none => (s, [])
    | some id =>
      let handled := handleSocketRequests s.eventService n id req
      let s := { s with eventService := handled.1 }
      match handled.2 with
      | .ok id => (s.setConnection n (some id), [(n, true)])
      | .error _ => (s.setConnection n none, [])
  | .drop n =>
    match s.connections n with
    | none => (s, [])
    | some none => (s.setConnection n none, [])
    | some (some id) =>
      (({ s with eventService := (s.eventService.handleRequests (.disconnect id)).1 } :
        Sockets).setConnection n none, [])

/-- A request of the client is handled, and its handler goes on. -/
def Accepts (s : Sockets) (n : Nat) (req : SocketRequest) : Prop :=
  (s.handle (.request n req)).2 = [(n, true)] ∧
    ((s.handle (.request n req)).1.connections n).isSome

/-- As long as the connection is open, any request is accepted. -/
def Serves (n : Nat) (s : Sockets) : Prop :=
  (s.connections n).isSome → ∀ req, s.Accepts n req

/-- The id of the connection is in the switchboard. -/
def Known (n : Nat) (s : Sockets) : Prop :=
  ∀ id, s.connections n = some (some id) → id ∈ s.eventService.switchboard

/-- A request to unsubscribe that leaves the id it names without topics. -/
def Empties {S : Type} (service : EventService S) (given : Option UInt64) (req : SocketRequest)
    (id : UInt64) : Prop :=
  ∃ events entry, req = .unsubscribe events ∧ given = some id ∧
    service.switchboard.lookup id = some entry ∧ entry.2 ^^^ events.bits = 0

/-- The input takes the entry of the connection's id away: a request leaves it without topics,
or another connection with the same id is dropped. -/
def Harms (n : Nat) (s : Sockets) : SocketInput → Prop
  | .connect _ => False
  | .request m req => ∃ id given, s.connections n = some (some id) ∧
      s.connections m = some given ∧ Empties s.eventService given req id
  | .drop m => m ≠ n ∧ ∃ id, s.connections n = some (some id) ∧ s.connections m = some (some id)

section Connections

variable {s : Sockets} {n m : Nat} {connection : Option (Option UInt64)}

@[simp]
theorem setConnection_self : (s.setConnection n connection).connections n = connection :=
  Function.update_self ..

theorem setConnection_other (other : m ≠ n) :
    (s.setConnection n connection).connections m = s.connections m :=
  Function.update_of_ne other ..

theorem setConnection_eq_iff {given : Option UInt64} :
    (s.setConnection m connection).connections n = some given ↔
      n = m ∧ connection = some given ∨ n ≠ m ∧ s.connections n = some given := by
  by_cases same : n = m
  · subst same
    simp
  · simp [setConnection_other same, same]

@[simp]
theorem setConnection_eventService :
    (s.setConnection n connection).eventService = s.eventService := rfl

end Connections

/-! ## One request -/

section Requests

variable {S : Type} {service service' : EventService S} {sender : S} {given : Option UInt64}
  {req : SocketRequest} {response : Except SocketError (Option UInt64)}

/-- What a request does to the event service, and its response. -/
inductive Session (service : EventService S) (sender : S) :
    Option UInt64 → SocketRequest → EventService S → Except SocketError (Option UInt64) → Prop
  | registered (events : EventTopics) : Session service sender none (.subscribe events)
      { service with
        switchboard := service.switchboard.insert service.nextConnectionId (sender, events.bits)
        nextConnectionId := service.nextConnectionId + 1 }
      (.ok (some service.nextConnectionId))
  | extended {id : UInt64} {entry : S × UInt8} (events : EventTopics) :
      service.switchboard.lookup id = some entry →
      Session service sender (some id) (.subscribe events)
        { service with
          switchboard := service.switchboard.insert id (entry.1, entry.2 ||| events.bits) }
        (.ok (some id))
  | ignored (events : EventTopics) :
      Session service sender none (.unsubscribe events) service (.ok none)
  | turned {id : UInt64} {entry : S × UInt8} (events : EventTopics) :
      service.switchboard.lookup id = some entry → entry.2 ^^^ events.bits ≠ 0 →
      Session service sender (some id) (.unsubscribe events)
        { service with
          switchboard := service.switchboard.insert id (entry.1, entry.2 ^^^ events.bits) }
        (.ok (some id))
  | emptied {id : UInt64} {entry : S × UInt8} (events : EventTopics) :
      service.switchboard.lookup id = some entry → entry.2 ^^^ events.bits = 0 →
      Session service sender (some id) (.unsubscribe events)
        { service with switchboard := service.switchboard.erase id } (.ok (some id))
  | refused {id : UInt64} (req : SocketRequest) (e : SocketError) :
      service.switchboard.lookup id = none →
      Session service sender (some id) req service (.error e)

theorem handleSocketRequests_session (service : EventService S) (sender : S)
    (given : Option UInt64) (req : SocketRequest) : Session service sender given req
      (handleSocketRequests service sender given req).1
      (handleSocketRequests service sender given req).2 := by
  cases given with
  | none =>
    cases req with
    | subscribe events => exact .registered events
    | unsubscribe events => exact .ignored events
  | some id =>
    cases hlookup : service.switchboard.lookup id with
    | none =>
      cases req with
      | subscribe events =>
        rw [handleSocketRequests, EventService.handleRequests, hlookup]
        exact .refused _ _ hlookup
      | unsubscribe events =>
        rw [handleSocketRequests, EventService.handleRequests, hlookup]
        exact .refused _ _ hlookup
    | some entry =>
      cases req with
      | subscribe events =>
        rw [handleSocketRequests, EventService.handleRequests, hlookup]
        exact .extended events hlookup
      | unsubscribe events =>
        rw [handleSocketRequests, EventService.handleRequests, hlookup]
        dsimp only
        split
        · next empty => exact .emptied events hlookup empty
        · next left => exact .turned events hlookup left

/-- A request is handled if and only if its connection has no id yet or a known one. -/
theorem Session.isOk_iff (session : Session service sender given req service' response) :
    (∃ kept, response = .ok kept) ↔ ∀ id, given = some id → id ∈ service.switchboard := by
  have listed : ∀ {id : UInt64} {entry : S × UInt8}, service.switchboard.lookup id = some entry →
      ∀ id', some id = some id' → id' ∈ service.switchboard := by
    rintro id entry hlookup _ ⟨⟩
    exact AList.lookup_isSome.mp (by simp [hlookup])
  cases session with
  | registered events => exact iff_of_true ⟨_, rfl⟩ fun id h => by cases h
  | ignored events => exact iff_of_true ⟨_, rfl⟩ fun id h => by cases h
  | extended events hlookup => exact iff_of_true ⟨_, rfl⟩ (listed hlookup)
  | turned events hlookup left => exact iff_of_true ⟨_, rfl⟩ (listed hlookup)
  | emptied events hlookup empty => exact iff_of_true ⟨_, rfl⟩ (listed hlookup)
  | refused req e hlookup =>
    refine iff_of_false ?_ fun known => ?_
    · rintro ⟨kept, h⟩
      cases h
    · have found := AList.lookup_isSome.mpr (known _ rfl)
      simp [hlookup] at found

/-- A connection keeps its id or gets the next one, which is known from then on. -/
theorem Session.kept (session : Session service sender given req service' response) :
    service'.nextConnectionId = service.nextConnectionId ∧
        (∀ kept, response = .ok kept → kept = given) ∨
      service'.nextConnectionId = service.nextConnectionId + 1 ∧ given = none ∧
        response = .ok (some service.nextConnectionId) ∧
        service.nextConnectionId ∈ service'.switchboard := by
  cases session with
  | registered events =>
    exact .inr ⟨rfl, rfl, rfl, (AList.mem_insert _).mpr (.inl rfl)⟩
  | refused req e hlookup => exact .inl ⟨rfl, fun kept h => by cases h⟩
  | _ => exact .inl ⟨rfl, fun kept h => (Except.ok.inj h).symm⟩

/-- Only a request that empties an entry takes it away, and that one alone. -/
theorem Session.mem_iff (session : Session service sender given req service' response)
    {id : UInt64} (listed : id ∈ service.switchboard) :
    id ∈ service'.switchboard ↔ ¬ Empties service given req id := by
  cases session with
  | registered events =>
    refine iff_of_true ((AList.mem_insert _).mpr (.inr listed)) ?_
    rintro ⟨_, _, unsubscribes, -⟩
    cases unsubscribes
  | extended events hlookup =>
    refine iff_of_true ((AList.mem_insert _).mpr (.inr listed)) ?_
    rintro ⟨_, _, unsubscribes, -⟩
    cases unsubscribes
  | ignored events =>
    refine iff_of_true listed ?_
    rintro ⟨_, _, -, same, -⟩
    cases same
  | turned events hlookup left =>
    refine iff_of_true ((AList.mem_insert _).mpr (.inr listed)) ?_
    rintro ⟨_, _, unsubscribes, same, found, empty⟩
    cases unsubscribes
    cases same
    cases hlookup.symm.trans found
    exact left empty
  | @emptied own entry events hlookup empty =>
    rw [AList.mem_erase]
    constructor
    · rintro ⟨other, -⟩ ⟨_, _, -, same, -⟩
      exact other (Option.some.inj same).symm
    · intro keeps
      refine ⟨?_, listed⟩
      rintro rfl
      exact keeps ⟨events, entry, rfl, rfl, hlookup, empty⟩
  | refused req e hlookup =>
    refine iff_of_true listed ?_
    rintro ⟨_, _, -, same, found, -⟩
    cases same
    cases hlookup.symm.trans found

end Requests

/-! ## The connections -/

section Steps

variable {s s' : Sockets} {n m : Nat} {input : SocketInput} {out : List (Nat × Bool)}

/-- A turn for a request of an open connection. -/
theorem handle_request {given : Option UInt64} (opened : s.connections m = some given)
    (req : SocketRequest) : ∃ eventService response,
      Session s.eventService m given req eventService response ∧
      s.handle (.request m req) =
        (({ s with eventService := eventService } : Sockets).setConnection m response.toOption,
          match response with
          | .ok _ => [(m, true)]
          | .error _ => []) := by
  refine ⟨_, _, handleSocketRequests_session s.eventService m given req, ?_⟩
  rw [handle, opened]
  dsimp only
  cases (handleSocketRequests s.eventService m given req).2 <;> rfl

theorem accepts_iff {given : Option UInt64} (opened : s.connections n = some given)
    {req : SocketRequest} : s.Accepts n req ↔ ∀ id, given = some id →
      id ∈ s.eventService.switchboard := by
  obtain ⟨eventService, response, session, hturn⟩ := handle_request opened req
  rw [← session.isOk_iff, Accepts, hturn]
  cases response with
  | ok kept => exact iff_of_true ⟨rfl, by simp [Except.toOption]⟩ ⟨kept, rfl⟩
  | error e =>
    refine iff_of_false ?_ ?_
    · rintro ⟨answered, -⟩
      cases answered
    · rintro ⟨kept, h⟩
      cases h

/-- A connection is served if and only if the event service knows its id. -/
theorem serves_iff_known : s.Serves n ↔ s.Known n := by
  unfold Serves Known
  cases hconnection : s.connections n with
  | none => simp
  | some given =>
    constructor
    · intro serves id same
      cases same
      exact (accepts_iff hconnection).mp (serves rfl (.subscribe Topic.block.topics)) id rfl
    · intro known _ req
      refine (accepts_iff hconnection).mpr fun id same => known id ?_
      rw [same]

/-- What is known stays known for the connections that the service does not change. -/
theorem known_setConnection {eventService : EventService Nat}
    {connection : Option (Option UInt64)}
    (own : n = m → ∀ id, connection = some (some id) → id ∈ eventService.switchboard)
    (others : ∀ id, s.connections n = some (some id) → n ≠ m → id ∈ eventService.switchboard) :
    (({ s with eventService := eventService } : Sockets).setConnection m connection).Known n := by
  intro id hid
  rcases setConnection_eq_iff.mp hid with ⟨same, hid⟩ | ⟨other, hid⟩
  · exact own same id hid
  · exact others id hid other

/-- A turn of any handler leaves the id of a connection known, if the input does no harm. -/
theorem handle_known (known : s.Known n) (harmless : ¬ s.Harms n input) :
    (s.handle input).1.Known n := by
  cases input with
  | connect m =>
    rw [handle]
    cases s.connections m with
    | some given => exact known
    | none =>
      refine known_setConnection (s := s) ?_ fun id hid _ => known id hid
      intro _ id hid
      cases hid
  | request m req =>
    cases hconnection : s.connections m with
    | none =>
      rw [handle, hconnection]
      exact known
    | some given =>
      obtain ⟨eventService, response, session, hturn⟩ := handle_request hconnection req
      rw [hturn]
      have keeps : ∀ id, s.connections n = some (some id) → id ∈ eventService.switchboard := by
        intro id hid
        rw [session.mem_iff (known id hid)]
        exact fun empties => harmless ⟨id, given, hid, hconnection, empties⟩
      refine known_setConnection (fun same id hid => ?_) fun id hid _ => keeps id hid
      obtain rfl : response = .ok (some id) := by
        cases response with
        | error e => cases hid
        | ok kept => exact congrArg Except.ok (Option.some.inj hid)
      rcases session.kept with ⟨-, own⟩ | ⟨-, -, hnew, fresh⟩
      · refine keeps id ?_
        rw [same, hconnection, own _ rfl]
      · cases hnew
        exact fresh
  | drop m =>
    rw [handle]
    cases hconnection : s.connections m with
    | none => exact known
    | some given =>
      cases given with
      | none =>
        refine known_setConnection (s := s) (fun _ id hid => ?_) fun id hid _ => known id hid
        cases hid
      | some gone =>
        refine known_setConnection (fun _ id hid => ?_) fun id hid other => ?_
        · cases hid
        · refine AList.mem_erase.mpr ⟨?_, known id hid⟩
          rintro rfl
          exact harmless ⟨Ne.symm other, id, hid, hconnection⟩

/-- An input that does harm leaves the connection open, with an id that is not known. -/
theorem handle_harms (known : s.Known n) (harms : s.Harms n input) :
    ¬ (s.handle input).1.Known n := by
  cases input with
  | connect m => exact harms.elim
  | request m req =>
    obtain ⟨id, given, hid, hconnection, empties⟩ := harms
    obtain ⟨eventService, response, session, hturn⟩ := handle_request hconnection req
    have gone : id ∉ eventService.switchboard := by
      rw [session.mem_iff (known id hid), not_not]
      exact empties
    obtain ⟨kept, rfl⟩ : ∃ kept, response = .ok kept := by
      obtain ⟨events, entry, -, rfl, hlookup, -⟩ := empties
      refine session.isOk_iff.mpr ?_
      rintro _ ⟨⟩
      exact known id hid
    obtain rfl : kept = some id := by
      obtain ⟨events, entry, -, rfl, -, -⟩ := empties
      rcases session.kept with ⟨-, own⟩ | ⟨-, given, -⟩
      · exact own kept rfl
      · cases given
    rw [hturn]
    intro after
    refine gone (after id (setConnection_eq_iff.mpr ?_))
    by_cases same : n = m
    · exact .inl ⟨same, rfl⟩
    · exact .inr ⟨same, hid⟩
  | drop m =>
    obtain ⟨other, id, hid, hconnection⟩ := harms
    rw [handle, hconnection]
    intro after
    refine (AList.mem_erase.mp (after id ?_)).1 rfl
    rw [setConnection_other (Ne.symm other)]
    exact hid

end Steps

/-! ## Every run -/

def Handles (s : Sockets) (input : SocketInput) (out : List (Nat × Bool)) (s' : Sockets) : Prop :=
  s.handle input = (s', out)

/-- In every run a connection is served after each event, as long as it is open, if and only if
no event does it harm. -/
theorem run_serves_iff {nodeId : String} {trace : List (Event Sockets SocketInput (Nat × Bool))}
    {s : Sockets} (run : Run Handles (start nodeId) trace s) (n : Nat) :
    Along (fun _ e => e.after.Serves n) trace ↔
      Along (fun _ e => ¬ e.before.Harms n e.input) trace := by
  have init : (start nodeId).Known n := by
    intro id hid
    cases hid
  simp only [serves_iff_known]
  constructor
  · intro along
    refine run.along (fun _ s => s.Known n) init ?_ ?_ along
    · exact fun _ _ _ _ _ _ _ known => known
    · intro _ s input out s' before h known harms
      have after := handle_harms before harms
      rw [show s.handle input = (s', out) from h] at after
      exact after known
  · intro along
    have keep : ∀ (s : Sockets) input out s', s.Known n → Handles s input out s' →
        ¬ s.Harms n input → s'.Known n := by
      intro s input out s' before h harmless
      have after := handle_known before harmless
      rwa [show s.handle input = (s', out) from h] at after
    refine run.along (fun _ s => s.Known n) init ?_ ?_ along
    · exact fun _ s input out s' before h => keep s input out s' before h
    · exact fun _ s input out s' before h => keep s input out s' before h

/-- The turns for inputs in a row, and the sockets after them. -/
def turns : Sockets → List SocketInput → List (Event Sockets SocketInput (Nat × Bool)) × Sockets
  | s, [] => ([], s)
  | s, input :: inputs =>
    let next := s.handle input
    let rest := turns next.1 inputs
    (⟨s, input, next.2, next.1⟩ :: rest.1, rest.2)

theorem turns_run (s : Sockets) (inputs : List SocketInput) :
    Run Handles s (turns s inputs).1 (turns s inputs).2 := by
  induction inputs generalizing s with
  | nil => exact .nil
  | cons input inputs ih => exact .cons rfl (ih _)

end Sockets

/-! ## A client without topics -/

namespace Sample

open Sockets

/-- A client subscribes to blocks and contract events, and to blocks no longer. -/
def keepsTopic : List SocketInput :=
  [.connect 0, .request 0 (.subscribe blocksAndContracts),
    .request 0 (.unsubscribe Topic.block.topics)]

theorem client_with_topic_is_served : ∃ trace s, Run Handles (Sockets.start "alice") trace s ∧
    trace.map Event.input = keepsTopic ∧ (s.connections 0).isSome ∧
    Along (fun _ e => e.after.Serves 0) trace := by
  have run := turns_run (Sockets.start "alice") keepsTopic
  refine ⟨_, _, run, rfl, rfl, (run_serves_iff run 0).mpr (along_iff_forall.mpr fun e he => ?_)⟩
  obtain rfl | rfl | rfl : e = _ ∨ e = _ ∨ e = _ := by simpa [turns, keepsTopic] using he
  · exact id
  · rintro ⟨id, given, hid, -⟩
    cases hid
  · rintro ⟨id, given, hid, -, events, entry, hreq, -, hlookup, empty⟩
    cases hreq
    cases hid
    cases hlookup
    exact absurd empty (by decide)

/-- A client subscribes to blocks and unsubscribes from them. -/
def losesTopic : List SocketInput :=
  [.connect 0, .request 0 (.subscribe Topic.block.topics),
    .request 0 (.unsubscribe Topic.block.topics)]

/-- The client is connected, and the next request ends its handler without a response. -/
theorem client_without_topic_is_dropped : ∃ trace s,
    Run Handles (Sockets.start "alice") trace s ∧ trace.map Event.input = losesTopic ∧
      s.connections 0 = some (some 0) ∧
      (∀ events, ¬ s.Accepts 0 (.subscribe events) ∧ ¬ s.Accepts 0 (.unsubscribe events)) ∧
      (s.handle (.request 0 (.subscribe Topic.block.topics))).1.connections 0 = none := by
  refine ⟨_, _, turns_run (Sockets.start "alice") losesTopic, rfl, rfl, fun events => ?_, rfl⟩
  constructor
  · rintro ⟨answered, -⟩
    cases answered
  · rintro ⟨answered, -⟩
    cases answered

end Sample

end Trinci
