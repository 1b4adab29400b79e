import Mathlib.Data.List.AList
import Mathlib.Data.Nat.Bitwise
import Trinci.Crypto
import Trinci.StepMachines

/-!
# The event service

Subscribers with the topics they listen to, one bit for each. A request for a new
subscription gets the next id, which wraps as in a release build. An event goes to the
subscribers whose mask has its topic. What a subscriber wants is read off its accepted
requests: it is delivered exactly as long as nobody unsubscribes from a topic it does not
listen to, and no id is given out while it is in use.
-/

namespace Trinci

open StepMachines

variable {S : Type}

inductive Topic
  | block
  | contractEvents
  | blockExec
  deriving DecidableEq

namespace Topic

def position : Topic → Nat
  | block => 1
  | contractEvents => 3
  | blockExec => 5

def bit (t : Topic) : UInt8 := UInt8.ofNat (2 ^ t.position)

end Topic

/-- The bits that `from_bits` accepts. -/
def knownBits : UInt8 := Topic.block.bit ||| Topic.contractEvents.bit ||| Topic.blockExec.bit

structure EventTopics where
  bits : UInt8
  known : bits &&& ~~~knownBits = 0

def Topic.topics (t : Topic) : EventTopics := ⟨t.bit, by cases t <;> decide⟩

/-- Whether a mask has a topic. -/
def Has (mask : UInt8) (t : Topic) : Prop := mask &&& t.bit ≠ 0

instance (mask : UInt8) (t : Topic) : Decidable (Has mask t) := inferInstanceAs (Decidable (_ ≠ _))

inductive EventReq (S : Type)
  | subscribe (eventTopics : EventTopics) (eventSender : S) (subscriberId : Option UInt64)
  | unsubscribe (eventTopics : EventTopics) (subscriberId : UInt64)
  | disconnect (subscriberId : UInt64)

inductive EventRes
  | subscribe (id : Option UInt64)
  | unsubscribe (success : Bool)
  | disconnect (success : Bool)
  deriving DecidableEq

structure EventService (S : Type) where
  nextConnectionId : UInt64
  nodeId : String
  switchboard : AList fun _ : UInt64 => S × UInt8

namespace EventService

def start (nodeId : String) : EventService S := ⟨0, nodeId, ∅⟩

def handleRequests (s : EventService S) : EventReq S → EventService S × List EventRes
  | .subscribe eventTopics _ (some id) =>
    match s.switchboard.lookup id with
    | some (sender, listenerMask) =>
      ({ s with switchboard := s.switchboard.insert id (sender, listenerMask ||| eventTopics.bits) },
        [.subscribe (some id)])
    | none => (s, [.subscribe none])
  | .subscribe eventTopics eventSender none =>
    ({ s with
        switchboard := s.switchboard.insert s.nextConnectionId (eventSender, eventTopics.bits)
        nextConnectionId := s.nextConnectionId + 1 },
      [.subscribe (some s.nextConnectionId)])
  | .unsubscribe eventTopics subscriberId =>
    match s.switchboard.lookup subscriberId with
    | some (sender, listenerMask) =>
      let listenerMask := listenerMask ^^^ eventTopics.bits
      ({ s with switchboard :=
          if listenerMask = 0 then s.switchboard.erase subscriberId
          else s.switchboard.insert subscriberId (sender, listenerMask) },
        [.unsubscribe true])
    | none => (s, [.unsubscribe false])
  | .disconnect subscriberId =>
    ({ s with switchboard := s.switchboard.erase subscriberId },
      [.disconnect (decide (subscriberId ∈ s.switchboard))])

/-- The subscribers that an event is sent to. -/
def listeners (s : EventService S) (topics : EventTopics) : List (UInt64 × S) :=
  (s.switchboard.entries.filter fun entry => entry.2.2 &&& topics.bits > 0).map
    fun entry => (entry.1, entry.2.1)

def propagateEvent (s : EventService S) (event : EventTopics × Bytes) : List (S × Bytes) :=
  (s.listeners event.1).map fun listener => (listener.2, event.2)

/-- Whether an event of the topic reaches the subscriber. -/
def Delivers (s : EventService S) (t : Topic) (id : UInt64) : Prop :=
  id ∈ (s.listeners t.topics).map Prod.fst

abbrev EventStep (S : Type) := Event (EventService S) (EventReq S) EventRes

def Answers (s : EventService S) (req : EventReq S) (out : List EventRes) (s' : EventService S) :
    Prop :=
  s.handleRequests req = (s', out)

/-! ## Masks -/

theorem has_iff_testBit {mask : UInt8} {t : Topic} :
    Has mask t ↔ mask.toNat.testBit t.position = true := by
  have bit : t.bit.toNat = 2 ^ t.position := by cases t <;> rfl
  rw [Has, ne_eq, ← UInt8.toNat_inj, UInt8.toNat_and, bit, Nat.and_two_pow]
  cases mask.toNat.testBit t.position <;> simp

theorem has_or {m m' : UInt8} {t : Topic} : Has (m ||| m') t ↔ Has m t ∨ Has m' t := by
  rw [has_iff_testBit, has_iff_testBit, has_iff_testBit, UInt8.toNat_or, Nat.testBit_or,
    Bool.or_eq_true]

theorem has_xor {m m' : UInt8} {t : Topic} : Has (m ^^^ m') t ↔ ¬ (Has m t ↔ Has m' t) := by
  rw [has_iff_testBit, has_iff_testBit, has_iff_testBit, UInt8.toNat_xor, Nat.testBit_xor]
  cases m.toNat.testBit t.position <;> cases m'.toNat.testBit t.position <;> simp

theorem delivers_iff {s : EventService S} {t : Topic} {id : UInt64} :
    s.Delivers t id ↔ ∃ entry, s.switchboard.lookup id = some entry ∧ Has entry.2 t := by
  have positive (mask : UInt8) : mask &&& t.topics.bits > 0 ↔ Has mask t := UInt8.pos_iff_ne_zero
  constructor
  · intro delivers
    obtain ⟨listener, hlistener, rfl⟩ := List.mem_map.mp delivers
    obtain ⟨⟨id, entry⟩, hentry, rfl⟩ := List.mem_map.mp hlistener
    rw [List.mem_filter, decide_eq_true_eq] at hentry
    exact ⟨entry, AList.mem_lookup_iff.mpr hentry.1, (positive _).mp hentry.2⟩
  · rintro ⟨entry, hlookup, has⟩
    apply List.mem_map.mpr
    refine ⟨(id, entry.1), List.mem_map.mpr ⟨⟨id, entry⟩, ?_, rfl⟩, rfl⟩
    rw [List.mem_filter, decide_eq_true_eq]
    exact ⟨AList.mem_lookup_iff.mp hlookup, (positive _).mpr has⟩

/-- Who gets an event depends on the entry of the switchboard alone. -/
theorem delivers_congr {s s' : EventService S} {t : Topic} {id : UInt64}
    (same : s'.switchboard.lookup id = s.switchboard.lookup id) :
    s'.Delivers t id ↔ s.Delivers t id := by
  rw [delivers_iff, delivers_iff, same]

theorem delivers_of_entry {s : EventService S} {t : Topic} {id : UInt64} {sender : S}
    {mask : UInt8} (h : s.switchboard.lookup id = some (sender, mask)) :
    s.Delivers t id ↔ Has mask t := by
  rw [delivers_iff, h]
  simp

theorem not_delivers_of_absent {s : EventService S} {t : Topic} {id : UInt64}
    (h : s.switchboard.lookup id = none) : ¬ s.Delivers t id := by
  rw [delivers_iff, h]
  rintro ⟨_, found, _⟩
  cases found

theorem not_has_zero (t : Topic) : ¬ Has 0 t := by cases t <;> decide

/-- After a request to unsubscribe the topics it names are turned over. -/
theorem delivers_unsubscribed {s : EventService S} {id : UInt64} {sender : S} {mask : UInt8}
    (t : Topic) (h : s.switchboard.lookup id = some (sender, mask)) (topics : EventTopics) :
    (s.handleRequests (.unsubscribe topics id)).1.Delivers t id ↔ Has (mask ^^^ topics.bits) t := by
  by_cases empty : mask ^^^ topics.bits = 0
  · have gone : (s.handleRequests (.unsubscribe topics id)).1.switchboard.lookup id = none := by
      rw [handleRequests, h]
      simp [empty]
    rw [empty]
    exact iff_of_false (not_delivers_of_absent gone) (not_has_zero t)
  · have kept : (s.handleRequests (.unsubscribe topics id)).1.switchboard.lookup id =
        some (sender, mask ^^^ topics.bits) := by
      rw [handleRequests, h]
      simp only [if_neg empty]
      exact AList.lookup_insert _
    exact delivers_of_entry kept

/-! ## What a subscriber wants -/

/-- An accepted subscription of the subscriber to the topic. -/
def Subscribes (id : UInt64) (t : Topic) (e : EventStep S) : Prop :=
  ∃ topics sender subscriberId, e.input = .subscribe topics sender subscriberId ∧
    e.out = [.subscribe (some id)] ∧ Has topics.bits t

def Unsubscribes (id : UInt64) (t : Topic) (e : EventStep S) : Prop :=
  ∃ topics, e.input = .unsubscribe topics id ∧ e.out = [.unsubscribe true] ∧ Has topics.bits t

/-- An event after which an earlier subscription is not what counts. -/
def Supersedes (id : UInt64) (t : Topic) (e : EventStep S) : Prop :=
  Subscribes id t e ∨ Unsubscribes id t e ∨ e.input = .disconnect id

/-- The last accepted request of the subscriber that mentions the topic is a subscription,
and the subscriber has not disconnected since. -/
def Wants (trace : List (EventStep S)) (t : Topic) (id : UInt64) : Prop :=
  ∃ earlier e later, trace = earlier ++ e :: later ∧ Subscribes id t e ∧
    ∀ e' ∈ later, ¬ Supersedes id t e'

theorem wants_snoc {trace : List (EventStep S)} {e : EventStep S} {t : Topic} {id : UInt64} :
    Wants (trace ++ [e]) t id ↔ Subscribes id t e ∨ Wants trace t id ∧ ¬ Supersedes id t e := by
  constructor
  · rintro ⟨earlier, x, later, hsplit, subscribes, last⟩
    rcases List.eq_nil_or_concat later with rfl | ⟨init, y, rfl⟩
    · obtain ⟨-, hxe⟩ := List.append_inj' hsplit rfl
      obtain rfl : e = x := by simpa using hxe
      exact .inl subscribes
    · have hcut : trace ++ [e] = (earlier ++ x :: init) ++ [y] := by simpa using hsplit
      rw [List.concat_eq_append] at last
      obtain ⟨rfl, hye⟩ := List.append_inj' hcut rfl
      obtain rfl : e = y := by simpa using hye
      refine .inr ⟨⟨earlier, x, init, rfl, subscribes, fun z hz => ?_⟩, ?_⟩
      · exact last z (List.mem_append_left _ hz)
      · exact last e (List.mem_append_right _ List.mem_cons_self)
  · rintro (subscribes | ⟨⟨earlier, x, later, rfl, subscribes, last⟩, others⟩)
    · exact ⟨trace, e, [], rfl, subscribes, by simp⟩
    · refine ⟨earlier, x, later ++ [e], by simp, subscribes, fun z hz => ?_⟩
      rcases List.mem_append.mp hz with hz | hz
      · exact last z hz
      · rw [List.mem_singleton.mp hz]
        exact others

/-- Events reach who wants them. -/
def Delivered (trace : List (EventStep S)) (s : EventService S) : Prop :=
  ∀ t id, s.Delivers t id ↔ Wants trace t id

/-- An accepted request to unsubscribe names only topics that are listened to, and an id
that is given out is not in use for another topic. -/
structure Fair (e : EventStep S) : Prop where
  listened : ∀ topics id entry, e.input = .unsubscribe topics id →
    e.before.switchboard.lookup id = some entry → ∀ t, Has topics.bits t → Has entry.2 t
  fresh : ∀ topics sender entry, e.input = .subscribe topics sender none →
    e.before.switchboard.lookup e.before.nextConnectionId = some entry →
      ∀ t, Has entry.2 t → Has topics.bits t

/-! ## The events -/

section Events

variable {s s' : EventService S} {topics : EventTopics} {sender : S} {asked : Option UInt64}
  {id other : UInt64} {t : Topic}

theorem subscribes_accepted_iff :
    Subscribes other t ⟨s, .subscribe topics sender asked, [.subscribe (some id)], s'⟩ ↔
      other = id ∧ Has topics.bits t := by
  constructor
  · rintro ⟨_, _, _, input, out, has⟩
    cases input
    cases out
    exact ⟨rfl, has⟩
  · rintro ⟨rfl, has⟩
    exact ⟨topics, sender, asked, rfl, rfl, has⟩

theorem supersedes_accepted_iff :
    Supersedes other t ⟨s, .subscribe topics sender asked, [.subscribe (some id)], s'⟩ ↔
      other = id ∧ Has topics.bits t := by
  rw [← subscribes_accepted_iff]
  constructor
  · rintro (subscribes | ⟨_, input, -⟩ | input)
    · exact subscribes
    · cases input
    · cases input
  · exact .inl

theorem not_supersedes_refused :
    ¬ Supersedes other t ⟨s, .subscribe topics sender asked, [.subscribe none], s'⟩ := by
  rintro (⟨_, _, _, -, out, -⟩ | ⟨_, input, -⟩ | input)
  · cases out
  · cases input
  · cases input

theorem not_subscribes_unsubscribe {out : List EventRes} :
    ¬ Subscribes other t ⟨s, .unsubscribe topics id, out, s'⟩ := by
  rintro ⟨_, _, _, input, -⟩
  cases input

theorem not_subscribes_disconnect {out : List EventRes} :
    ¬ Subscribes other t ⟨s, .disconnect id, out, s'⟩ := by
  rintro ⟨_, _, _, input, -⟩
  cases input

theorem supersedes_unsubscribed_iff :
    Supersedes other t ⟨s, .unsubscribe topics id, [.unsubscribe true], s'⟩ ↔
      other = id ∧ Has topics.bits t := by
  constructor
  · rintro (⟨_, _, _, input, -⟩ | ⟨_, input, -, has⟩ | input)
    · cases input
    · cases input
      exact ⟨rfl, has⟩
    · cases input
  · rintro ⟨rfl, has⟩
    exact .inr (.inl ⟨topics, rfl, rfl, has⟩)

theorem not_supersedes_unknown :
    ¬ Supersedes other t ⟨s, .unsubscribe topics id, [.unsubscribe false], s'⟩ := by
  rintro (⟨_, _, _, input, -⟩ | ⟨_, -, out, -⟩ | input)
  · cases input
  · cases out
  · cases input

theorem supersedes_disconnected_iff {out : List EventRes} :
    Supersedes other t ⟨s, .disconnect id, out, s'⟩ ↔ other = id := by
  constructor
  · rintro (⟨_, _, _, input, -⟩ | ⟨_, input, -⟩ | input)
    · cases input
    · cases input
    · cases input
      rfl
  · rintro rfl
    exact .inr (.inr rfl)

end Events

section Steps

variable {s s' : EventService S} {trace : List (EventStep S)} {e : EventStep S}
  {topics : EventTopics} {sender : S} {id : UInt64} {out : List EventRes}

/-- A request that does not concern a subscriber takes nothing from it. -/
theorem delivers_kept_iff {t : Topic} (silent : ¬ Supersedes id t e) :
    s.Delivers t id ↔ Subscribes id t e ∨ s.Delivers t id ∧ ¬ Supersedes id t e := by
  constructor
  · exact fun delivers => .inr ⟨delivers, silent⟩
  · rintro (subscribes | ⟨delivers, -⟩)
    · exact (silent (.inl subscribes)).elim
    · exact delivers

/-- A request concerns one subscriber. -/
theorem delivered_snoc (delivered : Delivered trace s) (id : UInt64)
    (others : ∀ other ≠ id, ∀ t, (s'.Delivers t other ↔ s.Delivers t other) ∧
      ¬ Supersedes other t e) :
    Delivered (trace ++ [e]) s' ↔ ∀ t, s'.Delivers t id ↔
      Subscribes id t e ∨ s.Delivers t id ∧ ¬ Supersedes id t e := by
  constructor
  · intro after t
    rw [after t id, wants_snoc, delivered t id]
  · intro here t other
    rw [wants_snoc, ← delivered t other]
    by_cases same : other = id
    · subst same
      exact here t
    · obtain ⟨kept, unmentioned⟩ := others other same t
      rw [kept]
      exact delivers_kept_iff unmentioned

/-- A request that is not accepted changes nothing. -/
theorem delivered_refused (delivered : Delivered trace s)
    (silent : ∀ other t, ¬ Supersedes other t e) : Delivered (trace ++ [e]) s := by
  refine (delivered_snoc delivered 0 fun other _ t => ⟨Iff.rfl, silent other t⟩).mpr fun t => ?_
  exact delivers_kept_iff (silent 0 t)

/-- A subscription adds its topics to those of the subscriber. -/
theorem delivered_subscribe (delivered : Delivered trace s)
    (h : Answers s (.subscribe topics sender (some id)) out s') :
    Delivered (trace ++ [⟨s, .subscribe topics sender (some id), out, s'⟩]) s' := by
  cases hlookup : s.switchboard.lookup id with
  | none =>
    rw [Answers, handleRequests, hlookup] at h
    cases h
    exact delivered_refused delivered fun _ _ => not_supersedes_refused
  | some entry =>
    obtain ⟨sender, mask⟩ := entry
    rw [Answers, handleRequests, hlookup] at h
    cases h
    refine (delivered_snoc delivered id fun other apart t => ⟨?_, ?_⟩).mpr fun t => ?_
    · exact delivers_congr (AList.lookup_insert_ne apart)
    · rw [supersedes_accepted_iff]
      exact fun mentioned => apart mentioned.1
    · rw [delivers_of_entry (AList.lookup_insert _), delivers_of_entry hlookup, has_or,
        subscribes_accepted_iff, supersedes_accepted_iff]
      tauto

/-- A new subscriber gets its topics, and the id of nobody else. -/
theorem delivered_register_iff (delivered : Delivered trace s)
    (h : Answers s (.subscribe topics sender none) out s') :
    Delivered (trace ++ [⟨s, .subscribe topics sender none, out, s'⟩]) s' ↔
      Fair ⟨s, .subscribe topics sender none, out, s'⟩ := by
  cases h
  refine (delivered_snoc delivered s.nextConnectionId fun other apart t => ⟨?_, ?_⟩).trans ?_
  · exact delivers_congr (AList.lookup_insert_ne apart)
  · rw [supersedes_accepted_iff]
    exact fun mentioned => apart mentioned.1
  · have now t := delivers_of_entry (t := t)
      (s := (s.handleRequests (.subscribe topics sender none)).1) (AList.lookup_insert _)
    simp only [handleRequests] at now
    simp only [now, subscribes_accepted_iff, supersedes_accepted_iff, true_and]
    constructor
    · intro here
      refine ⟨fun _ _ _ input => (by cases input), fun _ _ entry input hlookup t has => ?_⟩
      cases input
      by_contra without
      exact without ((here t).mpr (.inr ⟨(delivers_of_entry hlookup).mpr has, without⟩))
    · intro fair t
      constructor
      · exact .inl
      · rintro (has | ⟨delivers, without⟩)
        · exact has
        · obtain ⟨entry, hlookup, has⟩ := delivers_iff.mp delivers
          exact (without (fair.fresh topics sender entry rfl hlookup t has)).elim

/-- A topic that is not listened to is turned on by the request to unsubscribe from it. -/
theorem delivered_unsubscribe_iff (delivered : Delivered trace s)
    (h : Answers s (.unsubscribe topics id) out s') :
    Delivered (trace ++ [⟨s, .unsubscribe topics id, out, s'⟩]) s' ↔
      Fair ⟨s, .unsubscribe topics id, out, s'⟩ := by
  cases hlookup : s.switchboard.lookup id with
  | none =>
    rw [Answers, handleRequests, hlookup] at h
    cases h
    refine iff_of_true (delivered_refused delivered fun _ _ => not_supersedes_unknown) ?_
    refine ⟨fun _ _ entry input found => ?_, fun _ _ _ input => (by cases input)⟩
    cases input
    cases hlookup.symm.trans found
  | some entry =>
    obtain ⟨sender, mask⟩ := entry
    rw [Answers, handleRequests, hlookup] at h
    cases h
    have now t := delivers_unsubscribed t hlookup topics
    simp only [handleRequests, hlookup] at now
    refine (delivered_snoc delivered id fun other apart t => ⟨?_, ?_⟩).trans ?_
    · apply delivers_congr
      dsimp only
      split
      · exact AList.lookup_erase_ne apart
      · exact AList.lookup_insert_ne apart
    · rw [supersedes_unsubscribed_iff]
      exact fun mentioned => apart mentioned.1
    · simp only [now, not_subscribes_unsubscribe, supersedes_unsubscribed_iff, true_and, false_or,
        delivers_of_entry hlookup, has_xor]
      constructor
      · intro here
        refine ⟨fun _ _ entry input found t has => ?_, fun _ _ _ input => (by cases input)⟩
        cases input
        cases hlookup.symm.trans found
        by_contra without
        exact ((here t).mp (by tauto)).2 has
      · intro fair t
        have listened := fair.listened topics id (sender, mask) rfl hlookup t
        tauto

/-- A subscriber that disconnects gets nothing. -/
theorem delivered_disconnect (delivered : Delivered trace s)
    (h : Answers s (.disconnect id) out s') :
    Delivered (trace ++ [⟨s, .disconnect id, out, s'⟩]) s' := by
  cases h
  refine (delivered_snoc delivered id fun other apart t => ⟨?_, ?_⟩).mpr fun t => ?_
  · exact delivers_congr (AList.lookup_erase_ne apart)
  · rw [supersedes_disconnected_iff]
    exact apart
  · have gone := not_delivers_of_absent (t := t)
      (s := (s.handleRequests (.disconnect id)).1) (AList.lookup_erase id s.switchboard)
    rw [handleRequests] at gone
    simp only [gone, not_subscribes_disconnect, supersedes_disconnected_iff]
    tauto

theorem delivered_step {req : EventReq S} (delivered : Delivered trace s)
    (h : Answers s req out s') :
    Delivered (trace ++ [⟨s, req, out, s'⟩]) s' ↔ Fair ⟨s, req, out, s'⟩ := by
  cases req with
  | subscribe topics sender asked =>
    cases asked with
    | none => exact delivered_register_iff delivered h
    | some id =>
      refine iff_of_true (delivered_subscribe delivered h) ?_
      exact ⟨fun _ _ _ input => (by cases input), fun _ _ _ input => (by cases input)⟩
  | unsubscribe topics id => exact delivered_unsubscribe_iff delivered h
  | disconnect id =>
    refine iff_of_true (delivered_disconnect delivered h) ?_
    exact ⟨fun _ _ _ input => (by cases input), fun _ _ _ input => (by cases input)⟩

end Steps

theorem delivered_start (nodeId : String) : Delivered [] (start nodeId : EventService S) := by
  intro t id
  refine iff_of_false (not_delivers_of_absent rfl) ?_
  rintro ⟨earlier, e, later, hsplit, -⟩
  simp at hsplit

/-- In every run events reach who wants them, exactly as long as every request is fair. -/
theorem run_delivered_iff {nodeId : String} {trace : List (EventStep S)} {s : EventService S}
    (run : Run Answers (start nodeId) trace s) :
    Along (fun earlier e => Delivered (earlier ++ [e]) e.after) trace ↔
      Along (fun _ e => Fair e) trace := by
  constructor
  · intro along
    refine run.along (fun trace s => Delivered trace s) (delivered_start nodeId) ?_ ?_ along
    · exact fun _ _ _ _ _ _ _ delivered => delivered
    · exact fun _ _ _ _ _ before h delivered => (delivered_step before h).mp delivered
  · intro along
    refine run.along (fun trace s => Delivered trace s) (delivered_start nodeId) ?_ ?_ along
    · exact fun _ _ _ _ _ before h fair => (delivered_step before h).mpr fair
    · exact fun _ _ _ _ _ before h fair => (delivered_step before h).mpr fair

/-- The events of the requests in a row, and the service after them. -/
def answered : EventService S → List (EventReq S) → List (EventStep S) × EventService S
  | s, [] => ([], s)
  | s, req :: reqs =>
    let next := s.handleRequests req
    let rest := answered next.1 reqs
    (⟨s, req, next.2, next.1⟩ :: rest.1, rest.2)

theorem answered_run (s : EventService S) (reqs : List (EventReq S)) :
    Run Answers s (answered s reqs).1 (answered s reqs).2 := by
  induction reqs generalizing s with
  | nil => exact .nil
  | cons req reqs ih => exact .cons rfl (ih _)

end EventService

namespace Sample

open EventService

def blocksAndContracts : EventTopics :=
  ⟨Topic.block.bit ||| Topic.contractEvents.bit, by decide⟩

def toBlocks : EventReq Unit := .subscribe Topic.block.topics () none

def fromBoth : EventReq Unit := .unsubscribe blocksAndContracts 0

/-- A listener to blocks unsubscribes from blocks and contract events, and gets the
contract events. -/
theorem unsubscribe_subscribes : ∃ trace s, Run Answers (EventService.start "alice") trace s ∧
    trace.map Event.input = [toBlocks, fromBoth] ∧ s.Delivers .contractEvents 0 ∧
    ¬ Along (fun earlier e => Delivered (earlier ++ [e]) e.after) trace := by
  have delivers : (answered (EventService.start "alice") [toBlocks, fromBoth]).2.Delivers
      .contractEvents 0 := by
    unfold Delivers
    decide +kernel
  refine ⟨_, _, answered_run _ _, rfl, delivers, fun along => ?_⟩
  have wants := (along [_] _ [] rfl .contractEvents 0).mp delivers
  rw [wants_snoc] at wants
  rcases wants with subscribes | ⟨-, others⟩
  · exact not_subscribes_unsubscribe subscribes
  · exact others (supersedes_unsubscribed_iff.mpr ⟨rfl, by decide⟩)

def fromBlocks : EventReq Unit := .unsubscribe Topic.block.topics 0

/-- A listener that unsubscribes from blocks alone gets what it wants. -/
theorem listener_gets_blocks : ∃ trace s, Run Answers (EventService.start "alice") trace s ∧
    trace.map Event.input = [toBlocks, fromBlocks] ∧
    Along (fun earlier e => Delivered (earlier ++ [e]) e.after) trace := by
  have run := answered_run (EventService.start "alice") [toBlocks, fromBlocks]
  refine ⟨_, _, run, rfl, (run_delivered_iff run).mpr (along_iff_forall.mpr fun e he => ?_)⟩
  obtain rfl | rfl : e = _ ∨ e = _ := by simpa [answered] using he
  · refine ⟨fun _ _ _ input => (by cases input), fun _ _ entry input found => ?_⟩
    cases found
  · refine ⟨fun topics id entry input found t has => ?_, fun _ _ _ input => (by cases input)⟩
    cases input
    obtain rfl : entry = ((), Topic.block.bit) := (Option.some.inj found).symm
    exact has

end Sample

end Trinci
