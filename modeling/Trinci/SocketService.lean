import Mathlib.Algebra.Group.Nat.Defs
import Trinci.Crypto
import Trinci.StepMachines

/-!
# A socket connection

A turn of the connection loop reads one datagram, a length in four bytes and a body, or
takes one event of the node, whichever comes first. The reading keeps the bytes it took
from the stream, and is dropped with them when an event comes first. All that a client
sends is decoded, in order, exactly as long as no event is taken while a part of a datagram
has been read.
-/

namespace Trinci

open StepMachines

/-! ## Datagrams -/

/-- The length in front of a datagram. -/
def toBeBytes32 (n : Nat) : Bytes :=
  [UInt8.ofNat (n / 2 ^ 24), UInt8.ofNat (n / 2 ^ 16), UInt8.ofNat (n / 2 ^ 8), UInt8.ofNat n]

def fromBeBytes32 (header : Bytes) : Nat := header.foldl (fun n b => n * 256 + b.toNat) 0

/-- A datagram as it is sent. -/
def datagram (body : Bytes) : Bytes := toBeBytes32 body.length ++ body

/-- What a client may send: the length fits its four bytes. -/
structure ClientFrame where
  body : Bytes
  short : body.length < 2 ^ 32

/-! ## Reading -/

/-- A reading that has begun: the header, and then the body. -/
inductive Reading
  | head (buf : Bytes)
  | body (header buf : Bytes)

/-- `read_exact` over a buffer that is filled in part: what it has then, and what is left of
the stream. -/
def readExact (want : Nat) (buf stream : Bytes) : Bytes × Bytes :=
  (buf ++ stream.take (want - buf.length), stream.drop (want - buf.length))

/-- What a poll of the reading leaves: the body of a datagram, or the reading. -/
inductive ReadPoll
  | ready (buf : Bytes)
  | pending (reading : Reading)

namespace Reading

def pollBody (header buf stream : Bytes) : ReadPoll × Bytes :=
  let len := fromBeBytes32 header
  let (buf, stream) := readExact len buf stream
  if buf.length < len then (.pending (.body header buf), stream) else (.ready buf, stream)

def poll : Reading → Bytes → ReadPoll × Bytes
  | .head buf, stream =>
    let (buf, stream) := readExact 4 buf stream
    if buf.length < 4 then (.pending (.head buf), stream) else pollBody buf [] stream
  | .body header buf, stream => pollBody header buf stream

/-- The bytes that the reading took from the stream. -/
def taken : Reading → Bytes
  | .head buf => buf
  | .body header buf => header ++ buf

end Reading

/-! ## The connection -/

/-- What one poll of a turn meets: which of the two it tries first, what becomes of a
request, and whether the client can be written to. -/
structure PollEnv where
  eventFirst : Bool
  respond : Bytes → Option Bytes
  writes : Bool

structure Connection where
  /-- Whether the loop goes on. -/
  running : Bool
  stream : Bytes
  events : List Bytes
  /-- The reading of the turn, and none between the turns. -/
  reading : Option Reading
  /-- The datagrams that were decoded. -/
  decoded : List Bytes

inductive ConnectionInput
  /-- Bytes of the client arrive. -/
  | arrive (bytes : Bytes)
  | event (event : Bytes)
  /-- The pause before a turn is over. -/
  | turn
  | poll (env : PollEnv)
  /-- The reading fails. -/
  | hangUp

namespace Connection

def start : Connection := ⟨true, [], [], none, []⟩

/-- A datagram is decoded and answered. -/
def takeDatagram (c : Connection) (env : PollEnv) (buf stream : Bytes) :
    Connection × List Bytes :=
  let c := { c with stream := stream, reading := none, decoded := c.decoded ++ [buf] }
  match env.respond buf with
  | none => ({ c with running := false }, [])
  | some res => if env.writes then (c, [res]) else ({ c with running := false }, [])

/-- An event is sent to the client. -/
def takeEvent (c : Connection) (env : PollEnv) (event : Bytes) (events : List Bytes) :
    Connection × List Bytes :=
  let c := { c with reading := none, events := events }
  if env.writes then (c, [event]) else ({ c with running := false }, [])

def pollReading (c : Connection) (env : PollEnv) (reading : Reading) : Connection × List Bytes :=
  match reading.poll c.stream, c.events with
  | (.ready buf, stream), _ => c.takeDatagram env buf stream
  | (.pending _, stream), event :: events => { c with stream := stream }.takeEvent env event events
  | (.pending reading, stream), [] => ({ c with stream := stream, reading := some reading }, [])

def pollTurn (c : Connection) (env : PollEnv) (reading : Reading) : Connection × List Bytes :=
  match env.eventFirst, c.events with
  | true, event :: events => c.takeEvent env event events
  | _, _ => c.pollReading env reading

/-- A step with what is written to the client. Nothing where the input does not come. -/
def handle (c : Connection) (input : ConnectionInput) : Except Unit (Connection × List Bytes) :=
  match input with
  | .arrive bytes => .ok ({ c with stream := c.stream ++ bytes }, [])
  | .event event => .ok ({ c with events := c.events ++ [event] }, [])
  | .turn =>
    if c.running && c.reading.isNone then .ok ({ c with reading := some (.head []) }, [])
    else .error ()
  | .poll env =>
    match c.running, c.reading with
    | true, some reading => .ok (c.pollTurn env reading)
    | _, _ => .error ()
  | .hangUp =>
    if c.reading.isSome then .ok ({ c with running := false }, []) else .error ()

end Connection

/-! ## The bytes of a datagram -/

theorem fromBeBytes32_four (a b c d : UInt8) :
    fromBeBytes32 [a, b, c, d] = ((a.toNat * 256 + b.toNat) * 256 + c.toNat) * 256 + d.toNat := by
  simp [fromBeBytes32]

theorem fromBeBytes32_toBeBytes32 {n : Nat} (h : n < 2 ^ 32) :
    fromBeBytes32 (toBeBytes32 n) = n := by
  rw [toBeBytes32, fromBeBytes32_four]
  simp only [UInt8.toNat_ofNat']
  omega

theorem toBeBytes32_fromBeBytes32 {header : Bytes} (four : header.length = 4) :
    toBeBytes32 (fromBeBytes32 header) = header := by
  match header with
  | [a, b, c, d] =>
    have ha := a.toNat_lt
    have hb := b.toNat_lt
    have hc := c.toNat_lt
    have hd := d.toNat_lt
    rw [fromBeBytes32_four, toBeBytes32]
    have byte {n : Nat} {x : UInt8} (h : n % 256 = x.toNat) : UInt8.ofNat n = x := by
      apply UInt8.toNat_inj.mp
      rwa [UInt8.toNat_ofNat']
    rw [byte (x := a) (by omega), byte (x := b) (by omega), byte (x := c) (by omega),
      byte (x := d) (by omega)]

theorem fromBeBytes32_lt {header : Bytes} (four : header.length = 4) :
    fromBeBytes32 header < 2 ^ 32 := by
  match header with
  | [a, b, c, d] =>
    have ha := a.toNat_lt
    have hb := b.toNat_lt
    have hc := c.toNat_lt
    have hd := d.toNat_lt
    rw [fromBeBytes32_four]
    omega

/-- Datagrams that are read off what frames were sent are the first of the frames. -/
theorem prefix_of_datagrams {decoded : List Bytes} {frames : List ClientFrame} {rest : Bytes}
    (short : ∀ body ∈ decoded, body.length < 2 ^ 32)
    (h : decoded.flatMap datagram ++ rest <+: frames.flatMap fun frame => datagram frame.body) :
    decoded <+: frames.map ClientFrame.body := by
  induction decoded generalizing frames with
  | nil => exact List.nil_prefix
  | cons body decoded ih =>
    rw [List.forall_mem_cons] at short
    cases frames with
    | nil => simp [datagram, toBeBytes32] at h
    | cons frame frames =>
      obtain ⟨later, h⟩ := h
      simp only [List.flatMap_cons, datagram, List.append_assoc] at h
      obtain ⟨header, h⟩ := List.append_inj h rfl
      have length := congrArg fromBeBytes32 header
      rw [fromBeBytes32_toBeBytes32 short.1, fromBeBytes32_toBeBytes32 frame.short] at length
      obtain ⟨same, h⟩ := List.append_inj h length
      rw [same, List.map_cons, List.cons_prefix_cons]
      refine ⟨rfl, ih short.2 ⟨later, ?_⟩⟩
      rw [List.append_assoc]
      exact h

/-- Once all bytes are decoded, all frames are. -/
theorem eq_of_datagrams {decoded : List Bytes} {frames : List ClientFrame}
    (first : decoded <+: frames.map ClientFrame.body)
    (all : decoded.flatMap datagram = frames.flatMap fun frame => datagram frame.body) :
    decoded = frames.map ClientFrame.body := by
  obtain ⟨rest, hrest⟩ := first
  have whole : (frames.map ClientFrame.body).flatMap datagram =
      frames.flatMap fun frame => datagram frame.body := List.flatMap_map _ _ _
  rw [← whole, ← hrest, List.flatMap_append] at all
  cases rest with
  | nil => rw [← hrest, List.append_nil]
  | cons body rest =>
    have length := congrArg List.length all
    simp [datagram, toBeBytes32] at length

/-! ## What a poll of the reading takes -/

/-- The bytes begin with a whole datagram. -/
def Whole (bytes : Bytes) : Prop :=
  4 ≤ bytes.length ∧ 4 + fromBeBytes32 (bytes.take 4) ≤ bytes.length

instance (bytes : Bytes) : Decidable (Whole bytes) := inferInstanceAs (Decidable (_ ∧ _))

/-- A reading that has not come to its end. -/
def Reading.Open : Reading → Prop
  | .head buf => buf.length < 4
  | .body header buf => header.length = 4 ∧ buf.length < fromBeBytes32 header

/-- What a poll makes of the bytes taken before and those in the stream. -/
inductive Polled (bytes : Bytes) : ReadPoll × Bytes → Prop
  | ready {buf rest : Bytes} : Whole bytes → buf.length < 2 ^ 32 → bytes = datagram buf ++ rest →
      Polled bytes (.ready buf, rest)
  /-- All there was has been taken. -/
  | pending {later : Reading} : ¬ Whole bytes → later.Open → later.taken = bytes →
      Polled bytes (.pending later, [])

theorem readExact_short {want : Nat} {buf stream : Bytes} (filled : buf.length ≤ want)
    (h : (readExact want buf stream).1.length < want) :
    readExact want buf stream = (buf ++ stream, []) := by
  simp only [readExact, List.length_append, List.length_take] at h
  have all : stream.length ≤ want - buf.length := by omega
  rw [readExact, List.take_of_length_le all, List.drop_eq_nil_of_le all]

theorem readExact_full {want : Nat} {buf stream : Bytes} (filled : buf.length ≤ want)
    (h : ¬ (readExact want buf stream).1.length < want) :
    (readExact want buf stream).1.length = want ∧
      (readExact want buf stream).1 ++ (readExact want buf stream).2 = buf ++ stream := by
  constructor
  · simp only [readExact, List.length_append, List.length_take] at h ⊢
    omega
  · rw [readExact, List.append_assoc, List.take_append_drop]

theorem whole_append_iff {header rest : Bytes} (four : header.length = 4) :
    Whole (header ++ rest) ↔ fromBeBytes32 header ≤ rest.length := by
  rw [Whole, List.take_left' four, List.length_append, four]
  omega

theorem Reading.polled_body {header buf : Bytes} (stream : Bytes) (four : header.length = 4)
    (filled : buf.length ≤ fromBeBytes32 header) :
    Polled (header ++ (buf ++ stream)) (pollBody header buf stream) := by
  simp only [pollBody]
  split
  · next h =>
    have all := readExact_short filled h
    rw [all] at h ⊢
    refine .pending ?_ ⟨four, h⟩ rfl
    rw [whole_append_iff four]
    exact Nat.not_le.mpr h
  · next h =>
    obtain ⟨length, whole⟩ := readExact_full filled h
    refine .ready ?_ ?_ ?_
    · rw [whole_append_iff four, ← whole, List.length_append]
      omega
    · rw [length]
      exact fromBeBytes32_lt four
    · rw [datagram, length, toBeBytes32_fromBeBytes32 four, List.append_assoc, whole]

theorem Reading.polled {reading : Reading} (going : reading.Open) (stream : Bytes) :
    Polled (reading.taken ++ stream) (reading.poll stream) := by
  cases reading with
  | head buf =>
    have filled : buf.length ≤ 4 := Nat.le_of_lt going
    simp only [poll]
    split
    · next h =>
      have all := readExact_short filled h
      rw [all] at h ⊢
      refine .pending ?_ h rfl
      rintro ⟨four, -⟩
      exact absurd h (Nat.not_lt.mpr four)
    · next h =>
      obtain ⟨length, whole⟩ := readExact_full filled h
      have none : ([] : Bytes).length ≤ fromBeBytes32 (readExact 4 buf stream).1 := Nat.zero_le _
      have body := polled_body (readExact 4 buf stream).2 length none
      rw [List.nil_append, whole] at body
      exact body
  | body header buf =>
    rw [taken, List.append_assoc]
    exact polled_body stream going.1 (Nat.le_of_lt going.2)

/-! ## What a step keeps -/

/-- The bytes that arrive. -/
def ConnectionInput.bytes : ConnectionInput → Bytes
  | .arrive bytes => bytes
  | _ => []

@[simp]
theorem ConnectionInput.bytes_poll (env : PollEnv) : (ConnectionInput.poll env).bytes = [] := rfl

namespace Connection

/-- The bytes that the reading of the turn took. -/
def taken (c : Connection) : Bytes := c.reading.elim [] Reading.taken

/-- The bytes that were decoded, taken or not read yet. -/
def bytes (c : Connection) : Bytes := c.decoded.flatMap datagram ++ (c.taken ++ c.stream)

/-- No event is taken while a part of a datagram has been read. -/
def DropsNothing (c : Connection) : ConnectionInput → Prop
  | .poll env =>
    c.reading ≠ none → c.events ≠ [] →
      if env.eventFirst then c.taken = []
      else Whole (c.taken ++ c.stream) ∨ c.taken ++ c.stream = []
  | _ => True

instance (c : Connection) (input : ConnectionInput) : Decidable (c.DropsNothing input) :=
  match input with
  | .poll env => inferInstanceAs (Decidable (c.reading ≠ none → c.events ≠ [] →
      if env.eventFirst then c.taken = []
      else Whole (c.taken ++ c.stream) ∨ c.taken ++ c.stream = []))
  | .arrive _ | .event _ | .turn | .hangUp => inferInstanceAs (Decidable True)

structure Sound (c : Connection) : Prop where
  going : ∀ reading, c.reading = some reading → reading.Open
  short : ∀ body ∈ c.decoded, body.length < 2 ^ 32

theorem sound_start : start.Sound where
  going reading h := by simp [start] at h
  short body h := by simp [start] at h

/-- A body was decoded: the rest of the stream is read in the next turn. -/
structure TookDatagram (c : Connection) (buf stream : Bytes) (c' : Connection) : Prop where
  decoded : c'.decoded = c.decoded ++ [buf]
  stream : c'.stream = stream
  reading : c'.reading = none

/-- An event was sent to the client: the reading of the turn is dropped. -/
structure TookEvent (c : Connection) (stream : Bytes) (c' : Connection) : Prop where
  decoded : c'.decoded = c.decoded
  stream : c'.stream = stream
  reading : c'.reading = none

theorem takeDatagram_took (c : Connection) (env : PollEnv) (buf stream : Bytes) :
    c.TookDatagram buf stream (c.takeDatagram env buf stream).1 := by
  simp only [takeDatagram]
  split
  · exact ⟨rfl, rfl, rfl⟩
  · split <;> exact ⟨rfl, rfl, rfl⟩

theorem takeEvent_took (c : Connection) (env : PollEnv) (event : Bytes) (events : List Bytes) :
    c.TookEvent c.stream (c.takeEvent env event events).1 := by
  simp only [takeEvent]
  split <;> exact ⟨rfl, rfl, rfl⟩

variable {c c' : Connection} {input : ConnectionInput} {out : List Bytes}

/-- A step keeps the connection sound, and every byte if the input drops nothing. -/
structure Keeps (c : Connection) (input : ConnectionInput) (c' : Connection) : Prop where
  sound : c'.Sound
  bytes_iff : c'.bytes = c.bytes ++ input.bytes ↔ c.DropsNothing input

theorem TookEvent.keeps {env : PollEnv} {stream : Bytes} (sound : c.Sound)
    (took : c.TookEvent stream c') (reading : c.reading ≠ none) (waits : c.events ≠ [])
    (dropped : (if env.eventFirst then c.taken = []
      else Whole (c.taken ++ c.stream) ∨ c.taken ++ c.stream = []) ↔
      stream = c.taken ++ c.stream) : c.Keeps (.poll env) c' := by
  refine ⟨⟨fun later h => ?_, ?_⟩, ?_⟩
  · simp [took.reading] at h
  · rw [took.decoded]
    exact sound.short
  · have after : c'.taken = [] := by rw [taken, took.reading, Option.elim_none]
    rw [bytes, bytes, took.decoded, after, took.stream, ConnectionInput.bytes_poll, List.append_nil,
      List.nil_append, List.append_cancel_left_eq, ← dropped]
    exact ⟨fun h _ _ => h, fun h => h reading waits⟩

theorem pollReading_keeps {env : PollEnv} {reading : Reading} (sound : c.Sound)
    (here : c.reading = some reading) (free : env.eventFirst = true → c.events = []) :
    c.Keeps (.poll env) (c.pollReading env reading).1 := by
  have begun : c.reading ≠ none := by simp [here]
  have held : c.taken = reading.taken := by rw [taken, here, Option.elim_some]
  have polled := reading.polled (sound.going reading here) c.stream
  rw [pollReading]
  generalize reading.poll c.stream = result at polled ⊢
  cases polled with
  | @ready buf rest whole short same =>
    have took := c.takeDatagram_took env buf rest
    refine ⟨⟨fun later h => ?_, ?_⟩, iff_of_true ?_ ?_⟩
    · simp [took.reading] at h
    · rw [took.decoded, List.forall_mem_append]
      exact ⟨sound.short, by simpa using short⟩
    · have after : (c.takeDatagram env buf rest).1.taken = [] := by
        rw [taken, took.reading, Option.elim_none]
      rw [bytes, bytes, took.decoded, after, took.stream, ConnectionInput.bytes_poll, held, same]
      simp
    · intro _ waits
      rw [if_neg fun first => waits (free first), held]
      exact .inl whole
  | @pending later part going all =>
    cases hevents : c.events with
    | nil =>
      refine ⟨⟨?_, sound.short⟩, iff_of_true ?_ fun _ waits => absurd hevents waits⟩
      · intro other h
        cases h
        exact going
      · simp [bytes, taken, ConnectionInput.bytes, here, all]
    | cons event events =>
      have waits : c.events ≠ [] := by simp [hevents]
      have took := takeEvent_took { c with stream := [] } env event events
      refine TookEvent.keeps sound (c := c) ⟨took.decoded, took.stream, took.reading⟩ begun waits ?_
      rw [if_neg fun first => waits (free first), held, eq_comm (a := [])]
      exact or_iff_right part

theorem pollTurn_keeps {env : PollEnv} {reading : Reading} (sound : c.Sound)
    (here : c.reading = some reading) : c.Keeps (.poll env) (c.pollTurn env reading).1 := by
  rw [pollTurn]
  cases first : env.eventFirst with
  | false => exact pollReading_keeps sound here (by simp [first])
  | true =>
    cases hevents : c.events with
    | nil => exact pollReading_keeps sound here fun _ => hevents
    | cons event events =>
      have begun : c.reading ≠ none := by simp [here]
      refine (c.takeEvent_took env event events).keeps sound begun (by simp [hevents]) ?_
      rw [if_pos first, List.self_eq_append_left]

theorem handle_keeps (h : c.handle input = .ok (c', out)) (sound : c.Sound) :
    c.Keeps input c' := by
  cases input with
  | arrive bytes =>
    cases h
    refine ⟨⟨sound.going, sound.short⟩, iff_of_true ?_ trivial⟩
    simp [Connection.bytes, taken, ConnectionInput.bytes]
  | event event =>
    cases h
    refine ⟨⟨sound.going, sound.short⟩, iff_of_true ?_ trivial⟩
    simp [Connection.bytes, taken, ConnectionInput.bytes]
  | turn =>
    simp only [handle] at h
    split at h
    · next idle =>
      cases h
      have none_ : c.reading = none := by simpa using (Bool.and_eq_true_iff.mp idle).2
      refine ⟨⟨fun reading hreading => ?_, sound.short⟩, iff_of_true ?_ trivial⟩
      · cases hreading
        exact Nat.zero_lt_succ 3
      · simp [Connection.bytes, taken, ConnectionInput.bytes, none_, Reading.taken]
    · cases h
  | poll env =>
    simp only [handle] at h
    split at h
    · next reading _ here =>
      have turn : c.Keeps (.poll env) (c.pollTurn env reading).1 := pollTurn_keeps sound here
      rw [Except.ok.injEq] at h
      rwa [h] at turn
    · cases h
  | hangUp =>
    simp only [handle] at h
    split at h
    · cases h
      refine ⟨⟨sound.going, sound.short⟩, iff_of_true ?_ trivial⟩
      simp [Connection.bytes, taken, ConnectionInput.bytes]
    · cases h

/-! ## Whole runs -/

abbrev ConnectionEvent := Event Connection ConnectionInput Bytes

/-- What the client has sent. -/
def arrived (trace : List ConnectionEvent) : Bytes := trace.flatMap fun e => e.input.bytes

theorem arrived_snoc (trace : List ConnectionEvent) (e : ConnectionEvent) :
    arrived (trace ++ [e]) = arrived trace ++ e.input.bytes := by
  simp [arrived]

/-- The datagrams that were decoded are the frames that the client sent. -/
structure Faithful (frames : List ClientFrame) (sent : Bytes) (c : Connection) : Prop where
  /-- No byte is lost. -/
  kept : c.bytes = sent
  /-- And none is misread. -/
  inOrder : c.decoded <+: frames.map ClientFrame.body
  complete : sent = (frames.flatMap fun frame => datagram frame.body) →
    c.taken ++ c.stream = [] → c.decoded = frames.map ClientFrame.body

theorem faithful_of_kept {frames : List ClientFrame} {sent : Bytes} (sound : c.Sound)
    (first : sent <+: frames.flatMap fun frame => datagram frame.body) (kept : c.bytes = sent) :
    Faithful frames sent c := by
  have inOrder : c.decoded <+: frames.map ClientFrame.body := by
    apply prefix_of_datagrams sound.short
    rw [bytes] at kept
    rwa [kept]
  refine ⟨kept, inOrder, fun all empty => ?_⟩
  apply eq_of_datagrams inOrder
  rw [← all, ← kept, bytes, empty, List.append_nil]

/-- A run over frames that arrive in any pieces decodes them, exactly as long as no event is
taken while a part of a datagram has been read. -/
theorem run_faithful_iff {frames : List ClientFrame} {trace : List ConnectionEvent}
    (run : Run (Computes handle) start trace c)
    (sent : arrived trace <+: frames.flatMap fun frame => datagram frame.body) :
    Along (fun earlier e => Faithful frames (arrived (earlier ++ [e])) e.after) trace ↔
      Along (fun _ e => e.before.DropsNothing e.input) trace := by
  suffices both : (Along (fun earlier e => Faithful frames (arrived (earlier ++ [e])) e.after)
      trace ↔ Along (fun _ e => e.before.DropsNothing e.input) trace) ∧ c.Sound ∧
      (Along (fun _ e => e.before.DropsNothing e.input) trace → c.bytes = arrived trace) from
    both.1
  induction run with
  | nil => exact ⟨iff_of_true (along_nil _) (along_nil _), sound_start, fun _ => rfl⟩
  | @snoc trace c c' input out run hstep ih =>
    have more := arrived_snoc trace ⟨c, input, out, c'⟩
    obtain ⟨same, sound, kept⟩ := ih ((List.prefix_append _ _).trans (more ▸ sent))
    have keeps := handle_keeps hstep sound
    have step : c.bytes = arrived trace →
        (c'.bytes = arrived (trace ++ [⟨c, input, out, c'⟩]) ↔ c.DropsNothing input) := by
      intro before
      rw [more, ← before]
      exact keeps.bytes_iff
    rw [along_snoc, along_snoc]
    refine ⟨⟨?_, ?_⟩, keeps.sound, ?_⟩
    · rintro ⟨all, last⟩
      have earlier := same.mp all
      exact ⟨earlier, (step (kept earlier)).mp last.kept⟩
    · rintro ⟨earlier, last⟩
      exact ⟨same.mpr earlier,
        faithful_of_kept keeps.sound sent ((step (kept earlier)).mpr last)⟩
    · rintro ⟨earlier, last⟩
      exact (step (kept earlier)).mpr last

end Connection

namespace Sample

open Connection

def answering : PollEnv := ⟨false, fun buf => some buf, true⟩

/-- A client subscribes to an event, and asks something else. -/
def twoFrames : List ClientFrame := [⟨[3, 1], by decide⟩, ⟨[0, 0, 0, 1, 9], by decide⟩]

/-- The client subscribes. -/
def subscribes : List ConnectionInput :=
  [.turn, .arrive [0, 0, 0, 2, 3, 1], .poll answering]

/-- An event comes when only the length of the second frame is there. -/
def headerFirst : List ConnectionInput :=
  subscribes ++ [.turn, .arrive [0, 0, 0, 5], .event [7], .poll answering, .turn,
    .arrive [0, 0, 0, 1, 9], .poll answering]

/-- The length is dropped, and what follows it is read as a length and a body. -/
theorem frame_misread : ∃ trace c, Run (Computes handle) start trace c ∧
    trace.map Event.input = headerFirst ∧
    arrived trace = (twoFrames.flatMap fun frame => datagram frame.body) ∧
    c.decoded = [[3, 1], [9]] ∧
    ¬ Along (fun earlier e => Faithful twoFrames (arrived (earlier ++ [e])) e.after) trace := by
  have run := traceOf_run (f := handle) (s := start) (l := headerFirst) (by decide +kernel)
  refine ⟨_, _, run, rfl, by decide +kernel, by decide +kernel, fun along => ?_⟩
  have inOrder := (along [_, _, _, _, _, _, _, _, _] _ [] rfl).inOrder
  revert inOrder
  decide +kernel

/-- The second frame comes in two pieces, and the event between two turns. -/
def eventBetween : List ConnectionInput :=
  subscribes ++ [.turn, .arrive [0, 0, 0], .poll answering, .arrive [5, 0, 0, 0, 1, 9],
    .poll answering, .event [7], .turn, .poll answering]

theorem frame_decoded : ∃ trace c, Run (Computes handle) start trace c ∧
    trace.map Event.input = eventBetween ∧ c.decoded = [[3, 1], [0, 0, 0, 1, 9]] ∧
    Along (fun earlier e => Faithful twoFrames (arrived (earlier ++ [e])) e.after) trace := by
  have run := traceOf_run (f := handle) (s := start) (l := eventBetween) (by decide +kernel)
  refine ⟨_, _, run, rfl, by decide +kernel, (run_faithful_iff run (by decide +kernel)).mpr ?_⟩
  have nothing : Along (fun _ e => decide (e.before.DropsNothing e.input) = true)
      (traceOf handle start eventBetween) := along_of_all (by decide +kernel)
  exact nothing.imp fun _ _ h => of_decide_eq_true h

end Sample

end Trinci
