import Trinci.SocketService

/-!
# Datagrams and short writes

A datagram is written by one vectored write of its length and its body. A stream may take
fewer bytes than it is offered, and what it leaves is not offered again: a warning compares
the number of bytes that were taken with the length of the body alone, and the write counts
as done. The reader has nothing but the lengths to find the next datagram, so it reads what
was written exactly if every write was taken whole.
-/

namespace Trinci

/-! ## Writing -/

/-- How many bytes of what a write offers a stream takes: some, if there are any. -/
structure TcpStream where
  takes : (calls : Nat) → (offered : Bytes) → Nat
  takes_pos : ∀ calls offered, offered ≠ [] → 0 < takes calls offered
  takes_le : ∀ calls offered, takes calls offered ≤ offered.length

/-- The bytes that a stream took, and how often it was written to. -/
structure Written where
  stream : Bytes
  calls : Nat

namespace TcpStream

def writeVectored (tcp : TcpStream) (w : Written) (bufs : List Bytes) : Written × Nat :=
  let written := tcp.takes w.calls bufs.flatten
  (⟨w.stream ++ bufs.flatten.take written, w.calls + 1⟩, written)

/-- What is left on the stream, and the warning. There is no other outcome. -/
def writeDatagram (tcp : TcpStream) (w : Written) (buf : Bytes) : Written × Option String :=
  let (w, written) := tcp.writeVectored w [toBeBytes32 buf.length, buf]
  if written ≠ buf.length then
    (w, some ("The `write_datagram` function written " ++ toString written ++
      " but was expected to write " ++ toString buf.length ++ " bytes"))
  else (w, none)

def writeDatagrams (tcp : TcpStream) : Written → List ClientFrame → Written
  | w, [] => w
  | w, frame :: frames => tcp.writeDatagrams (tcp.writeDatagram w frame.body).1 frames

/-- Every write is taken whole. -/
def TakesAll (tcp : TcpStream) : (calls : Nat) → List ClientFrame → Prop
  | _, [] => True
  | calls, frame :: frames =>
    tcp.takes calls (datagram frame.body) = (datagram frame.body).length ∧
      tcp.TakesAll (calls + 1) frames

end TcpStream

/-! ## Reading -/

/-- The body of the datagram at the start of a stream, and what follows it. Without a whole
datagram the reading waits, or fails when the stream ends. -/
def readDatagram (stream : Bytes) : Option (Bytes × Bytes) :=
  match (Reading.head []).poll stream with
  | (.ready buf, stream) => some (buf, stream)
  | (.pending _, _) => none

def readDatagrams : Nat → Bytes → Option (List Bytes)
  | 0, _ => some []
  | n + 1, stream => do
    let (buf, stream) ← readDatagram stream
    let bufs ← readDatagrams n stream
    return buf :: bufs

theorem reading_start : (Reading.head []).Open := Nat.zero_lt_succ 3

theorem datagram_append_inj {body body' rest rest' : Bytes} (short : body.length < 2 ^ 32)
    (short' : body'.length < 2 ^ 32) (h : datagram body ++ rest = datagram body' ++ rest') :
    body = body' ∧ rest = rest' := by
  rw [datagram, datagram, List.append_assoc, List.append_assoc] at h
  obtain ⟨header, bodies⟩ := List.append_inj h rfl
  have length := congrArg fromBeBytes32 header
  rw [fromBeBytes32_toBeBytes32 short, fromBeBytes32_toBeBytes32 short'] at length
  exact List.append_inj bodies length

theorem readDatagram_eq_some_iff {stream body rest : Bytes} :
    readDatagram stream = some (body, rest) ↔
      body.length < 2 ^ 32 ∧ stream = datagram body ++ rest := by
  have polled := Reading.polled reading_start stream
  rw [Reading.taken, List.nil_append] at polled
  rw [readDatagram]
  generalize (Reading.head []).poll stream = poll at polled
  cases polled with
  | ready whole short heq =>
    constructor
    · intro h
      cases h
      exact ⟨short, heq⟩
    · rintro ⟨short', heq'⟩
      obtain ⟨rfl, rfl⟩ := datagram_append_inj short short' (heq.symm.trans heq')
      rfl
  | pending notWhole going taken =>
    constructor
    · intro h
      cases h
    · rintro ⟨short, heq⟩
      apply absurd _ notWhole
      have four : (toBeBytes32 body.length).length = 4 := rfl
      rw [heq, datagram, List.append_assoc, whole_append_iff four, fromBeBytes32_toBeBytes32 short,
        List.length_append]
      exact Nat.le_add_right ..

theorem readDatagrams_of_datagrams (frames : List ClientFrame) (rest : Bytes) :
    readDatagrams frames.length ((frames.map ClientFrame.body).flatMap datagram ++ rest) =
      some (frames.map ClientFrame.body) := by
  induction frames with
  | nil => rfl
  | cons frame frames ih =>
    have first : readDatagram (((frame :: frames).map ClientFrame.body).flatMap datagram ++ rest) =
        some (frame.body, (frames.map ClientFrame.body).flatMap datagram ++ rest) := by
      rw [readDatagram_eq_some_iff, List.map_cons, List.flatMap_cons, List.append_assoc]
      exact ⟨frame.short, rfl⟩
    rw [List.length_cons, readDatagrams, first]
    change (readDatagrams frames.length _).bind (fun bufs => some (frame.body :: bufs)) = _
    rw [ih]
    rfl

/-- What is read is on the stream. -/
theorem length_of_readDatagrams {n : Nat} {stream : Bytes} {bufs : List Bytes}
    (h : readDatagrams n stream = some bufs) :
    (bufs.flatMap datagram).length ≤ stream.length := by
  induction n generalizing stream bufs with
  | zero =>
    cases h
    exact Nat.zero_le _
  | succ n ih =>
    rw [readDatagrams, Option.bind_eq_bind, Option.bind_eq_some_iff] at h
    obtain ⟨⟨buf, rest⟩, first, h⟩ := h
    rw [Option.bind_eq_bind, Option.bind_eq_some_iff] at h
    obtain ⟨later, hlater, h⟩ := h
    cases h
    obtain ⟨-, rfl⟩ := readDatagram_eq_some_iff.mp first
    have shorter := ih hlater
    rw [List.flatMap_cons, List.length_append, List.length_append]
    omega

/-! ## What the writes leave -/

namespace TcpStream

variable {tcp : TcpStream} {w : Written} {frames : List ClientFrame}

theorem offered_eq (buf : Bytes) : [toBeBytes32 buf.length, buf].flatten = datagram buf := by
  rw [List.flatten_cons, List.flatten_cons, List.flatten_nil, List.append_nil, datagram]

theorem writeDatagram_fst (tcp : TcpStream) (w : Written) (buf : Bytes) :
    (tcp.writeDatagram w buf).1 =
      ⟨w.stream ++ (datagram buf).take (tcp.takes w.calls (datagram buf)), w.calls + 1⟩ := by
  simp only [writeDatagram, writeVectored, offered_eq]
  split
  · rfl
  · rfl

theorem writeDatagrams_of_takesAll (all : tcp.TakesAll w.calls frames) :
    (tcp.writeDatagrams w frames).stream =
      w.stream ++ (frames.map ClientFrame.body).flatMap datagram := by
  induction frames generalizing w with
  | nil => exact (List.append_nil _).symm
  | cons frame frames ih =>
    obtain ⟨now, later⟩ := all
    rw [writeDatagrams, writeDatagram_fst, ih later, now, List.take_length, List.map_cons,
      List.flatMap_cons, List.append_assoc]

/-- Fewer bytes than were offered are on the stream, unless every write was taken whole. -/
theorem length_writeDatagrams (tcp : TcpStream) (w : Written) (frames : List ClientFrame) :
    (tcp.writeDatagrams w frames).stream.length ≤
        w.stream.length + ((frames.map ClientFrame.body).flatMap datagram).length ∧
      (w.stream.length + ((frames.map ClientFrame.body).flatMap datagram).length ≤
        (tcp.writeDatagrams w frames).stream.length → tcp.TakesAll w.calls frames) := by
  induction frames generalizing w with
  | nil => exact ⟨Nat.le_refl _, fun _ => trivial⟩
  | cons frame frames ih =>
    have atMost := tcp.takes_le w.calls (datagram frame.body)
    obtain ⟨bound, all⟩ := ih (tcp.writeDatagram w frame.body).1
    rw [writeDatagram_fst, List.length_append, List.length_take, Nat.min_eq_left atMost] at bound
    rw [writeDatagram_fst, List.length_append, List.length_take, Nat.min_eq_left atMost] at all
    rw [writeDatagrams, writeDatagram_fst, List.map_cons, List.flatMap_cons, List.length_append]
    constructor
    · omega
    · intro whole
      exact ⟨by omega, all (by omega)⟩

/-- Reading as many datagrams as were written gives their bodies. -/
def RoundTrips (tcp : TcpStream) (frames : List ClientFrame) : Prop :=
  readDatagrams frames.length (tcp.writeDatagrams ⟨[], 0⟩ frames).stream =
    some (frames.map ClientFrame.body)

/-- What is read is what was written exactly if every write was taken whole. -/
theorem roundTrips_iff_takesAll (tcp : TcpStream) (frames : List ClientFrame) :
    tcp.RoundTrips frames ↔ tcp.TakesAll 0 frames := by
  constructor
  · intro same
    apply (length_writeDatagrams tcp ⟨[], 0⟩ frames).2
    have enough := length_of_readDatagrams same
    rw [List.length_nil, Nat.zero_add]
    exact enough
  · intro all
    have stream := writeDatagrams_of_takesAll (w := ⟨[], 0⟩) all
    rw [RoundTrips, stream, List.nil_append, ← readDatagrams_of_datagrams frames [],
      List.append_nil]

end TcpStream

/-! ## A torn datagram -/

namespace Sample

/-- A stream with room for four bytes at the first write. -/
def tornStream : TcpStream where
  takes calls offered := if calls = 0 then min 4 offered.length else offered.length
  takes_pos calls offered nonempty := by
    have positive := List.length_pos_of_ne_nil nonempty
    split
    · omega
    · exact positive
  takes_le calls offered := by
    split
    · omega
    · exact Nat.le_refl _

def tornFrames : List ClientFrame := [⟨[7], by decide⟩, ⟨[9], by decide⟩]

/-- The length of the second datagram begins with what is read as the body of the first. -/
theorem torn_first : readDatagram (tornStream.writeDatagrams ⟨[], 0⟩ tornFrames).stream =
      some ([0], [0, 0, 1, 9]) ∧
    ¬ tornStream.RoundTrips tornFrames := by
  refine ⟨by decide, fun same => ?_⟩
  rw [TcpStream.RoundTrips] at same
  exact absurd same (by decide)

end Sample

end Trinci
