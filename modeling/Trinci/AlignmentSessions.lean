import Trinci.PoolTriggers

/-!
# Sessions of alignment

A session is a thread that has the block service retrieve the blocks that are missing, one
after the other, and that tells both services when it has ended. The sender that the block
service holds and the flag of the transaction service do not say which session they are
for. They are right as long as a session starts only where nothing is left of the earlier
ones: a retrieval that fails drops the sender while its thread still has to end.
-/

namespace Trinci

open StepMachines StatefulSteps

/-! ## The thread of a session -/

/-- Where the thread is in its loop. -/
inductive AlignmentStage
  | asks
  | waits
  /-- The block service is told of the end, and the transaction service is not. -/
  | ends
  deriving DecidableEq

structure AlignmentThread where
  /-- Which session it is of, counted from the first. -/
  session : Nat
  height : UInt64
  trustedPeers : List String
  actualHeight : UInt64
  /-- The new heights that were sent to the thread. -/
  newHeights : List UInt64
  stage : AlignmentStage
  deriving DecidableEq

/-- What the thread does next, and what it sends. A wait for a height that was not sent is
given up, be it at its timeout or because the sender was dropped. -/
def AlignmentThread.act {A B C T : Type} (t : AlignmentThread) :
    Option AlignmentThread × List (Output A B C T) :=
  match t.stage, t.newHeights with
  | .asks, _ =>
    if t.actualHeight < t.height then
      (some { t with stage := .waits }, [.msg .blockService (.retrieveBlock t.trustedPeers)])
    else (some { t with stage := .ends }, [.msg .blockService .alignmentEnded])
  | .waits, newHeight :: newHeights =>
    (some { t with actualHeight := newHeight, newHeights := newHeights, stage := .asks }, [])
  | .waits, [] => (some { t with stage := .ends }, [.msg .blockService .alignmentEnded])
  | .ends, _ => (none, [.msg .transactionService .alignmentEnded])

/-! ## The two services and the threads -/

/-- A message to the block service, with the session of the thread that sent it. -/
structure Queued (A B C T : Type) where
  msg : Msg A B C T
  session : Option Nat

/-- The sender that the block service holds is that of the last session. -/
structure AlignmentNode (A B C T : Type) where
  blockService : BlockService
  transactionService : TransactionService A T
  toBlock : List (Queued A B C T)
  toTransactions : List (Msg A B C T)
  threads : List AlignmentThread
  /-- How many sessions were started. -/
  started : Nat

inductive AlignmentInput (A B C T : Type)
  /-- A message of another part of the node. -/
  | arrive (dest : Service) (msg : Msg A B C T)
  | block (env : BlockEnv A B C T)
  | transactions (now : Nat → UInt64)
  | thread (index : Nat)

variable {A B C T : Type}

/-- The messages that only the alignment sends. -/
def ofAlignment : Msg A B C T → Bool
  | .alignmentStarted => true
  | .alignmentEnded => true
  | .retrieveBlock _ => true
  | _ => false

namespace AlignmentNode

abbrev AlignmentEvent (A B C T : Type) :=
  Event (AlignmentNode A B C T) (AlignmentInput A B C T) (Output A B C T)

def start [Executable B] (keypair : TrinciKeyPair) (nodeId : String) (block : Option B) :
    AlignmentNode A B C T where
  blockService := .start keypair nodeId block
  transactionService := .start nodeId
  toBlock := []
  toTransactions := []
  threads := []
  started := 0

/-- What becomes of an output: it is queued, begins a session or is for the thread of the
last one. What goes to the rest of the node leaves. -/
def deliver (session : Option Nat) (n : AlignmentNode A B C T) :
    Output A B C T → AlignmentNode A B C T
  | .msg .blockService msg => { n with toBlock := n.toBlock ++ [⟨msg, session⟩] }
  | .msg .transactionService msg => { n with toTransactions := n.toTransactions ++ [msg] }
  | .alignmentThread height trustedPeers =>
    { n with
      threads := n.threads ++
        [⟨n.started + 1, height, trustedPeers, n.blockService.height, [], .asks⟩]
      started := n.started + 1 }
  | .alignmentStep height =>
    { n with threads := n.threads.map fun t =>
        if t.session = n.started then { t with newHeights := t.newHeights ++ [height] } else t }
  | _ => n

/-- The threads where one of them has gone on, or ended. -/
def replaceThread (threads : List AlignmentThread) (index : Nat) :
    Option AlignmentThread → List AlignmentThread
  | some t => threads.set index t
  | none => threads.eraseIdx index

def post (session : Option Nat) (n : AlignmentNode A B C T) (out : List (Output A B C T)) :
    AlignmentNode A B C T :=
  out.foldl (deliver session) n

variable [Primitives] [Executable B] [Confirmable C] [Transactable T] [Serialize T] [DecidableEq A]

/-- Nothing where the input does not come, or where a service has ended. -/
def handle (n : AlignmentNode A B C T) :
    AlignmentInput A B C T → Except Unit (AlignmentNode A B C T × List (Output A B C T))
  | .arrive dest msg =>
    if ofAlignment msg then .error () else .ok (n.post none [.msg dest msg], [.msg dest msg])
  | .block env =>
    match n.toBlock with
    | [] => .error ()
    | queued :: rest =>
      match n.blockService.handleMessages env queued.msg with
      | .error _ => .error ()
      | .ok (blockService, out) =>
        .ok (post none { n with blockService := blockService, toBlock := rest } out, out)
  | .transactions now =>
    match n.toTransactions with
    | [] => .error ()
    | msg :: rest =>
      match n.transactionService.handleMessages now msg with
      | .error _ => .error ()
      | .ok (transactionService, out) =>
        .ok (post none { n with transactionService := transactionService, toTransactions := rest }
          out, out)
  | .thread index =>
    match n.threads[index]? with
    | none => .error ()
    | some t =>
      let (next, out) : Option AlignmentThread × List (Output A B C T) := t.act
      .ok (post (some t.session) { n with threads := replaceThread n.threads index next } out, out)

end AlignmentNode

/-! ## What starts a session -/

namespace BlockService

/-- The neighbors know of a higher block. -/
def Behind (env : BlockEnv A B C T) (s : BlockService) : Prop :=
  ∃ height trustedPeers, result (bestLastBlock env) ⟨s, []⟩ = .ok (height, trustedPeers) ∧
    s.height < height

/-- The message has the service start a session. -/
def Aligns (env : BlockEnv A B C T) (s : BlockService) : Msg A B C T → Prop
  | .detectedPossibleMisalignment => s.alignmentSender = false ∧ Behind env s
  | .heightFromPeer height =>
    s.height + 1 < height ∧ s.alignmentSender = false ∧ Behind env s
  | _ => False

end BlockService

/-- What neither begins a session nor is of one. -/
def Quiet : Output A B C T → Prop
  | .msg _ .alignmentStarted => False
  | .msg _ .alignmentEnded => False
  | .alignmentThread _ _ => False
  | _ => True

namespace BlockService

section Steps

variable [Transactable T] {env : BlockEnv A B C T} {s s' : BlockService} {msg : Msg A B C T}
  {out : List (Output A B C T)}

variable [Primitives] [Executable B] [Confirmable C] [Serialize T]

/-- A step that takes no sender begins no session. -/
theorem BlockStep.quiet (step : BlockStep env s msg s' out)
    (same : s'.alignmentSender = true → s.alignmentSender = true) : ∀ o ∈ out, Quiet o := by
  intro o ho
  rcases step.mail ho with mail | ⟨-, announces⟩ | ⟨⟨free, held⟩, -⟩
  · cases mail <;> trivial
  · rcases announces with ⟨height, rfl⟩ | ⟨dest, block, txsHashes, players, rfl⟩
    · trivial
    · trivial
  · have before := same held
    rw [free] at before
    cases before

/-- A session begins with a message that has the service start one, and with nothing else. -/
theorem handleMessages_sessions (h : handleMessages env s msg = .ok (s', out)) :
    (Aligns env s msg ∧ s'.alignmentSender = true ∧ ∃ height trustedPeers, out =
        [.msg .transactionService .alignmentStarted, .alignmentThread height trustedPeers]) ∨
      (s'.alignmentSender = true → s.alignmentSender = true) ∧ ∀ o ∈ out, Quiet o := by
  have step := handleMessages_step h
  by_cases same : s'.alignmentSender = true → s.alignmentSender = true
  · exact .inr ⟨same, step.quiet same⟩
  · have hafter := handleMessages_after h
    rw [handle, after_service_bind] at hafter
    cases step with
    | aligned free _ asked =>
      refine .inl ⟨?_, rfl, _, _, rfl⟩
      rcases asked with rfl | ⟨height, rfl⟩
      · simp only [logged_after] at hafter
        rcases align_after env ⟨s, []⟩ with still | ⟨-, best, trustedPeers, behind, found, -⟩
        · cases congrArg Handling.out (still.symm.trans hafter)
        · exact ⟨free, best, trustedPeers, found, behind⟩
      · simp only at hafter
        split at hafter
        · next above =>
          rw [logged_after] at hafter
          rcases align_after env ⟨s, []⟩ with still | ⟨-, best, trustedPeers, behind, found, -⟩
          · cases congrArg Handling.out (still.symm.trans hafter)
          · exact ⟨above, free, best, trustedPeers, found, behind⟩
        · cases congrArg Handling.out hafter
    | retrieved _ kept =>
      rcases kept with rfl | rfl
      · exact absurd id same
      · exact absurd (fun held => Bool.noConfusion held) same
    | ended => exact absurd (fun held => Bool.noConfusion held) same
    | _ => exact absurd id same

end Steps

end BlockService

/-- The flag of the transaction service after a message. -/
def flagAfter (flag : Bool) : Msg A B C T → Bool
  | .alignmentStarted => true
  | .alignmentEnded => false
  | _ => flag

theorem flagAfter_quiet {dest : Service} {msg : Msg A B C T} (h : Quiet (.msg dest msg))
    (flag : Bool) : flagAfter flag msg = flag := by
  cases msg <;> first | rfl | exact h.elim

theorem TransactionService.handleMessages_flag [DecidableEq A] [Transactable T]
    {now : Nat → UInt64} {s s' : TransactionService A T} {msg : Msg A B C T}
    {out : List (Output A B C T)} (h : s.handleMessages now msg = .ok (s', out)) :
    s'.alignmentInProgress = flagAfter s.alignmentInProgress msg ∧ ∀ o ∈ out, Quiet o := by
  constructor
  · by_cases started : msg = .alignmentStarted
    · subst started
      cases h
      rfl
    · cases handleMessages_asks h with
      | ended => rfl
      | started => rfl
      | consolidated aligning _ _ => exact aligning
      | asks _ goesOn asks =>
        rw [asks.aligning]
        cases msg <;> first | rfl | exact absurd rfl started | exact absurd trivial goesOn
  · intro o ho
    rcases (handleMessages_pool h).sends ho with (rfl | rfl) | ⟨_, _, _, _, -, rfl⟩ | ⟨_, rfl⟩ <;>
      trivial

namespace AlignmentNode

/-! ## Every run -/

/-- Nothing is left of the earlier sessions where one starts. -/
def StartsAlone (e : AlignmentEvent A B C T) : Prop :=
  ∀ env queued rest, e.input = .block env → e.before.toBlock = queued :: rest →
    BlockService.Aligns env e.before.blockService queued.msg →
      e.before.threads = [] ∧ ∀ later ∈ rest, later.msg ≠ .alignmentEnded

/-- No end of an earlier session has the block service drop the sender of a later one. -/
def EndsOwn (e : AlignmentEvent A B C T) : Prop :=
  ∀ env session rest, e.input = .block env →
    e.before.toBlock = ⟨.alignmentEnded, some session⟩ :: rest →
    e.before.blockService.alignmentSender = true → ¬ session < e.before.started

/-- No message is in flight. -/
structure Settled (n : AlignmentNode A B C T) : Prop where
  toBlock : n.toBlock = []
  toTransactions : n.toTransactions = []
  newHeights : ∀ t ∈ n.threads, t.newHeights = []

/-- The flag tells whether a session is running. -/
def Flagged (n : AlignmentNode A B C T) : Prop :=
  n.Settled → (n.transactionService.alignmentInProgress = true ↔ n.threads ≠ [])

/-- At most one thread runs, of the last session, and the end of no other is to come. -/
structure Alone (n : AlignmentNode A B C T) : Prop where
  flag : n.toTransactions.foldl flagAfter n.transactionService.alignmentInProgress =
    !n.threads.isEmpty
  single : n.threads.length ≤ 1
  threads : ∀ t ∈ n.threads, t.session = n.started
  ended : ∀ queued ∈ n.toBlock, queued.msg = .alignmentEnded → queued.session = some n.started

section Deliveries

variable {n : AlignmentNode A B C T} {session : Option Nat} {o : Output A B C T}
  {out : List (Output A B C T)}

theorem Alone.queue (h : n.Alone) {msg : Msg A B C T}
    (last : msg = .alignmentEnded → session = some n.started) :
    (deliver session n (.msg .blockService msg)).Alone where
  flag := h.flag
  single := h.single
  threads := h.threads
  ended queued hqueued ended := by
    rcases List.mem_append.mp hqueued with hqueued | hqueued
    · exact h.ended queued hqueued ended
    · obtain rfl := List.mem_singleton.mp hqueued
      exact last ended

theorem Alone.deliver (h : n.Alone) (quiet : Quiet o) : (deliver session n o).Alone := by
  cases o with
  | msg dest msg =>
    cases dest with
    | blockService =>
      refine h.queue fun ended => ?_
      subst ended
      exact quiet.elim
    | transactionService =>
      refine ⟨?_, h.single, h.threads, h.ended⟩
      change (n.toTransactions ++ [msg]).foldl _ _ = _
      rw [List.foldl_append, List.foldl_cons, List.foldl_nil, flagAfter_quiet quiet]
      exact h.flag
    | _ => exact h
  | alignmentThread height trustedPeers => exact quiet.elim
  | alignmentStep height =>
    refine ⟨?_, ?_, fun t ht => ?_, h.ended⟩
    · refine h.flag.trans ?_
      simp [AlignmentNode.deliver]
    · simpa [AlignmentNode.deliver] using h.single
    · obtain ⟨t, hmem, rfl⟩ := List.mem_map.mp ht
      have last := h.threads t hmem
      split
      · exact last
      · exact last
  | _ => exact h

theorem Alone.post (h : n.Alone) (quiet : ∀ o ∈ out, Quiet o) : (n.post session out).Alone := by
  induction out generalizing n with
  | nil => exact h
  | cons o out ih =>
    rw [List.forall_mem_cons] at quiet
    exact ih (h.deliver quiet.1) quiet.2

theorem alone_start [Executable B] (keypair : TrinciKeyPair) (nodeId : String) (block : Option B) :
    (start keypair nodeId block : AlignmentNode A B C T).Alone where
  flag := rfl
  single := Nat.zero_le _
  threads _ ht := by cases ht
  ended _ hqueued := by cases hqueued

theorem Alone.flagged (h : n.Alone) : n.Flagged := by
  intro settled
  have flag := h.flag
  rw [settled.toTransactions, List.foldl_nil] at flag
  rw [flag]
  simp

end Deliveries

section Steps

variable [Primitives] [Executable B] [Confirmable C] [Transactable T] [Serialize T] [DecidableEq A]
  {n n' : AlignmentNode A B C T} {input : AlignmentInput A B C T} {out : List (Output A B C T)}

omit [Primitives] [Executable B] [Confirmable C] [Serialize T] [DecidableEq A] [Transactable T] in
theorem quiet_of_arrives {dest : Service} {msg : Msg A B C T} (h : ofAlignment msg = false) :
    Quiet (.msg dest msg) := by
  cases msg <;> trivial

omit [Primitives] [Executable B] [Confirmable C] [Serialize T] [DecidableEq A] [Transactable T] in
/-- The only thread goes on. -/
theorem Alone.act (h : n.Alone) {index : Nat} {t : AlignmentThread} {next : Option AlignmentThread}
    (ht : n.threads[index]? = some t) (hact : t.act = (next, out)) :
    (AlignmentNode.post (some t.session) { n with threads := replaceThread n.threads index next }
      out).Alone := by
  obtain ⟨below, hget⟩ := List.getElem?_eq_some_iff.mp ht
  have single := h.single
  obtain rfl : index = 0 := by omega
  have only : n.threads = [t] := by
    obtain ⟨t', ht'⟩ := List.length_eq_one_iff.mp (show n.threads.length = 1 by omega)
    simp only [ht', List.getElem_cons_zero] at hget
    rw [ht', hget]
  have last : t.session = n.started := h.threads t (by simp [only])
  have running : ∀ t' : AlignmentThread, t'.session = t.session →
      Alone { n with threads := replaceThread n.threads 0 (some t') } := by
    intro t' same
    refine ⟨?_, ?_, fun t'' ht'' => ?_, h.ended⟩
    · refine h.flag.trans ?_
      simp [only, replaceThread]
    · simp [only, replaceThread]
    · have : t'' = t' := by simpa [only, replaceThread] using ht''
      rw [this, same, last]
  have tells : ∀ (t' : AlignmentThread) (msg : Msg A B C T), t'.session = t.session →
      (AlignmentNode.post (some t.session)
        { n with threads := replaceThread n.threads 0 (some t') } [.msg .blockService msg]).Alone :=
    fun t' msg same => (running t' same).queue fun _ => congrArg some last
  unfold AlignmentThread.act at hact
  split at hact
  · split at hact
    · cases hact
      exact tells _ _ rfl
    · cases hact
      exact tells _ _ rfl
  · cases hact
    exact running _ rfl
  · cases hact
    exact tells _ _ rfl
  · cases hact
    refine ⟨?_, ?_, ?_, h.ended⟩
    · change (n.toTransactions ++ [Msg.alignmentEnded]).foldl _ _ = _
      rw [List.foldl_append]
      simp [AlignmentNode.post, AlignmentNode.deliver, only, replaceThread, flagAfter]
    · simp [AlignmentNode.post, AlignmentNode.deliver, only, replaceThread]
    · simp [AlignmentNode.post, AlignmentNode.deliver, only, replaceThread]

theorem Alone.step (h : n.Alone) (hstep : n.handle input = .ok (n', out))
    (alone : StartsAlone ⟨n, input, out, n'⟩) : n'.Alone := by
  cases input with
  | arrive dest msg =>
    simp only [handle] at hstep
    split at hstep
    · cases hstep
    · next other =>
      cases hstep
      refine h.post fun o ho => ?_
      obtain rfl := List.mem_singleton.mp ho
      exact quiet_of_arrives (Bool.eq_false_iff.mpr other)
  | block env =>
    simp only [handle] at hstep
    split at hstep
    · cases hstep
    · next queued rest hqueue =>
      split at hstep
      · cases hstep
      · next blockService sent hblock =>
        cases hstep
        have taken : (Alone { n with blockService := blockService, toBlock := rest }) := by
          refine ⟨h.flag, h.single, h.threads, fun later hlater => h.ended later ?_⟩
          rw [hqueue]
          exact List.mem_cons_of_mem _ hlater
        rcases BlockService.handleMessages_sessions hblock with
          ⟨aligns, -, height, trustedPeers, rfl⟩ | ⟨-, quiet⟩
        · obtain ⟨free, left⟩ := alone env queued rest rfl hqueue aligns
          have free : n.threads = [] := free
          refine ⟨?_, ?_, ?_, fun later hlater ended => absurd ended (left later hlater)⟩
          · change (n.toTransactions ++ [Msg.alignmentStarted]).foldl _ _ = _
            rw [List.foldl_append]
            simp [AlignmentNode.post, AlignmentNode.deliver, free, flagAfter]
          · simp [AlignmentNode.post, AlignmentNode.deliver, free]
          · simp [AlignmentNode.post, AlignmentNode.deliver, free]
        · exact taken.post quiet
  | transactions now =>
    simp only [handle] at hstep
    split at hstep
    · cases hstep
    · next msg rest hqueue =>
      split at hstep
      · cases hstep
      · next transactionService sent hpool =>
        cases hstep
        obtain ⟨flag, quiet⟩ := TransactionService.handleMessages_flag hpool
        have taken : (Alone { n with
            transactionService := transactionService, toTransactions := rest }) := by
          refine ⟨?_, h.single, h.threads, h.ended⟩
          have before := h.flag
          rw [hqueue, List.foldl_cons] at before
          exact flag ▸ before
        exact taken.post quiet
  | thread index =>
    simp only [handle] at hstep
    split at hstep
    · cases hstep
    · next t ht =>
      cases hstep
      exact h.act ht rfl

/-- In every run whose sessions start alone, the end of one leaves the sender of every later one,
and the flag tells whether a thread runs. -/
theorem run_sessions {keypair : TrinciKeyPair} {nodeId : String} {block : Option B}
    {trace : List (AlignmentEvent A B C T)}
    (run : Run (Computes handle) (start keypair nodeId block) trace n)
    (alone : Along (fun _ e => StartsAlone e) trace) :
    Along (fun _ e => EndsOwn e) trace ∧ n.Flagged := by
  refine ⟨?_, ?_⟩
  · refine run.along (fun _ n => Alone n) (alone_start _ _ _) ?_ ?_ alone
    · exact fun _ _ _ _ _ h hstep alone => h.step hstep alone
    · intro trace s m out s' h _ _ env session rest hinput hqueue held
      have own := h.ended _ (hqueue ▸ List.mem_cons_self) rfl
      rw [Option.some.injEq] at own
      exact own ▸ Nat.lt_irrefl _
  · refine (run.invariant (fun _ n => Alone n) (alone_start _ _ _) ?_ alone).flagged
    exact fun _ _ _ _ _ h hstep alone => h.step hstep alone

end Steps

end AlignmentNode

/-! ## Two sessions -/

namespace Sample

open AlignmentNode

/-- The first state of alice's services. -/
def unaligned : AlignmentNode Hash Block Confirmation Transaction :=
  AlignmentNode.start (keypair 1) "alice" none

/-- The answers where the only neighbor has three blocks and gives none of them. -/
def stingyEnv : BlockEnv Hash Block Confirmation Transaction where
  now := 1
  isLeader := .failed
  builtFrom := .failed
  unconfirmedHashes := .failed
  actualPlayers := .failed
  actualPlayersAgain := .failed
  getTxs _ := .failed
  getFullBlock _ := .failed
  getNeighbors := .answer ["bob"]
  getLastBlockInfo _ := .answer ⟨3, Hash.default⟩
  iterate := id

abbrev SessionInput := AlignmentInput Hash Block Confirmation Transaction

/-- A session starts, and the retrieval of its first block fails. -/
def failsRetrieval : List SessionInput :=
  [.arrive .blockService (.heightFromPeer 3), .block stingyEnv, .transactions fun _ => 0, .thread 0,
    .block stingyEnv]

/-- The thread at the index waits in vain, and both services take the end of its session. -/
def endsSession : List SessionInput :=
  [.thread 0, .block stingyEnv, .thread 0, .transactions fun _ => 0]

def startsSession : List SessionInput :=
  [.arrive .blockService (.heightFromPeer 3), .block stingyEnv, .transactions fun _ => 0]

def isEnd : Msg Hash Block Confirmation Transaction → Bool
  | .alignmentEnded => true
  | _ => false

/-- Whether the sender is dropped at the end of an earlier session. -/
def dropsOther (e : AlignmentEvent Hash Block Confirmation Transaction) : Bool :=
  match e.input, e.before.toBlock with
  | .block _, ⟨.alignmentEnded, some session⟩ :: _ =>
    e.before.blockService.alignmentSender && decide (session < e.before.started)
  | _, _ => false

theorem not_endsOwn {e : AlignmentEvent Hash Block Confirmation Transaction}
    (h : dropsOther e = true) : ¬ EndsOwn e := by
  intro own
  unfold dropsOther at h
  split at h
  · next env session rest hinput hqueue =>
    rw [Bool.and_eq_true, decide_eq_true_eq] at h
    exact own env session rest hinput hqueue h.1 h.2
  · cases h

/-- Whether a thread runs that the flag does not tell of, with no message in flight. -/
def unflagged (n : AlignmentNode Hash Block Confirmation Transaction) : Bool :=
  n.toBlock.isEmpty && n.toTransactions.isEmpty && n.threads.all (·.newHeights.isEmpty) &&
    !n.threads.isEmpty && !n.transactionService.alignmentInProgress

theorem not_flagged {n : AlignmentNode Hash Block Confirmation Transaction}
    (h : unflagged n = true) : ¬ n.Flagged := by
  simp only [unflagged, Bool.and_eq_true, List.isEmpty_iff, List.all_eq_true,
    Bool.not_eq_true', List.isEmpty_eq_false_iff] at h
  obtain ⟨⟨⟨⟨toBlock, toTransactions⟩, newHeights⟩, running⟩, flag⟩ := h
  intro flagged
  have told := (flagged ⟨toBlock, toTransactions, newHeights⟩).mpr running
  rw [flag] at told
  cases told

/-- A session starts where the thread of the failed one has not ended: the end of the first
drops the sender of the second, whose thread goes on with the flag cleared. -/
theorem second_session_dropped : ∃ trace n,
    Run (Computes AlignmentNode.handle) unaligned trace n ∧
    trace.map Event.input = failsRetrieval ++ startsSession ++ endsSession ∧
    ¬ Along (fun _ e => EndsOwn e) trace ∧ ¬ n.Flagged := by
  have run := traceOf_run (f := AlignmentNode.handle) (s := unaligned)
    (l := failsRetrieval ++ startsSession ++ endsSession) (by decide +kernel)
  refine ⟨_, _, run, rfl, fun along => ?_, not_flagged (by decide +kernel)⟩
  have some : (traceOf AlignmentNode.handle unaligned
      (failsRetrieval ++ startsSession ++ endsSession)).any dropsOther = true := by decide +kernel
  obtain ⟨e, he, drops⟩ := List.any_eq_true.mp some
  exact not_endsOwn drops (along_iff_forall.mp along e he)

/-- Whether nothing is left of the earlier sessions where one may start. -/
def startsClean (e : AlignmentEvent Hash Block Confirmation Transaction) : Bool :=
  match e.input, e.before.toBlock with
  | .block _, queued :: rest =>
    match queued.msg with
    | .detectedPossibleMisalignment =>
      e.before.threads.isEmpty && rest.all fun later => !isEnd later.msg
    | .heightFromPeer _ => e.before.threads.isEmpty && rest.all fun later => !isEnd later.msg
    | _ => true
  | _, _ => true

theorem startsAlone_of_clean {e : AlignmentEvent Hash Block Confirmation Transaction}
    (h : startsClean e = true) : StartsAlone e := by
  intro env queued rest hinput hqueue aligns
  have clean : (e.before.threads.isEmpty && rest.all fun later => !isEnd later.msg) = true := by
    simp only [startsClean, hinput, hqueue] at h
    split at h
    · exact h
    · exact h
    · next other detected above =>
      unfold BlockService.Aligns at aligns
      split at aligns
      · next same => exact absurd same detected
      · next same => exact absurd same (above _)
      · exact aligns.elim
  rw [Bool.and_eq_true, List.isEmpty_iff, List.all_eq_true] at clean
  refine ⟨clean.1, fun later hlater ended => ?_⟩
  have open_ := clean.2 later hlater
  rw [ended] at open_
  cases open_

/-- A session starts after the end of the one that failed. -/
theorem second_session_kept : ∃ trace n,
    Run (Computes AlignmentNode.handle) unaligned trace n ∧
    trace.map Event.input = failsRetrieval ++ endsSession ++ startsSession ∧
    Along (fun _ e => EndsOwn e) trace ∧ n.Flagged ∧
    n.transactionService.alignmentInProgress = true := by
  have run := traceOf_run (f := AlignmentNode.handle) (s := unaligned)
    (l := failsRetrieval ++ endsSession ++ startsSession) (by decide +kernel)
  have clean : Along (fun _ e => startsClean e = true) (traceOf AlignmentNode.handle unaligned
      (failsRetrieval ++ endsSession ++ startsSession)) := along_of_all (by decide +kernel)
  obtain ⟨ends, flagged⟩ := run_sessions run (clean.imp fun _ _ h => startsAlone_of_clean h)
  exact ⟨_, _, run, rfl, ends, flagged, by decide +kernel⟩

end Sample

end Trinci
