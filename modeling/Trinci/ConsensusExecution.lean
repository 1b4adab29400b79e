import Trinci.ConsensusBlocks
import Trinci.ConsensusVotes

/-!
# Only executed blocks are confirmed and consolidated

A proposal that stores a block counts as executed: the service votes for it and
asks for its consolidation without waiting any longer. The execution and the
building of a block store it, and so does a peer's answer to a request for
confirmations, before the block was executed here. Apart from such answers,
everything signed or requested is for a block executed earlier.
-/

namespace Trinci

namespace ConsensusService

open StepMachines

universe u

variable {A B C T : Type u} [Executable B]

/-- The hash and the height of the block whose local execution this message reports. -/
def executedBy : Msg A B C T → Option (Hash × UInt64)
  | .blockExecutionEnded block _ => some (Executable.getHash block, Executable.getHeight block)
  | .proposalAfterBuild block _ _ => some (Executable.getHash block, Executable.getHeight block)
  | _ => none

/-- The blocks whose execution was reported along a trace. -/
def executedIn (trace : Trace A B C T) : List (Hash × UInt64) :=
  trace.filterMap fun e => executedBy e.input.msg

/-- Everything signed or requested by an event is for a block in `executed`. -/
structure ForExecuted [Confirmable C] (executed : List (Hash × UInt64))
    (out : List (Output A B C T)) : Prop where
  signed : ∀ c ∈ signedIn out,
    (Confirmable.getBlockHash c, Confirmable.getBlockHeight c) ∈ executed
  started : ∀ request ∈ startedIn out,
    (Executable.getHash request.1, Executable.getHeight request.1) ∈ executed

/-- A block filled in from a peer's answer was executed here before. -/
def fillsExecuted [Confirmable C] (s : ConsensusService B C) (executed : List (Hash × UInt64))
    (msg : Msg A B C T) : Bool :=
  match s.fills msg with
  | some (_, b) => executed.contains (Executable.getHash b, Executable.getHeight b)
  | none => true

variable [Primitives] [Confirmable C] [DecidableEq C] {env : Env}
  {s₀ s s' : ConsensusService B C} {msg : Msg A B C T} {done out : List (Output A B C T)}
  {executed : List (Hash × UInt64)}

/-- The stored blocks were executed, and so was everything sent out so far. -/
structure Executions (executed : List (Hash × UInt64)) (out : List (Output A B C T))
    (s : ConsensusService B C) : Prop where
  sent : ForExecuted executed out
  headed : s.Every Headed
  blocks : s.Every (BlocksAre fun _ _ b =>
    (Executable.getHash b, Executable.getHeight b) ∈ executed)

omit [Primitives] [DecidableEq C] in
theorem ForExecuted.append {xs ys : List (Output A B C T)} (hx : ForExecuted executed xs)
    (hy : ForExecuted executed ys) : ForExecuted executed (xs ++ ys) where
  signed c hc := by
    rw [signedIn_append, List.mem_append] at hc
    rcases hc with hc | hc
    · exact hx.signed c hc
    · exact hy.signed c hc
  started request hrequest := by
    rw [startedIn_append, List.mem_append] at hrequest
    rcases hrequest with hrequest | hrequest
    · exact hx.started request hrequest
    · exact hy.started request hrequest

omit [Primitives] [DecidableEq C] in
theorem forExecuted_quiet (quiet : ∀ o ∈ out, o.Quiet) : ForExecuted executed out :=
  ⟨by simp [signedIn_quiet quiet], by simp [startedIn_quiet quiet]⟩

/-- What one effect sends is for executed blocks. -/
theorem effect_forExecuted (reported : ∀ block, executedBy msg = some block → block ∈ executed)
    (blocks : s.Every (BlocksAre fun _ _ b =>
      (Executable.getHash b, Executable.getHeight b) ∈ executed))
    (effect : Effect env s₀ msg s out s') : ForExecuted executed out := by
  cases effect with
  | timeout _ _ _ => exact forExecuted_quiet (by simp)
  | align _ => exact forExecuted_quiet (by simp)
  | collect _ => exact forExecuted_quiet (by simp)
  | tidy _ _ => exact forExecuted_quiet (by simp)
  | update source _ =>
    cases source with
    | taken _ _ => exact forExecuted_quiet (by simp)
    | executed _ _ => exact forExecuted_quiet (by simp)
    | @voted _ b txsHashes _ _ hcasts _ =>
      have hb : (Executable.getHash b, Executable.getHeight b) ∈ executed := by
        cases hcasts with
        | executed _ => exact reported _ rfl
        | nextRound hheld _ hblock => exact blocks _ _ hheld b txsHashes hblock
      exact ⟨by simpa [signedIn, Output.signed, confirm] using hb,
        by simp [startedIn, Output.started]⟩
    | @built b _ _ hmsg _ =>
      have hb : (Executable.getHash b, Executable.getHeight b) ∈ executed :=
        reported _ (by rw [hmsg, executedBy])
      exact ⟨by simpa [signedIn, Output.signed, confirm] using hb,
        by simp [startedIn, Output.started]⟩
  | @start _ _ b txsHashes _ _ _ _ hfound hblock _ _ =>
    obtain ⟨hheld, -, -⟩ := findProposal_some hfound
    have hb := blocks _ _ hheld b txsHashes hblock
    exact ⟨by simp [signedIn, Output.signed], by simpa [startedIn, Output.started] using hb⟩
  | consolidated _ hquiet => exact forExecuted_quiet hquiet
  | notify hquiet => exact forExecuted_quiet hquiet

theorem effect_executions (reported : ∀ block, executedBy msg = some block → block ∈ executed)
    (filled : ∀ first b, s₀.fills msg = some (first, b) →
      (Executable.getHash b, Executable.getHeight b) ∈ executed) (h : Executions executed done s)
    (effect : Effect env s₀ msg s out s') : Executions executed (done ++ out) s' where
  sent := h.sent.append (effect_forExecuted reported h.blocks effect)
  headed := effect_headed h.headed effect
  blocks := by
    refine effect_blocks (fun _ _ _ hb => hb) filled ?_ ?_ h.headed h.blocks effect
    · intro b txsHashes hmsg
      exact reported _ (by rw [hmsg, executedBy])
    · intro b round txsHashes hmsg
      simpa using reported _ (by rw [hmsg, executedBy])

/-- The stored blocks were executed before the last event, so after it they were
executed up to it. -/
theorem handle_executions {trace : Trace A B C T} {input : Input A B C T}
    (headed : s.Every Headed)
    (blocks : s.Every (BlocksAre fun _ _ b =>
      (Executable.getHash b, Executable.getHeight b) ∈ executedIn trace))
    (step : s.handle input = .ok (s', out))
    (filled : s.fillsExecuted (executedIn trace) input.msg = true) :
    Executions (executedIn (trace ++ [⟨s, input, out, s'⟩])) out s' := by
  have later : ∀ block, block ∈ executedIn trace →
      block ∈ executedIn (trace ++ [⟨s, input, out, s'⟩]) := by
    intro block hblock
    simp only [executedIn, List.filterMap_append, List.mem_append]
    exact Or.inl hblock
  have reported : ∀ block, executedBy input.msg = some block →
      block ∈ executedIn (trace ++ [⟨s, input, out, s'⟩]) := by
    intro block hblock
    simp only [executedIn, List.filterMap_append, List.mem_append]
    exact Or.inr (by simp [hblock])
  have start : Executions (executedIn (trace ++ [⟨s, input, out, s'⟩]))
      ([] : List (Output A B C T)) s :=
    ⟨forExecuted_quiet (by simp), headed, fun height proposal hheld b txsHashes hb =>
      later _ (blocks height proposal hheld b txsHashes hb)⟩
  refine handle_invariant (fun xs t => Executions _ xs t) step start ?_ ?_
  · intro xs ys t hperm h
    refine ⟨⟨fun c hc => h.sent.signed c ?_, fun request hrequest => h.sent.started request ?_⟩,
      h.headed, h.blocks⟩
    · exact (hperm.filterMap _).mem_iff.mpr hc
    · exact (hperm.filterMap _).mem_iff.mpr hrequest
  · intro xs t ys t' h effect
    refine effect_executions reported ?_ h effect
    intro first b hb
    apply later
    simpa [fillsExecuted, hb] using filled

/-- Over every run from an empty table in which a peer's answer only fills in blocks
executed here before, each confirmation signed and each consolidation requested by
an event is for a block whose execution was reported up to that event. -/
theorem signs_and_starts_executed {s₀ s : ConsensusService B C} {trace : Trace A B C T}
    (run : Run (Computes handle) s₀ trace s) (fresh : s₀.blockProposals = [])
    (filled : Along (fun earlier e =>
      e.before.fillsExecuted (executedIn earlier) e.input.msg = true) trace) :
    Along (fun earlier e => ForExecuted (executedIn (earlier ++ [e])) e.out) trace := by
  refine run.along (fun trace s => s.Every Headed ∧ s.Every (BlocksAre fun _ _ b =>
    (Executable.getHash b, Executable.getHeight b) ∈ executedIn trace)) ?_ ?_ ?_ filled
  · exact ⟨every_of_empty fresh, every_of_empty fresh⟩
  · rintro trace s input out s' ⟨hheaded, hblocks⟩ hstep hfilled
    have h := handle_executions hheaded hblocks hstep hfilled
    exact ⟨h.headed, h.blocks⟩
  · rintro trace s input out s' ⟨hheaded, hblocks⟩ hstep hfilled
    exact (handle_executions hheaded hblocks hstep hfilled).sent

omit [Primitives] [DecidableEq C] in
/-- A trace without any reported execution may start nothing. -/
theorem startedIn_eq_nil {trace : Trace A B C T} (none : executedIn trace = [])
    (h : Along (fun earlier e => ForExecuted (executedIn (earlier ++ [e])) e.out) trace) :
    startedIn (outputs trace) = [] := by
  refine List.eq_nil_iff_forall_not_mem.mpr fun request hrequest => ?_
  obtain ⟨o, ho, hstarted⟩ := List.mem_filterMap.mp hrequest
  obtain ⟨e, he, hout⟩ := List.mem_flatMap.mp ho
  obtain ⟨earlier, later, htrace⟩ := List.append_of_mem he
  have hexecuted := (h earlier e later htrace).started request
    (List.mem_filterMap.mpr ⟨o, hout, hstarted⟩)
  have hall : executedIn (earlier ++ [e]) = [] := by
    rw [htrace, List.append_cons, executedIn, List.filterMap_append,
      List.append_eq_nil_iff] at none
    exact none.1
  simp [hall] at hexecuted

end ConsensusService

/-! ## An answer that brings the block -/

namespace Sample

open ConsensusService StepMachines

/-- Carol gets alice's block with two confirmations as the answer to her request,
and then alice's confirmation once more. -/
def carolAsks : List NodeInput :=
  [input (.verifyConfirmations (some (block 1 1 0, []))
      [confirmation 1 (block 1 1 0) 0, confirmation 2 (block 1 1 0) 0]),
    input (.blockConfirmationFromPeer (confirmation 1 (block 1 1 0) 0))]

/-- She asks for the consolidation of a block she never executed. -/
theorem carol_starts_unexecuted :
    Run (Computes handle) (node 3 3) (traceOf handle (node 3 3) carolAsks)
        (finalOf handle (node 3 3) carolAsks) ∧
      ¬ Along (fun earlier e => ForExecuted (executedIn (earlier ++ [e])) e.out)
        (traceOf handle (node 3 3) carolAsks) := by
  refine ⟨traceOf_run (by decide +kernel), fun h => ?_⟩
  have hnone : executedIn (traceOf handle (node 3 3) carolAsks) = [] := by decide +kernel
  have hone : (startedIn (outputs (traceOf handle (node 3 3) carolAsks))).length = 1 := by
    decide +kernel
  rw [startedIn_eq_nil hnone h] at hone
  simp at hone

/-- Bob receives alice's block and executes it. -/
def bobExecutes : List NodeInput :=
  [input (.blockFromPeer (block 1 1 0) (confirmation 1 (block 1 1 0) 0) []),
    input (.blockExecutionEnded (block 1 1 0) [])]

theorem bob_starts_executed :
    (signedIn (outputs (traceOf handle (node 2 3) bobExecutes))).length = 1 ∧
      (startedIn (outputs (traceOf handle (node 2 3) bobExecutes))).length = 1 ∧
      Along (fun earlier e => ForExecuted (executedIn (earlier ++ [e])) e.out)
        (traceOf handle (node 2 3) bobExecutes) :=
  ⟨by decide +kernel, by decide +kernel,
    signs_and_starts_executed (traceOf_run (by decide +kernel)) rfl
      (along_of_check (by decide +kernel))⟩

end Sample

end Trinci
