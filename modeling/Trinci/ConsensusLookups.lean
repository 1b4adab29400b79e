import Trinci.ConsensusBlocks
import Trinci.ConsensusVotes

/-!
# The proposal of a block whose execution ended

A block handed over for execution comes back in `BlockExecutionEnded`, which
expects a proposal for it in the round the service is in by then. The service
goes on meanwhile: a timeout or an alignment moves the round and a consolidation
drops the proposals up to its height. When a block is handed over in its own
round and keeps a proposal of the current round while it is executed, the
proposal is found.
-/

namespace Trinci

open StepMachines

universe u

variable {A B C T : Type u} [Executable B]

/-- The block this output hands over for execution, by hash and height. -/
def Output.handed : Output A B C T → Option (Hash × UInt64)
  | .msg .blockService (.blockFromPeer block _ _) =>
    some (Executable.getHash block, Executable.getHeight block)
  | _ => none

namespace ConsensusService

variable [Confirmable C]

/-- The blocks a handled message sends to execution. The block of an alignment is
executed by the service that sends its confirmations. -/
def handedOver (msg : Msg A B C T) (out : List (Output A B C T)) : List (Hash × UInt64) :=
  match msg with
  | .proposalFromAlignmentBlock (first :: _) =>
    [(Confirmable.getBlockHash first, Confirmable.getBlockHeight first)]
  | _ => out.filterMap Output.handed

/-- The blocks in execution after one more event. -/
def executingAfter (running : List (Hash × UInt64))
    (e : Event (ConsensusService B C) (Input A B C T) (Output A B C T)) :
    List (Hash × UInt64) :=
  (match e.input.msg with
    | .blockExecutionEnded block _ =>
      running.erase (Executable.getHash block, Executable.getHeight block)
    | _ => running) ++ handedOver e.input.msg e.out

/-- The blocks handed over along a trace whose execution did not end yet. -/
def executing (trace : Trace A B C T) : List (Hash × UInt64) :=
  trace.foldl executingAfter []

/-- The message does not drop the proposals of the block's height. -/
def spares (msg : Msg A B C T) (block : Hash × UInt64) : Bool :=
  match msg with
  | .blockConsolidated consolidated _ _ => Executable.getHeight consolidated < block.2
  | _ => true

/-- The block has a proposal of the round the message moves to, in the table or by
the confirmations the message brings. -/
def proposedInRound (s : ConsensusService B C) (msg : Msg A B C T) (block : Hash × UInt64) :
    Bool :=
  (s.findProposal block.1 block.2 (s.roundAfter msg)).isSome ||
    match (s.incoming msg).1 with
    | [] => false
    | first :: _ => Confirmable.getBlockHash first == block.1 &&
        Confirmable.getBlockHeight first == block.2 &&
        Confirmable.getBlockRound first == s.roundAfter msg

/-- A message does not disturb the blocks in execution: it keeps the round, or moves
to one in which they are proposed, and spares their height. -/
def undisturbed (running : List (Hash × UInt64)) (s : ConsensusService B C)
    (msg : Msg A B C T) : Bool :=
  running.all fun block =>
    (s.roundAfter msg == s.actualRound || s.proposedInRound msg block) && spares msg block

/-- A block is handed over in the round it is proposed in. -/
def handedInRound (e : Event (ConsensusService B C) (Input A B C T) (Output A B C T)) : Bool :=
  (handedOver e.input.msg e.out).all fun block =>
    e.before.proposedInRound e.input.msg block && spares e.input.msg block

section Effects

variable [Primitives] [DecidableEq C] {env : Env} {s₀ s s' : ConsensusService B C}
  {msg : Msg A B C T} {out : List (Output A B C T)}

omit [Primitives] [Executable B] [Confirmable C] [DecidableEq C] in
/-- Dropping the lower groups keeps the lookups above. -/
theorem findProposal_filter (hash : Hash) {height dropped : UInt64} (round : UInt8)
    (above : dropped < height) :
    ({ s with blockProposals := s.blockProposals.filter fun group => dropped < group.1 } :
      ConsensusService B C).findProposal hash height round = s.findProposal hash height round := by
  simp only [findProposal, List.find?_filter]
  congr 2
  funext group
  by_cases hgroup : group.1 = height
  · simp [hgroup, above]
  · simp [hgroup]

/-- A proposal of the round a message moves to stays, if its height is spared. -/
theorem effect_findProposal {block : Hash × UInt64} (spared : spares msg block = true)
    (found : (s.findProposal block.1 block.2 (s₀.roundAfter msg)).isSome)
    (effect : Effect env s₀ msg s out s') :
    (s'.findProposal block.1 block.2 (s₀.roundAfter msg)).isSome := by
  cases effect with
  | tidy htidied hround =>
    rw [← hround] at found ⊢
    exact findProposal_tidied htidied found
  | update source hupdate =>
    obtain ⟨first, rest, rfl⟩ := updateProposals_cons hupdate
    refine findProposal_updateProposals hupdate ?_
    rwa [findProposal_congr (source_blockProposals source)]
  | @consolidated b _ _ _ _ hmsg _ =>
    have habove : Executable.getHeight b < block.2 := by simpa [hmsg, spares] using spared
    rw [← findProposal_filter block.1 (s₀.roundAfter msg) habove] at found
    exact found
  | _ => exact found

/-- The round is the one the message moves to from then on. -/
theorem effect_actualRound (h : s.actualRound = s₀.roundAfter msg)
    (effect : Effect env s₀ msg s out s') : s'.actualRound = s₀.roundAfter msg := by
  cases effect with
  | timeout _ _ hround => exact hround.symm
  | align hmsg => simp [hmsg, roundAfter]
  | update source hupdate =>
    rw [updateProposals_eq hupdate]
    cases source <;> exact h
  | consolidated hmsg _ => simp [hmsg, roundAfter, resetProposals]
  | _ => exact h

/-- One message leaves a proposal of its round in place. -/
theorem handle_findProposal {input : Input A B C T} (step : s.handle input = .ok (s', out))
    {block : Hash × UInt64} (spared : spares input.msg block = true)
    (found : (s.findProposal block.1 block.2 (s.roundAfter input.msg)).isSome) :
    (s'.findProposal block.1 block.2 (s.roundAfter input.msg)).isSome := by
  obtain ⟨out', chain, -⟩ := handleMessages_effects step
  refine Chain.invariant (fun _ t =>
    (t.findProposal block.1 block.2 (s.roundAfter input.msg)).isSome) ?_ chain found
  intro _ t _ t' hfound effect
  exact effect_findProposal spared hfound effect

theorem checkNextRoundProposals_actualRound {height : UInt64} {round : UInt8} {found : Bool}
    (idle : s.consolidationInProgress ≠ some height) (current : s.actualRound = round)
    (h : s.checkNextRoundProposals env height round = .ok (found, s', out)) :
    s'.actualRound = round := by
  have hafter : s.actualRound =
      s.roundAfter (.blockElectionFailed height round : Msg A B C T) := by
    simp [roundAfter, idle, current]
  have chain : Chain (Effect env s (.blockElectionFailed height round)) s out s' :=
    chain_checkNextRoundProposals rfl idle rfl hafter h
  have hmoved := Chain.invariant (fun _ t => t.actualRound = s.roundAfter
    (.blockElectionFailed height round : Msg A B C T))
    (fun _ t _ t' hround effect => effect_actualRound hround effect) chain hafter
  rw [hmoved, ← hafter, current]

/-- The round after a message. -/
theorem handle_actualRound {input : Input A B C T} (step : s.handle input = .ok (s', out)) :
    s'.actualRound = s.roundAfter input.msg := by
  obtain ⟨env, msg⟩ := input
  have kept : s.actualRound = s.roundAfter msg → s'.actualRound = s.roundAfter msg := by
    intro hsame
    obtain ⟨out', chain, -⟩ := handleMessages_effects step
    exact Chain.invariant (fun _ t => t.actualRound = s.roundAfter msg)
      (fun _ t _ t' hround effect => effect_actualRound hround effect) chain hsame
  cases msg with
  | blockElectionFailed height round =>
    by_cases hbusy : s.consolidationInProgress = some height
    · exact kept (by simp [roundAfter, hbusy])
    · simp only [handle, handleMessages, if_neg hbusy] at step
      obtain ⟨⟨found, s₁, out₁⟩, hcheck, h⟩ := bind_eq_ok.mp step
      simp only [pure, Except.pure, Except.ok.injEq, Prod.mk.injEq] at h
      obtain ⟨rfl, -⟩ := h
      have hmoved := checkNextRoundProposals_actualRound (by exact hbusy) rfl hcheck
      simpa [roundAfter, hbusy] using hmoved
  | blockConsolidated block txsHashes players =>
    simp only [handle, handleMessages] at step
    obtain ⟨⟨s₁, out₁⟩, hdraw, h⟩ := bind_eq_ok.mp step
    simp only [pure, Except.pure, Except.ok.injEq, Prod.mk.injEq] at h
    obtain ⟨rfl, -⟩ := h
    obtain ⟨⟨leader, rfl⟩, -⟩ := drawNewLeader_ok hdraw
    rfl
  | proposalFromAlignmentBlock confirmations =>
    cases confirmations with
    | nil => exact kept rfl
    | cons first rest =>
      simp only [handle, handleMessages] at step
      obtain ⟨s₁, hupdate, h⟩ := bind_eq_ok.mp step
      simp only [pure, Except.pure, Except.ok.injEq, Prod.mk.injEq] at h
      obtain ⟨rfl, -⟩ := h
      rw [updateProposals_eq hupdate]
      rfl
  | _ => exact kept rfl

omit [Primitives] [Executable B] in
/-- A guarded quorum check after an update leaves the updated key stored. -/
theorem findKey_guarded_quorum {t : ConsensusService B C} {first : C} {rest : List C}
    {block : Option (B × List Hash)} {hash : Hash} {height : UInt64} {round : UInt8}
    (update : t.updateProposals env (first :: rest) block = .ok s)
    (h : (if s.consolidationInProgress.isNone then
        s.verifyBlockProposalQuorum hash height round else pure (s, [])) = .ok (s', out)) :
    (s'.findKey first).isSome := by
  have hstored := findKey_updateProposals update
  split_ifs at h
  · rcases verifyBlockProposalQuorum_ok h with ⟨rfl, -⟩ | ⟨-, _, _, _, -, -, -, -, rfl, -⟩
    · exact hstored
    · exact hstored
  · simp only [pure, Except.pure, Except.ok.injEq, Prod.mk.injEq] at h
    exact h.1 ▸ hstored

/-- The confirmations a message brings are stored under the key of the first. -/
theorem handle_takes {input : Input A B C T} (step : s.handle input = .ok (s', out))
    {first : C} {rest : List C} (taken : (s.incoming input.msg).1 = first :: rest) :
    (s'.findKey first).isSome := by
  obtain ⟨env, msg⟩ := input
  cases msg with
  | blockConfirmationFromPeer confirmation =>
    simp only [incoming] at taken
    split_ifs at taken with haccept
    · obtain ⟨rfl, -⟩ := List.cons.inj taken
      simp only [handle, handleMessages, if_pos haccept] at step
      obtain ⟨s₁, hupdate, h⟩ := bind_eq_ok.mp step
      exact findKey_guarded_quorum hupdate h
  | blockFromPeer block confirmation txsHashes =>
    simp only [incoming] at taken
    split_ifs at taken with haccept
    · obtain ⟨rfl, -⟩ := List.cons.inj taken
      obtain ⟨hidle, hverify, haccept⟩ := haccept
      simp only [handle, handleMessages, handleBlockFromPeer, if_neg hidle, if_pos hverify,
        if_pos haccept] at step
      obtain ⟨s₁, hupdate, h⟩ := bind_eq_ok.mp step
      simp only [pure, Except.pure, Except.ok.injEq, Prod.mk.injEq] at h
      obtain ⟨rfl, -⟩ := h
      exact findKey_updateProposals hupdate
  | proposalFromAlignmentBlock confirmations =>
    obtain rfl : confirmations = first :: rest := taken
    simp only [handle, handleMessages] at step
    obtain ⟨s₁, hupdate, h⟩ := bind_eq_ok.mp step
    simp only [pure, Except.pure, Except.ok.injEq, Prod.mk.injEq] at h
    obtain ⟨rfl, -⟩ := h
    exact findKey_updateProposals hupdate
  | verifyConfirmations block confirmations =>
    cases confirmations with
    | nil => cases taken
    | cons head tail =>
      simp only [incoming] at taken
      split_ifs at taken with haccept
      · obtain ⟨rfl, rfl⟩ := List.cons.inj taken
        simp only [handle, handleMessages, verifyConfirmationsFromPeer] at step
        split_ifs at step with hrejected
        · exfalso
          revert hrejected
          simpa [not_or, and_assoc] using haccept
        · obtain ⟨s₁, hupdate, h⟩ := bind_eq_ok.mp step
          cases block with
          | some entry =>
            simp only [pure, Except.pure, Except.ok.injEq, Prod.mk.injEq] at h
            obtain ⟨rfl, -⟩ := h
            exact findKey_updateProposals hupdate
          | none => exact findKey_guarded_quorum hupdate h
  | _ => cases taken

omit [Primitives] [Executable B] in
theorem updateProposals_error {confirmations : List C} {block : Option (B × List Hash)}
    {e : ConsensusPanic} (h : s.updateProposals env confirmations block = .error e) :
    e = .updateWithoutConfirmation := by
  cases confirmations with
  | nil => exact (Except.error.inj h).symm
  | cons first rest => cases h

omit [Primitives] [Executable B] [DecidableEq C] in
theorem verifyBlockProposalQuorum_error {hash : Hash} {height : UInt64} {round : UInt8}
    {e : ConsensusPanic} (h : (s.verifyBlockProposalQuorum hash height round :
      Except ConsensusPanic (_ × List (Output A B C T))) = .error e) :
    e = .quorumWithoutProposal := by
  unfold verifyBlockProposalQuorum at h
  cases hfind : s.findProposal hash height round with
  | none =>
    simp only [hfind, Except.error.injEq] at h
    exact h.symm
  | some proposal =>
    simp only [hfind] at h
    repeat' split at h
    all_goals cases h

/-- The lookup is the only source of its panic. -/
theorem executionWithoutProposal_iff {block : B} {txsHashes : List Hash} :
    s.handleMessages env (.blockExecutionEnded block txsHashes : Msg A B C T) =
        .error .executionWithoutProposal ↔
      s.findProposal (Executable.getHash block) (Executable.getHeight block) s.actualRound =
        none := by
  simp only [handleMessages, handleBlockExecutionEnded]
  cases hfind : s.findProposal (Executable.getHash block) (Executable.getHeight block)
      s.actualRound with
  | none => simp
  | some proposal =>
    simp only [reduceCtorEq, iff_false]
    intro h
    rcases bind_eq_error.mp h with h | ⟨t, -, h⟩
    · exact absurd (updateProposals_error h) (by simp)
    · by_cases hidle : t.consolidationInProgress.isNone
      · simp only [hidle, if_true] at h
        rcases bind_eq_error.mp h with h | ⟨_, -, h⟩
        · exact absurd (verifyBlockProposalQuorum_error h) (by simp)
        · cases h
      · simp only [hidle] at h
        cases h

/-- A block that is proposed in the round of a message that spares it has a proposal
of the current round afterwards. -/
theorem handle_proposed {input : Input A B C T} (step : s.handle input = .ok (s', out))
    {block : Hash × UInt64} (spared : spares input.msg block = true)
    (proposed : s.proposedInRound input.msg block = true) :
    (s'.findProposal block.1 block.2 s'.actualRound).isSome := by
  rw [handle_actualRound step]
  rw [proposedInRound, Bool.or_eq_true] at proposed
  rcases proposed with hfound | hbrought
  · exact handle_findProposal step spared hfound
  · cases htaken : (s.incoming input.msg).1 with
    | nil => simp [htaken] at hbrought
    | cons first rest =>
      simp only [htaken, Bool.and_eq_true, beq_iff_eq] at hbrought
      obtain ⟨⟨hhash, hheight⟩, hround⟩ := hbrought
      have hstored := handle_takes step htaken
      rwa [findKey, hhash, hheight, hround] at hstored

/-- Over every run in which blocks are handed over in their round and not disturbed
while they are executed, the end of an execution finds its proposal. -/
theorem executed_proposal_found {trace : Trace A B C T}
    (run : Run (Computes handle) s₀ trace s)
    (handed : Along (fun _ e => handedInRound e = true) trace)
    (calm : Along (fun earlier e =>
      undisturbed (executing earlier) e.before e.input.msg = true) trace)
    (env : Env) {block : B} (txsHashes : List Hash)
    (running : (Executable.getHash block, Executable.getHeight block) ∈ executing trace) :
    (s.findProposal (Executable.getHash block) (Executable.getHeight block)
        s.actualRound).isSome ∧
      s.handleMessages env (.blockExecutionEnded block txsHashes : Msg A B C T) ≠
        .error .executionWithoutProposal := by
  have kept : ∀ k ∈ executing trace, (s.findProposal k.1 k.2 s.actualRound).isSome := by
    refine run.invariant (fun trace s =>
      ∀ k ∈ executing trace, (s.findProposal k.1 k.2 s.actualRound).isSome) ?_ ?_
      (handed.and calm)
    · simp [executing]
    · rintro trace t m out t' hinv hstep ⟨hhanded, hcalm⟩ k hk
      rw [executing, List.foldl_append, List.foldl_cons, List.foldl_nil, executingAfter,
        List.mem_append] at hk
      rcases hk with hk | hk
      · have hrunning : k ∈ executing trace := by
          split at hk
          · exact List.mem_of_mem_erase hk
          · exact hk
        have hone := List.all_eq_true.mp hcalm k hrunning
        simp only [Bool.and_eq_true, Bool.or_eq_true, beq_iff_eq] at hone
        obtain ⟨hround | hproposed, hspared⟩ := hone
        · rw [handle_actualRound hstep]
          refine handle_findProposal hstep hspared ?_
          rw [hround]
          exact hinv k hrunning
        · exact handle_proposed hstep hspared hproposed
      · have hone := List.all_eq_true.mp hhanded k hk
        rw [Bool.and_eq_true] at hone
        exact handle_proposed hstep hone.2 hone.1
  have hfound := kept _ running
  refine ⟨hfound, fun hpanic => ?_⟩
  rw [executionWithoutProposal_iff.mp hpanic] at hfound
  simp at hfound

end Effects

end ConsensusService

/-! ## A timeout during an execution -/

namespace Sample

open ConsensusService StepMachines

/-- Bob executes alice's block of round zero when he times out to round one. -/
def bobTimesOut : List NodeInput :=
  [input (.blockFromPeer (block 1 1 0) (confirmation 1 (block 1 1 0) 0) []),
    input (.blockElectionFailed 1 1)]

/-- The end of the execution finds no proposal of round one. -/
theorem bob_panics :
    Run (Computes handle) (node 2 3) (traceOf handle (node 2 3) bobTimesOut)
        (finalOf handle (node 2 3) bobTimesOut) ∧
      ((block 1 1 0).getHash, (block 1 1 0).data.height) ∈
        executing (traceOf handle (node 2 3) bobTimesOut) ∧
      (finalOf handle (node 2 3) bobTimesOut).handle
          (input (.blockExecutionEnded (block 1 1 0) [])) =
        .error .executionWithoutProposal := by
  refine ⟨traceOf_run (by decide +kernel), by decide +kernel, ?_⟩
  exact executionWithoutProposal_iff.mpr (Option.isNone_iff_eq_none.mp (by decide +kernel))

/-- Without the timeout the proposal is found. -/
theorem bob_finds_proposal :
    ((finalOf handle (node 2 3) (bobTimesOut.take 1)).findProposal
        (Executable.getHash (block 1 1 0)) (Executable.getHeight (block 1 1 0))
        (finalOf handle (node 2 3) (bobTimesOut.take 1)).actualRound).isSome ∧
      (finalOf handle (node 2 3) (bobTimesOut.take 1)).handleMessages (input .buildBlock).env
          (.blockExecutionEnded (block 1 1 0) [] : Msg Hash Block Confirmation Transaction) ≠
        .error .executionWithoutProposal :=
  executed_proposal_found (traceOf_run (by decide +kernel)) (along_of_all (by decide +kernel))
    (along_of_check (by decide +kernel)) _ [] (by decide +kernel)

end Sample

end Trinci
