import Trinci.ConsensusVotes

/-!
# What a consolidation leaves of votes, proposals and blocks

A consolidation drops the proposals up to its height. Of the collected blocks it
drops those of its own height only, and of the votes in `proposal_exit_poll` it
keeps those up to its height and drops the later ones, while the comment above it
says the opposite. Old votes are gone after a consolidation only where there were
no votes before it.
-/

namespace Trinci

namespace ConsensusService

open StepMachines

universe u

variable {A B C T : Type u} [Executable B]

/-- The state after a consolidation of the height keeps the later votes, and no
proposal and no collected block up to the height. -/
structure Pruned (height : UInt64) (s s' : ConsensusService B C) : Prop where
  votes : s'.proposalExitPoll = s.proposalExitPoll.filter fun vote => height < vote.1
  proposals : ∀ group ∈ s'.blockProposals, height < group.1
  collected : ∀ k ∈ s'.blocksCollector.keys, height < k

instance (height : UInt64) (s s' : ConsensusService B C) : Decidable (Pruned height s s') :=
  have : Decidable (∀ k ∈ s'.blocksCollector.keys, height < k) := List.decidableBAll _ _
  decidable_of_iff
    ((s'.proposalExitPoll = s.proposalExitPoll.filter fun vote => height < vote.1) ∧
      (∀ group ∈ s'.blockProposals, height < group.1) ∧
      ∀ k ∈ s'.blocksCollector.keys, height < k)
    ⟨fun h => ⟨h.1, h.2.1, h.2.2⟩, fun h => ⟨h.votes, h.proposals, h.collected⟩⟩

/-- No vote was cast and no block below the height was collected. -/
structure Unburdened (height : UInt64) (s : ConsensusService B C) : Prop where
  votes : s.proposalExitPoll = []
  collected : ∀ k ∈ s.blocksCollector.keys, height ≤ k

instance (height : UInt64) (s : ConsensusService B C) : Decidable (Unburdened height s) :=
  have : Decidable (∀ k ∈ s.blocksCollector.keys, height ≤ k) := List.decidableBAll _ _
  decidable_of_iff
    (s.proposalExitPoll = [] ∧ ∀ k ∈ s.blocksCollector.keys, height ≤ k)
    ⟨fun h => ⟨h.1, h.2⟩, fun h => ⟨h.votes, h.collected⟩⟩

/-- The height of the block that the message consolidates. -/
def consolidatedHeight : Msg A B C T → Option UInt64
  | .blockConsolidated block _ _ => some (Executable.getHeight block)
  | _ => none

/-- The consolidation that this event handles, if any, prunes. -/
def prunes (e : Event (ConsensusService B C) (Input A B C T) (Output A B C T)) : Prop :=
  ∀ height ∈ consolidatedHeight e.input.msg, Pruned height e.before e.after

/-- The consolidation that this event handles, if any, finds nothing to prune. -/
def unburdened (e : Event (ConsensusService B C) (Input A B C T) (Output A B C T)) : Prop :=
  ∀ height ∈ consolidatedHeight e.input.msg, Unburdened height e.before

instance (e : Event (ConsensusService B C) (Input A B C T) (Output A B C T)) :
    Decidable (prunes e) :=
  Option.decidableForallMem (consolidatedHeight e.input.msg)

instance (e : Event (ConsensusService B C) (Input A B C T) (Output A B C T)) :
    Decidable (unburdened e) :=
  Option.decidableForallMem (consolidatedHeight e.input.msg)

/-- No element of a list satisfies what its removal keeps. -/
theorem filter_eq_filter_not_iff {α : Type u} {p : α → Bool} {xs : List α} :
    (xs.filter fun x => !p x) = xs.filter p ↔ xs = [] := by
  constructor
  · intro h
    rw [List.eq_nil_iff_forall_not_mem]
    intro x hx
    have both : x ∈ (xs.filter fun x => !p x) ↔ x ∈ xs.filter p := by rw [h]
    simp only [List.mem_filter, hx, true_and] at both
    cases hp : p x <;> simp [hp] at both
  · rintro rfl
    rfl

variable [Primitives] [Confirmable C] [DecidableEq C] {env : Env} {s s' : ConsensusService B C}

omit [Primitives] [Confirmable C] [DecidableEq C] in
/-- The draw of a leader changes the leader only. -/
theorem drawNewLeader_keeps {block : B} {out : List (Output A B C T)}
    (h : s.drawNewLeader env block = .ok (s', out)) : ∃ leader, s' = { s with leader := leader } := by
  simp only [drawNewLeader] at h
  by_cases hmany : s.players.playersIds.length > 1
  · rw [if_pos hmany] at h
    split at h
    · cases h
      exact ⟨s.leader, rfl⟩
    · split at h
      · cases h
      · cases h
        exact ⟨_, rfl⟩
  · rw [if_neg hmany] at h
    split at h
    · cases h
    · cases h
      exact ⟨_, rfl⟩

/-- The state that a consolidation leaves, up to the leader. -/
theorem blockConsolidated_leaves {block : B} {txsHashes : List Hash} {players : Players}
    {out : List (Output A B C T)}
    (h : s.handleMessages env (.blockConsolidated block txsHashes players) = .ok (s', out)) :
    ∃ leader, s' =
      { ({ s with
            players := players
            blocksCollector := s.blocksCollector.erase (Executable.getHeight block) } :
          ConsensusService B C).resetProposals (Executable.getHash block)
            (Executable.getHeight block) with
        leader := leader
        consolidationInProgress := none } := by
  obtain ⟨⟨t, drawn⟩, hdraw, hok⟩ := bind_eq_ok.mp h
  obtain ⟨leader, rfl⟩ := drawNewLeader_keeps hdraw
  cases hok
  exact ⟨leader, rfl⟩

/-- On a player a consolidation prunes exactly where there is nothing to prune. -/
theorem blockConsolidated_pruned_iff {block : B} {txsHashes : List Hash} {players : Players}
    {out : List (Output A B C T)}
    (h : s.handleMessages env (.blockConsolidated block txsHashes players) = .ok (s', out))
    (player : s'.isPlayer = true) :
    Pruned (Executable.getHeight block) s s' ↔ Unburdened (Executable.getHeight block) s := by
  obtain ⟨leader, rfl⟩ := blockConsolidated_leaves h
  generalize Executable.getHeight block = height at player ⊢
  have kept : (s.proposalExitPoll.filter fun vote => vote.1 ≤ height) =
      s.proposalExitPoll.filter fun vote => !decide (height < vote.1) := by
    refine List.filter_congr fun vote _ => ?_
    rw [← decide_not, decide_eq_decide]
    exact UInt64.not_lt.symm
  have votes : (if s.nodeId ∈ players.playersIds then
      s.proposalExitPoll.filter fun vote => vote.1 ≤ height else s.proposalExitPoll) =
      s.proposalExitPoll.filter fun vote => !decide (height < vote.1) := by
    have member : s.nodeId ∈ players.playersIds := by simpa [isPlayer, resetProposals] using player
    rw [if_pos member, kept]
  constructor
  · rintro ⟨hvotes, -, hcollected⟩
    constructor
    · simp only [resetProposals, isPlayer, List.contains_iff_mem] at hvotes
      rw [votes] at hvotes
      exact filter_eq_filter_not_iff.mp hvotes
    · intro k hk
      by_cases heq : k = height
      · exact UInt64.le_of_eq heq.symm
      · exact UInt64.le_of_lt (hcollected k (AList.mem_erase.mpr ⟨heq, hk⟩))
  · rintro ⟨hvotes, hcollected⟩
    constructor
    · simp only [resetProposals, hvotes, List.filter_nil, ite_self]
    · intro group hgroup
      simpa using (List.mem_filter.mp hgroup).2
    · intro k hk
      obtain ⟨hne, hmem⟩ := AList.mem_erase.mp hk
      exact UInt64.lt_of_le_of_ne (hcollected k hmem) (Ne.symm hne)

/-- In every run on a node that is a player throughout, the consolidations prune
exactly if each of them finds no vote at all and no block of a skipped height. -/
theorem consolidations_prune_iff {s₀ s : ConsensusService B C} {trace : Trace A B C T}
    (run : Run (Computes handle) s₀ trace s)
    (player : Along (fun _ e => e.after.isPlayer = true) trace) :
    Along (fun _ e => prunes e) trace ↔ Along (fun _ e => unburdened e) trace := by
  have each : Along (fun _ e => prunes e ↔ unburdened e) trace := by
    refine run.along (fun _ _ => True) trivial (fun _ _ _ _ _ _ _ _ => trivial) ?_ player
    intro trace s input out s' _ hstep hplayer
    obtain ⟨env, msg⟩ := input
    cases msg with
    | blockConsolidated block txsHashes players =>
      have same := blockConsolidated_pruned_iff hstep hplayer
      simpa only [prunes, unburdened, consolidatedHeight, Option.mem_some_iff, forall_eq'] using same
    | _ => simp only [prunes, unburdened, consolidatedHeight, Option.mem_def, reduceCtorEq,
        IsEmpty.forall_iff, implies_true]
  constructor
  · intro h
    exact (h.and each).imp fun _ e both => both.2.mp both.1
  · intro h
    exact (h.and each).imp fun _ e both => both.2.mpr both.1

end ConsensusService

/-! ## A vote that is never forgotten -/

namespace Sample

open ConsensusService StepMachines

/-- The only player builds for height one, and the block is consolidated. -/
def aliceConsolidates : List NodeInput :=
  [input (.proposalAfterBuild (block 1 1 0) 0 []),
    input (.blockConsolidated (block 1 1 0) [] ⟨["alice"], [1]⟩)]

/-- The vote for height one outlives the consolidation of height one. -/
theorem alice_keeps_vote :
    Run (Computes handle) (node 1 1) (traceOf handle (node 1 1) aliceConsolidates)
        (finalOf handle (node 1 1) aliceConsolidates) ∧
      (∀ e ∈ traceOf handle (node 1 1) aliceConsolidates, e.after.isPlayer = true) ∧
      (finalOf handle (node 1 1) aliceConsolidates).proposalExitPoll = [(1, 0)] ∧
      ¬ Along (fun _ e => prunes e) (traceOf handle (node 1 1) aliceConsolidates) := by
  refine ⟨traceOf_run (by decide +kernel), by decide +kernel, by decide +kernel, fun pruned => ?_⟩
  have unpruned : ∃ e ∈ traceOf handle (node 1 1) aliceConsolidates, ¬ prunes e := by
    decide +kernel
  obtain ⟨e, he, hkept⟩ := unpruned
  exact hkept (along_iff_forall.mp pruned e he)

/-- A player that has not voted yet takes over a block of its peers. -/
def bobConsolidates : List NodeInput :=
  [input (.blockFromPeer (block 1 1 0) (confirmation 1 (block 1 1 0) 0) []),
    input (.blockConsolidated (block 1 1 0) [] (node 2 3).players)]

theorem bob_prunes :
    Along (fun _ e => unburdened e) (traceOf handle (node 2 3) bobConsolidates) ∧
      Along (fun _ e => prunes e) (traceOf handle (node 2 3) bobConsolidates) :=
  have player : Along (fun _ e => e.after.isPlayer = true)
      (traceOf handle (node 2 3) bobConsolidates) := along_iff_forall.mpr (by decide +kernel)
  have clear : Along (fun _ e => unburdened e) (traceOf handle (node 2 3) bobConsolidates) :=
    along_iff_forall.mpr (by decide +kernel)
  ⟨clear, (consolidations_prune_iff (traceOf_run (by decide +kernel)) player).mpr clear⟩

end Sample

end Trinci
