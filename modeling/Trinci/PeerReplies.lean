import Trinci.AlignmentTraces
import Trinci.ConsensusLookups
import Trinci.ConsensusTables

/-!
# Replies of peers that the consensus service takes

The confirmations of an alignment block and those that were asked for come from one peer,
in a list of any length and with any block. The service takes the first of them, and it
takes the block for the one they are for. A later timeout looks the block up by its own
hash.
-/

namespace Trinci

open FirstMatch StepMachines

universe u

variable {A B C T : Type u} [Executable B] [Confirmable C]

namespace ConsensusService

/-- The hash of a block that is filled in from a peer is the one its confirmations name. -/
def fillsNamed (s : ConsensusService B C) (msg : Msg A B C T) : Bool :=
  match s.fills msg with
  | some (first, block) => Executable.getHash block == Confirmable.getBlockHash first
  | none => true

/-- The hash of every stored block is that of its proposal. -/
abbrev OwnHashes (s : ConsensusService B C) : Prop :=
  s.Every (BlocksAre fun _ hash block => Executable.getHash block = hash)

/-- The messages that bring a reply, and those that use what one left. -/
def UsesReplies : Msg A B C T → Prop
  | .proposalFromAlignmentBlock _ => True
  | .verifyConfirmations _ _ => True
  | .blockElectionFailed _ _ => True
  | .blockConfirmationFromPeer _ => True
  | _ => False

/-- A reply has a confirmation. -/
def HasConfirmation : Msg A B C T → Prop
  | .proposalFromAlignmentBlock confirmations => confirmations ≠ []
  | .verifyConfirmations _ confirmations => confirmations ≠ []
  | _ => True

/-! ## The lookups -/

section Lookups

variable {s : ConsensusService B C}

omit [Executable B] in
/-- A stored proposal is the one that is found. -/
theorem Tabled.findProposal_isSome (h : Tabled s) {height : UInt64} {proposal : BlockProposal B C}
    (held : s.Holds height proposal) :
    (s.findProposal proposal.blockHash height proposal.round).isSome := by
  obtain ⟨proposals, hgroup, hmem⟩ := held
  obtain ⟨group, hfind⟩ : ∃ group, (s.blockProposals.find? fun group => group.1 == height) =
      some group := by
    rw [← Option.isSome_iff_exists, List.find?_isSome]
    exact ⟨_, hgroup, by simp⟩
  have same : group = (height, proposals) := by
    have hkey : group.1 = height := by simpa using List.find?_some hfind
    exact List.inj_on_of_nodup_map h.heights (List.mem_of_find?_eq_some hfind) hgroup hkey
  rw [findProposal, hfind, same]
  change (proposals.find? (BlockProposal.isFor _ _)).isSome
  rw [List.find?_isSome]
  exact ⟨proposal, hmem, isFor_iff.mpr ⟨rfl, rfl⟩⟩

omit [Executable B] in
theorem verifyBlockProposalQuorum_isOk {hash : Hash} {height : UInt64} {round : UInt8}
    (found : (s.findProposal hash height round).isSome) :
    ∃ s' out, (s.verifyBlockProposalQuorum hash height round :
      Except ConsensusPanic (_ × List (Output A B C T))) = .ok (s', out) := by
  obtain ⟨proposal, hproposal⟩ := Option.isSome_iff_exists.mp found
  unfold verifyBlockProposalQuorum
  rw [hproposal]
  dsimp only
  split
  · split
    · exact ⟨_, _, rfl⟩
    · split
      · split <;> exact ⟨_, _, rfl⟩
      · exact ⟨_, _, rfl⟩
  · exact ⟨_, _, rfl⟩

variable [DecidableEq C] {env : Env}

omit [Executable B] in
theorem updateProposals_isOk (env : Env) (s : ConsensusService B C) (first : C) (rest : List C)
    (block : Option (B × List Hash)) :
    ∃ s', s.updateProposals env (first :: rest) block = .ok s' :=
  ⟨_, rfl⟩

omit [Executable B] in
/-- A quorum check of the key that was updated. -/
theorem guarded_quorum_isOk {s' : ConsensusService B C} {first : C} {rest : List C}
    {block : Option (B × List Hash)}
    (update : s.updateProposals env (first :: rest) block = .ok s') :
    ∃ s'' out, (if s'.consolidationInProgress.isNone then
        s'.verifyBlockProposalQuorum (Confirmable.getBlockHash first)
          (Confirmable.getBlockHeight first) (Confirmable.getBlockRound first)
      else pure (s', []) : Except ConsensusPanic (_ × List (Output A B C T))) = .ok (s'', out) := by
  split
  · exact verifyBlockProposalQuorum_isOk (findKey_updateProposals update)
  · exact ⟨_, _, rfl⟩

end Lookups

/-! ## One message -/

section Messages

variable [Primitives] [DecidableEq C] {env : Env} {s₀ s s' : ConsensusService B C}
  {out : List (Output A B C T)}

omit [Executable B] [Primitives] in
theorem verifyConfirmationsFromPeer_isOk (env : Env) (s : ConsensusService B C) (first : C)
    (rest : List C) (block : Option (B × List Hash)) :
    ∃ s' out, (s.verifyConfirmationsFromPeer env (first :: rest) block :
      Except ConsensusPanic (_ × List (Output A B C T))) = .ok (s', out) := by
  rw [verifyConfirmationsFromPeer]
  split
  · exact ⟨_, _, rfl⟩
  · obtain ⟨s₁, hupdate⟩ := updateProposals_isOk env s first rest block
    rw [hupdate]
    cases block with
    | some entry => exact ⟨_, _, rfl⟩
    | none => exact guarded_quorum_isOk hupdate

/-- The proposal of the next round is looked up by the hash of its block. -/
theorem checkNextRoundProposals_isOk (env : Env) (h : Tabled s) (own : OwnHashes s)
    (height : UInt64) (round : UInt8) :
    ∃ found s' out, (s.checkNextRoundProposals env height round :
      Except ConsensusPanic (_ × _ × List (Output A B C T))) = .ok (found, s', out) := by
  have tidied : s.Tidied (findNextRound height round s.blockProposals).1 :=
    findNextRound_tidied height round s.actualRound s.blockProposals
  rw [checkNextRoundProposals]
  dsimp only
  split
  · exact ⟨_, _, _, rfl⟩
  · next block txsHashes hblock =>
    obtain ⟨proposal, hproposal, hblock⟩ := Option.bind_eq_some_iff.mp hblock
    obtain ⟨hround, proposals, hgroup, hmem⟩ := findNextRound_some hproposal
    have held : ({ s with blockProposals := (findNextRound height round s.blockProposals).1 } :
        ConsensusService B C).Holds height proposal := ⟨proposals, hgroup, hmem⟩
    have named : Executable.getHash block = proposal.blockHash :=
      every_tidied tidied own (fun _ _ _ hp => hp) height proposal held block txsHashes hblock
    have found := (h.tidy tidied).findProposal_isSome held
    rw [hround, ← named] at found
    generalize ({ s with blockProposals := (findNextRound height round s.blockProposals).1 } :
      ConsensusService B C) = t at found
    split
    · obtain ⟨t', hupdate⟩ := updateProposals_isOk env (t.recordVote block round)
        (t.confirm env block round) [] (some (block, txsHashes))
      have kept : (t'.findProposal (Executable.getHash block) height round).isSome :=
        findProposal_updateProposals hupdate found
      obtain ⟨t'', out, hquorum⟩ := verifyBlockProposalQuorum_isOk (A := A) (T := T) kept
      exact ⟨true, t'', _, bind_eq_ok.mpr
        ⟨t', hupdate, bind_eq_ok.mpr ⟨(t'', out), hquorum, rfl⟩⟩⟩
    · obtain ⟨t'', out, hquorum⟩ := verifyBlockProposalQuorum_isOk (A := A) (T := T) found
      exact ⟨true, t'', out, bind_eq_ok.mpr ⟨(t'', out), hquorum, rfl⟩⟩

/-- Only an empty list of confirmations panics. -/
theorem handle_isOk_iff (h : Tabled s) (own : OwnHashes s) {input : Input A B C T}
    (uses : UsesReplies input.msg) :
    (∃ s' out, s.handle input = .ok (s', out)) ↔ HasConfirmation input.msg := by
  obtain ⟨env, msg⟩ := input
  cases msg with
  | proposalFromAlignmentBlock confirmations =>
    cases confirmations with
    | nil =>
      refine iff_of_false ?_ (fun differs => differs rfl)
      rintro ⟨s', out, step⟩
      cases step
    | cons first rest => exact iff_of_true ⟨_, _, rfl⟩ (List.cons_ne_nil first rest)
  | verifyConfirmations block confirmations =>
    cases confirmations with
    | nil =>
      refine iff_of_false ?_ (fun differs => differs rfl)
      rintro ⟨s', out, step⟩
      cases step
    | cons first rest =>
      exact iff_of_true (verifyConfirmationsFromPeer_isOk env s first rest block)
        (List.cons_ne_nil first rest)
  | blockConfirmationFromPeer confirmation =>
    refine iff_of_true ?_ trivial
    simp only [handle, handleMessages]
    split
    · obtain ⟨s₁, hupdate⟩ := updateProposals_isOk env s confirmation [] none
      rw [hupdate]
      exact guarded_quorum_isOk hupdate
    · exact ⟨_, _, rfl⟩
  | blockElectionFailed height round =>
    refine iff_of_true ?_ trivial
    simp only [handle, handleMessages]
    split
    · exact ⟨_, _, rfl⟩
    · have h' : Tabled { s with actualRound := round } := h.congr rfl
      have own' : OwnHashes { s with actualRound := round } := own.congr rfl
      obtain ⟨found, s₁, out, hcheck⟩ :=
        checkNextRoundProposals_isOk (A := A) (T := T) env h' own' height round
      exact ⟨_, _, bind_eq_ok.mpr ⟨(found, s₁, out), hcheck, rfl⟩⟩
  | _ => exact uses.elim

/-! ## Every run -/

theorem handle_ownHashes {input : Input A B C T} (h : Tabled s) (own : OwnHashes s)
    (named : s.fillsNamed input.msg = true) (step : s.handle input = .ok (s', out)) :
    OwnHashes s' := by
  obtain ⟨out', chain, -⟩ := handleMessages_effects step
  have both := Chain.invariant (fun _ t => Tabled t ∧ OwnHashes t) ?_ chain ⟨h, own⟩
  · exact both.2
  · rintro _ t _ t' ⟨ht, hown⟩ effect
    refine ⟨effect_tabled ht effect, ?_⟩
    refine effect_blocks (fun _ _ _ _ => rfl) ?_ (fun _ _ _ => rfl) ?_
      (fun height proposal hheld => (ht.proposals height proposal hheld).headed) hown effect
    · intro first b hfills
      simpa [fillsNamed, hfills] using named
    · intro b round txsHashes _
      simp

end Messages

end ConsensusService

end Trinci
