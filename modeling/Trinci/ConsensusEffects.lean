import Trinci.ConsensusProposals
import Trinci.StepMachines

/-!
# What one message can do to the consensus service

Every handler is a chain of a few effects, each with its guard and the outputs
it owns. An invariant of the service is proved once per effect and never again
unfolds a handler. The outputs of a chain are those of the handler up to order:
only the builder of a block announces it after its quorum check.
-/

namespace Trinci

open FirstMatch StepMachines

universe u

variable {A B C T : Type u}

namespace Output

/-- The confirmation that was signed when this output was produced. -/
def signed : Output A B C T → Option C
  | .msg _ (.propagateConfirmationToPeers confirmation) => some confirmation
  | .msg _ (.propagateBlockToPeers _ confirmation _) => some confirmation
  | _ => none

/-- The consolidation request this output is, if any. -/
def started : Output A B C T → Option (B × List C × List Hash)
  | .msg _ (.startBlockConsolidation block confirmations txsHashes) =>
    some (block, confirmations, txsHashes)
  | _ => none

def Quiet (o : Output A B C T) : Prop := o.signed = none ∧ o.started = none

end Output

/-- The confirmations signed in a list of outputs, in order. -/
def signedIn (out : List (Output A B C T)) : List C := out.filterMap Output.signed

/-- The consolidations requested in a list of outputs, in order. -/
def startedIn (out : List (Output A B C T)) : List (B × List C × List Hash) :=
  out.filterMap Output.started

@[simp]
theorem signedIn_append (xs ys : List (Output A B C T)) :
    signedIn (xs ++ ys) = signedIn xs ++ signedIn ys := by
  simp [signedIn]

@[simp]
theorem startedIn_append (xs ys : List (Output A B C T)) :
    startedIn (xs ++ ys) = startedIn xs ++ startedIn ys := by
  simp [startedIn]

theorem signedIn_quiet {out : List (Output A B C T)} (quiet : ∀ o ∈ out, o.Quiet) :
    signedIn out = [] := by
  simpa [signedIn, List.filterMap_eq_nil_iff] using fun o ho => (quiet o ho).1

theorem startedIn_quiet {out : List (Output A B C T)} (quiet : ∀ o ∈ out, o.Quiet) :
    startedIn out = [] := by
  simpa [startedIn, List.filterMap_eq_nil_iff] using fun o ho => (quiet o ho).2

namespace ConsensusService

section Incoming

variable [Executable B] [Confirmable C]

/-- What the service takes from a message into its proposals: confirmations made
elsewhere, and a block with its hashes. A rejected message brings nothing. -/
def incoming (s : ConsensusService B C) : Msg A B C T → List C × Option (B × List Hash)
  | .blockConfirmationFromPeer confirmation =>
    if (s.actualRound ≤ Confirmable.getBlockRound confirmation ∨
        s.height < Confirmable.getBlockHeight confirmation) ∧
      Confirmable.verify confirmation
    then ([confirmation], none) else ([], none)
  | .blockFromPeer block confirmation _ =>
    if s.consolidationInProgress ≠ some (Executable.getHeight block) ∧
      Executable.verify block ∧ s.actualRound ≤ Confirmable.getBlockRound confirmation ∧
      s.height < Executable.getHeight block
    then ([confirmation], none) else ([], none)
  | .proposalFromAlignmentBlock confirmations => (confirmations, none)
  | .verifyConfirmations block confirmations =>
    match confirmations with
    | [] => ([], none)
    | first :: _ =>
      if (∀ confirmation ∈ confirmations,
          Confirmable.getPlayerId confirmation ∈ s.players.playersIds ∧
            Confirmable.verify confirmation) ∧
        Confirmable.getBlockHeight first = s.height + 1 ∧
        s.actualRound ≤ Confirmable.getBlockRound first
      then (confirmations, block) else ([], none)
  | _ => ([], none)

/-- The round the service is in once it has handled a message. -/
def roundAfter (s : ConsensusService B C) : Msg A B C T → UInt8
  | .blockElectionFailed height round =>
    if s.consolidationInProgress = some height then s.actualRound else round
  | .blockConsolidated _ _ _ => 0
  | .proposalFromAlignmentBlock (first :: _) => Confirmable.getBlockRound first
  | _ => s.actualRound

end Incoming

variable [Primitives] [Executable B] [Confirmable C] [DecidableEq C]

/-- Where a vote comes from: the block just executed, with the confirmations of
its proposal, or the first proposal of the round a timeout moves to. -/
inductive Casts (s : ConsensusService B C) :
    Msg A B C T → B → List Hash → UInt8 → List C → Prop
  | executed {block : B} {txsHashes : List Hash} {proposal : BlockProposal B C} :
      s.findProposal (Executable.getHash block) (Executable.getHeight block) s.actualRound =
        some proposal →
      Casts s (.blockExecutionEnded block txsHashes) block txsHashes s.actualRound
        proposal.receivedConfirmations
  | nextRound {height : UInt64} {round : UInt8} {proposal : BlockProposal B C} {block : B}
      {txsHashes : List Hash} :
      s.Holds height proposal → proposal.round = round →
      proposal.block = some (block, txsHashes) →
      Casts s (.blockElectionFailed height round) block txsHashes round []

/-- Where an update of the proposals comes from, in a service that was in state
`s₀` when the message arrived: the confirmations and the block it brings, what is
sent with it and the state it is made in, with a vote already recorded. -/
inductive Source (env : Env) (s₀ : ConsensusService B C) (msg : Msg A B C T) :
    ConsensusService B C → List C → Option (B × List Hash) → List (Output A B C T) →
      ConsensusService B C → Prop
  | taken {s : ConsensusService B C} {confirmations : List C}
      {block : Option (B × List Hash)} :
      s₀.incoming msg = (confirmations, block) → s.blockProposals = s₀.blockProposals →
      Source env s₀ msg s confirmations block [] s
  | executed {block : B} {txsHashes : List Hash} {proposal : BlockProposal B C} :
      msg = .blockExecutionEnded block txsHashes →
      s₀.findProposal (Executable.getHash block) (Executable.getHeight block)
        s₀.actualRound = some proposal →
      Source env s₀ msg s₀ proposal.receivedConfirmations (some (block, txsHashes)) [] s₀
  | voted {s : ConsensusService B C} {block : B} {txsHashes : List Hash} {round : UInt8}
      {confirmations : List C} :
      s.Casts msg block txsHashes round confirmations →
      s.shouldPlayerVote (some (block, txsHashes)) round = true →
      Source env s₀ msg s (confirmations ++ [s.confirm env block round])
        (some (block, txsHashes))
        [.msg .nodeInterface (.propagateConfirmationToPeers (s.confirm env block round))]
        (s.recordVote block round)
  | built {block : B} {round : UInt8} {txsHashes : List Hash} :
      msg = .proposalAfterBuild block round txsHashes →
      (Executable.getHeight block, round) ∉ s₀.proposalExitPoll →
      Source env s₀ msg s₀ [s₀.confirm env block round]
        (some (Executable.sign s₀.keypair env.blockRng block, txsHashes))
        [.msg .nodeInterface (.propagateBlockToPeers
          (Executable.sign s₀.keypair env.blockRng block) (s₀.confirm env block round)
          txsHashes)]
        (s₀.recordVote block round)

/-- A block announced in a round by the only player, which checks its quorum at
once whether or not a consolidation is in progress. -/
def BuiltAlone (s₀ : ConsensusService B C) (msg : Msg A B C T) : Prop :=
  ∃ block round txsHashes, msg = .proposalAfterBuild block round txsHashes ∧
    (Executable.getHeight block, round) ∉ s₀.proposalExitPoll ∧
    Executable.getHeight block = s₀.height + 1 ∧ s₀.players.playersIds.length = 1

/-- The effects a message `msg` can have on a service that was in state `s₀`
when the message arrived. -/
inductive Effect (env : Env) (s₀ : ConsensusService B C) (msg : Msg A B C T) :
    ConsensusService B C → List (Output A B C T) → ConsensusService B C → Prop
  | timeout {s : ConsensusService B C} {height : UInt64} {round : UInt8} :
      msg = .blockElectionFailed height round →
      s.consolidationInProgress ≠ some height → s₀.roundAfter msg = round →
      Effect env s₀ msg s [] { s with actualRound := round }
  | align {s : ConsensusService B C} {first : C} {rest : List C} :
      msg = .proposalFromAlignmentBlock (first :: rest) →
      Effect env s₀ msg s [] { s with actualRound := Confirmable.getBlockRound first }
  | collect {s : ConsensusService B C}
      (entries : AList fun _ : UInt64 => List (B × C × List Hash)) :
      Effect env s₀ msg s [] { s with blocksCollector := entries }
  | tidy {s : ConsensusService B C} {groups : List (UInt64 × List (BlockProposal B C))} :
      s.Tidied groups → s.actualRound = s₀.roundAfter msg →
      Effect env s₀ msg s [] { s with blockProposals := groups }
  | update {s t s' : ConsensusService B C} {confirmations : List C}
      {block : Option (B × List Hash)} {out : List (Output A B C T)} :
      Source env s₀ msg s confirmations block out t →
      t.updateProposals env confirmations block = .ok s' →
      Effect env s₀ msg s out s'
  | start {s : ConsensusService B C} {proposal : BlockProposal B C} {block : B}
      {txsHashes : List Hash} {hash : Hash} {round : UInt8} :
      (s.consolidationInProgress ≠ some (s.height + 1) ∨
        (BuiltAlone s₀ msg ∧ s.consolidationInProgress = s₀.consolidationInProgress ∧
          s.height = s₀.height)) →
      s.players = s₀.players →
      s.findProposal hash (s.height + 1) round = some proposal →
      proposal.block = some (block, txsHashes) →
      (∀ c ∈ proposal.receivedConfirmations,
        Confirmable.getPlayerId c ∈ s.players.playersIds) →
      s.players.playersIds.length / 2 + 1 ≤ proposal.count →
      Effect env s₀ msg s
        [.msg .nodeInterface
          (.startBlockConsolidation block proposal.receivedConfirmations txsHashes)]
        { s with consolidationInProgress := some (s.height + 1) }
  | consolidated {block : B} {txsHashes : List Hash} {players : Players} {leader : String}
      {out : List (Output A B C T)} :
      msg = .blockConsolidated block txsHashes players →
      (∀ o ∈ out, o.Quiet) →
      Effect env s₀ msg s₀ out
        { ({ s₀ with
              players := players
              blocksCollector := s₀.blocksCollector.erase (Executable.getHeight block) } :
            ConsensusService B C).resetProposals (Executable.getHash block)
              (Executable.getHeight block) with
          leader := leader
          consolidationInProgress := none }
  | notify {s : ConsensusService B C} {out : List (Output A B C T)} :
      (∀ o ∈ out, o.Quiet) → Effect env s₀ msg s out s

/-! ## Every handler is a chain of effects -/

section Chains

variable {env : Env} {s₀ s s' : ConsensusService B C} {msg : Msg A B C T}
  {out : List (Output A B C T)}

omit [Primitives] [Executable B] [DecidableEq C] in
theorem verifyBlockProposalQuorum_ok {hash : Hash} {height : UInt64} {round : UInt8}
    (h : s.verifyBlockProposalQuorum hash height round = .ok (s', out)) :
    (s' = s ∧ out = []) ∨ (height = s.height + 1 ∧ ∃ proposal block txsHashes,
      s.findProposal hash height round = some proposal ∧
      proposal.block = some (block, txsHashes) ∧
      (∀ c ∈ proposal.receivedConfirmations,
        Confirmable.getPlayerId c ∈ s.players.playersIds) ∧
      s.players.playersIds.length / 2 + 1 ≤ proposal.count ∧
      s' = { s with consolidationInProgress := some height } ∧
      out = [.msg .nodeInterface
        (.startBlockConsolidation block proposal.receivedConfirmations txsHashes)]) := by
  unfold verifyBlockProposalQuorum at h
  cases hfind : s.findProposal hash height round with
  | none => simp [hfind] at h
  | some proposal =>
    simp only [hfind] at h
    by_cases hheight : height = s.height + 1
    · rw [if_pos hheight] at h
      cases hblock : proposal.block with
      | none => simp_all
      | some entry =>
        obtain ⟨block, txsHashes⟩ := entry
        simp only [hblock] at h
        split_ifs at h with hplayers hcount
        · right
          simp only [Except.ok.injEq, Prod.mk.injEq] at h
          refine ⟨hheight, proposal, block, txsHashes, rfl, hblock, ?_, hcount,
            h.1.symm, h.2.symm⟩
          intro c hc
          simpa using List.all_eq_true.mp hplayers c hc
        · simp_all
        · simp_all
    · simp_all

/-- A quorum check that may start the consolidation is at most one effect. -/
theorem chain_verifyBlockProposalQuorum {hash : Hash} {height : UInt64} {round : UInt8}
    (mayStart : s.consolidationInProgress ≠ some height ∨ (height = s.height + 1 →
      BuiltAlone s₀ msg ∧ s.consolidationInProgress = s₀.consolidationInProgress ∧
        s.height = s₀.height))
    (same : s.players = s₀.players)
    (h : s.verifyBlockProposalQuorum hash height round = .ok (s', out)) :
    Chain (Effect env s₀ msg) s out s' := by
  rcases verifyBlockProposalQuorum_ok h with ⟨rfl, rfl⟩ | ⟨rfl, proposal, block, txsHashes,
    hfind, hblock, hplayers, hcount, rfl, rfl⟩
  · exact .refl _
  · refine .single (.start ?_ same hfind hblock hplayers hcount)
    rcases mayStart with hidle | hbuilt
    · exact Or.inl hidle
    · exact Or.inr (hbuilt rfl)

theorem chain_guarded_quorum {hash : Hash} {height : UInt64} {round : UInt8}
    (same : s.players = s₀.players)
    (h : (if s.consolidationInProgress.isNone then
        s.verifyBlockProposalQuorum hash height round else .ok (s, [])) = .ok (s', out)) :
    Chain (Effect env s₀ msg) s out s' := by
  by_cases hidle : s.consolidationInProgress.isNone
  · rw [if_pos hidle] at h
    refine chain_verifyBlockProposalQuorum (Or.inl ?_) same h
    rw [Option.isNone_iff_eq_none.mp hidle]
    simp
  · rw [if_neg hidle] at h
    cases h
    exact .refl _

omit [Primitives] [Executable B] in
theorem updateProposals_consolidation {confirmations : List C}
    {block : Option (B × List Hash)}
    (h : s.updateProposals env confirmations block = .ok s') :
    s'.consolidationInProgress = s.consolidationInProgress := by
  rw [updateProposals_eq h]

omit [Primitives] [Executable B] in
theorem updateProposals_players {confirmations : List C} {block : Option (B × List Hash)}
    (h : s.updateProposals env confirmations block = .ok s') : s'.players = s.players := by
  rw [updateProposals_eq h]

theorem chain_checkNextRoundProposals {height : UInt64} {round : UInt8} {found : Bool}
    (received : msg = .blockElectionFailed height round)
    (idle : s.consolidationInProgress ≠ some height) (same : s.players = s₀.players)
    (moved : s.actualRound = s₀.roundAfter msg)
    (h : s.checkNextRoundProposals env height round = .ok (found, s', out)) :
    Chain (Effect env s₀ msg) s out s' := by
  have tidied : s.Tidied (findNextRound height round s.blockProposals).1 :=
    findNextRound_tidied height round s.actualRound s.blockProposals
  have first : Chain (Effect env s₀ msg) s ([] : List (Output A B C T)) { s with
      blockProposals := (findNextRound height round s.blockProposals).1 } :=
    .single (.tidy tidied moved)
  simp only [checkNextRoundProposals] at h
  cases hblock : (findNextRound height round s.blockProposals).2.bind fun p => p.block with
  | none =>
    simp only [hblock, Except.ok.injEq, Prod.mk.injEq] at h
    obtain ⟨-, rfl, rfl⟩ := h
    exact first
  | some entry =>
    obtain ⟨block, txsHashes⟩ := entry
    obtain ⟨proposal, hfound, hentry⟩ := Option.bind_eq_some_iff.mp hblock
    obtain ⟨hround, hheld⟩ := findNextRound_some hfound
    simp only [hblock] at h
    split_ifs at h with hvote
    · obtain ⟨s₁, hupdate, h⟩ := bind_eq_ok.mp h
      obtain ⟨⟨s₂, out₂⟩, hquorum, h⟩ := bind_eq_ok.mp h
      simp only [pure, Except.pure, Except.ok.injEq, Prod.mk.injEq] at h
      obtain ⟨-, rfl, rfl⟩ := h
      subst received
      have cast : Effect env s₀ (.blockElectionFailed height round : Msg A B C T) { s with
          blockProposals := (findNextRound height round s.blockProposals).1 } _ s₁ :=
        .update (.voted (.nextRound hheld hround hentry) hvote) hupdate
      refine (first.trans (.single cast)).trans
        (chain_verifyBlockProposalQuorum (Or.inl ?_) ?_ hquorum)
      · rw [updateProposals_consolidation hupdate]
        exact idle
      · rw [updateProposals_players hupdate]
        exact same
    · obtain ⟨⟨s₂, out₂⟩, hquorum, h⟩ := bind_eq_ok.mp h
      simp only [pure, Except.pure, Except.ok.injEq, Prod.mk.injEq] at h
      obtain ⟨-, rfl, rfl⟩ := h
      exact first.trans (chain_verifyBlockProposalQuorum (Or.inl idle) same hquorum)

theorem chain_handleBlockExecutionEnded {block : B} {txsHashes : List Hash}
    (received : msg = .blockExecutionEnded block txsHashes)
    (h : s.handleBlockExecutionEnded env block txsHashes = .ok (s', out)) :
    Chain (Effect env s msg) s out s' := by
  unfold handleBlockExecutionEnded at h
  cases hfind : s.findProposal (Executable.getHash block) (Executable.getHeight block)
      s.actualRound with
  | none => simp [hfind] at h
  | some proposal =>
    simp only [hfind] at h
    by_cases hvote : s.shouldPlayerVote (some (block, txsHashes)) s.actualRound
    · simp only [hvote, if_true] at h
      obtain ⟨s₁, hupdate, h⟩ := bind_eq_ok.mp h
      subst received
      have cast : Effect env s (.blockExecutionEnded block txsHashes : Msg A B C T) s _ s₁ :=
        .update (.voted (.executed hfind) hvote) hupdate
      split_ifs at h with hidle
      · obtain ⟨⟨s₂, out₂⟩, hquorum, h⟩ := bind_eq_ok.mp h
        simp only [pure, Except.pure, Except.ok.injEq, Prod.mk.injEq] at h
        obtain ⟨rfl, rfl⟩ := h
        refine (Chain.single cast).trans (chain_verifyBlockProposalQuorum (Or.inl ?_)
          ((updateProposals_players hupdate).trans rfl) hquorum)
        rw [Option.isNone_iff_eq_none.mp hidle]
        simp
      · simp only [pure, Except.pure, Except.ok.injEq, Prod.mk.injEq] at h
        obtain ⟨rfl, rfl⟩ := h
        exact .single cast
    · simp only [hvote, Bool.false_eq_true, if_false] at h
      obtain ⟨s₁, hupdate, h⟩ := bind_eq_ok.mp h
      have filled : Chain (Effect env s msg) s [] s₁ :=
        .single (.update (.executed received hfind) hupdate)
      split_ifs at h with hidle
      · obtain ⟨⟨s₂, out₂⟩, hquorum, h⟩ := bind_eq_ok.mp h
        simp only [pure, Except.pure, Except.ok.injEq, Prod.mk.injEq] at h
        obtain ⟨rfl, rfl⟩ := h
        refine filled.trans (chain_verifyBlockProposalQuorum (Or.inl ?_)
          (updateProposals_players hupdate) hquorum)
        rw [Option.isNone_iff_eq_none.mp hidle]
        simp
      · simp only [pure, Except.pure, Except.ok.injEq, Prod.mk.injEq] at h
        obtain ⟨rfl, rfl⟩ := h
        exact filled

theorem chain_handleBlockFromPeer {block : B} {confirmation : C} {txsHashes : List Hash}
    (received : msg = .blockFromPeer block confirmation txsHashes)
    (h : s.handleBlockFromPeer env block confirmation txsHashes = .ok (s', out)) :
    Chain (Effect env s msg) s out s' := by
  simp only [handleBlockFromPeer] at h
  split_ifs at h with hbusy hverify hfresh
  · cases h
    exact .refl _
  · obtain ⟨s₁, hupdate, h⟩ := bind_eq_ok.mp h
    simp only [pure, Except.pure, Except.ok.injEq, Prod.mk.injEq] at h
    obtain ⟨rfl, rfl⟩ := h
    have taken : s.incoming msg = ([confirmation], none) := by
      simp only [received, incoming]
      rw [if_pos ⟨hbusy, hverify, hfresh.1, hfresh.2⟩]
    have stored : Chain (Effect env s msg) s ([] : List (Output A B C T)) s₁ :=
      (Chain.single (Effect.collect _)).trans
        (.single (Effect.update (Source.taken taken (by rfl)) hupdate))
    have handed : ∀ o ∈ (if Executable.getHeight block = s₁.height + 1 ∨
        (Executable.getHeight block = s₁.height + 2 ∧
          s₁.consolidationInProgress = some (Executable.getHeight block - 1)) then
        [.msg .blockService (.blockFromPeer block confirmation txsHashes)] else [] :
        List (Output A B C T)), o.Quiet := by
      split_ifs <;> simp [Output.Quiet, Output.signed, Output.started]
    exact stored.trans (.single (.notify handed))
  · cases h
    exact .refl _
  · cases h
    exact .refl _

theorem chain_verifyConfirmationsFromPeer {confirmations : List C}
    {block : Option (B × List Hash)} (received : msg = .verifyConfirmations block confirmations)
    (h : s.verifyConfirmationsFromPeer env confirmations block = .ok (s', out)) :
    Chain (Effect env s msg) s out s' := by
  unfold verifyConfirmationsFromPeer at h
  cases confirmations with
  | nil => cases h
  | cons first rest =>
    simp only at h
    split_ifs at h with hrejected
    · cases h
      exact .refl _
    · have taken : s.incoming msg = (first :: rest, block) := by
        simp only [received, incoming]
        rw [if_pos]
        simpa [not_or, and_assoc] using hrejected
      obtain ⟨s₁, hupdate, h⟩ := bind_eq_ok.mp h
      have stored : Chain (Effect env s msg) s ([] : List (Output A B C T)) s₁ :=
        .single (.update (.taken taken rfl) hupdate)
      cases block with
      | some entry =>
        obtain ⟨block, txsHashes⟩ := entry
        simp only [pure, Except.pure, Except.ok.injEq, Prod.mk.injEq] at h
        obtain ⟨rfl, rfl⟩ := h
        refine stored.trans (.single (.notify ?_))
        simp [Output.Quiet, Output.signed, Output.started]
      | none => exact stored.trans (chain_guarded_quorum (updateProposals_players hupdate) h)

/-- The builder's handler: its outputs are those of the chain, with the announced
block moved behind a consolidation it may start. -/
theorem chain_handleProposalAfterBuild {block : B} {round : UInt8} {txsHashes : List Hash}
    (received : msg = .proposalAfterBuild block round txsHashes)
    (h : s.handleProposalAfterBuild env block round txsHashes = .ok (s', out)) :
    ∃ out', Chain (Effect env s msg) s out' s' ∧ out'.Perm out := by
  unfold handleProposalAfterBuild at h
  by_cases hvoted : s.proposalExitPoll.contains (Executable.getHeight block, round)
  · rw [if_pos hvoted] at h
    cases h
    exact ⟨[], .refl _, .refl _⟩
  · rw [if_neg hvoted] at h
    obtain ⟨s₁, hupdate, h⟩ := bind_eq_ok.mp h
    have spare : (Executable.getHeight block, round) ∉ s.proposalExitPoll := by
      simpa using hvoted
    simp only [recordVote, confirm, Executable.getHeight_sign, Executable.getHash_sign]
      at hupdate h
    have built : Effect env s msg s [.msg .nodeInterface (.propagateBlockToPeers
        (Executable.sign s.keypair env.blockRng block) (s.confirm env block round)
        txsHashes)] s₁ := .update (.built received spare) hupdate
    have alone (hsingle : s₁.players.playersIds.length = 1)
        (hnext : Executable.getHeight block = s₁.height + 1) :
        BuiltAlone s msg ∧ s₁.consolidationInProgress = s.consolidationInProgress ∧
          s₁.height = s.height := by
      rw [updateProposals_eq hupdate] at hsingle hnext ⊢
      exact ⟨⟨block, round, txsHashes, received, spare, hnext, hsingle⟩, rfl, rfl⟩
    by_cases hsingle : s₁.players.playersIds.length = 1
    · simp only [hsingle, if_true] at h
      obtain ⟨⟨s₂, started⟩, hquorum, h⟩ := bind_eq_ok.mp h
      simp only [pure, Except.pure, Except.ok.injEq, Prod.mk.injEq] at h
      obtain ⟨rfl, rfl⟩ := h
      have tail : Chain (Effect env s msg) s₁ started s₂ :=
        chain_verifyBlockProposalQuorum (Or.inr (alone hsingle))
          ((updateProposals_players hupdate).trans rfl) hquorum
      exact ⟨_, (Chain.single built).trans tail, List.perm_append_comm⟩
    · simp only [hsingle, if_false] at h
      cases h
      exact ⟨_, .single built, .refl _⟩

omit [Primitives] [Confirmable C] [DecidableEq C] in
theorem drawNewLeader_ok {block : B} (h : s.drawNewLeader env block = .ok (s', out)) :
    (∃ leader, s' = { s with leader := leader }) ∧ ∀ o ∈ out, o.Quiet := by
  unfold drawNewLeader at h
  split_ifs at h with hplayers
  · simp only at h
    split at h
    · cases h
      exact ⟨⟨s.leader, rfl⟩, by simp [Output.Quiet, Output.signed, Output.started]⟩
    · split at h
      · cases h
      · rename_i newLeader _
        cases h
        exact ⟨⟨newLeader, rfl⟩, by simp [Output.Quiet, Output.signed, Output.started]⟩
  · split at h
    · cases h
    · rename_i playerId _ _
      cases h
      exact ⟨⟨playerId, rfl⟩, by simp [Output.Quiet, Output.signed, Output.started]⟩

omit [Primitives] [Confirmable C] [DecidableEq C] in
theorem checkOldBlockProposals_tidied (env : Env) (s : ConsensusService B C) :
    ∃ groups, s.Tidied groups ∧
      (s.checkOldBlockProposals env : _ × List (Output A B C T)).1 =
        { s with blockProposals := groups } := by
  unfold checkOldBlockProposals
  cases hfind : s.blockProposals.find? fun group => group.1 == s.height + 1 with
  | none => exact ⟨s.blockProposals, List.forall₂_same.mpr fun g _ => .refl _ g, rfl⟩
  | some group =>
    obtain ⟨height, proposals⟩ := group
    refine ⟨_, forall₂_modifyFirst (TidiedGroup.refl _) ?_, rfl⟩
    intro group hgroup
    obtain rfl : (height, proposals) = group := by simpa [hfind] using hgroup
    refine ⟨rfl, ?_, ?_, ?_⟩
    · intro p hp
      obtain ⟨q, hq, rfl⟩ := List.mem_map.mp hp
      have hold : q ∈ proposals := by
        have := (sortByCount_perm _).mem_iff.mp hq
        exact (List.mem_filter.mp this).1
      refine ⟨q, hold, (BlockProposal.refresh env.now q).timestamp, ?_⟩
      unfold BlockProposal.refresh
      split_ifs <;> rfl
    · intro q hq hround
      refine ⟨BlockProposal.refresh env.now q, List.mem_map.mpr ⟨q, ?_, rfl⟩, ?_⟩
      · refine (sortByCount_perm _).mem_iff.mpr (List.mem_filter.mpr ⟨hq, ?_⟩)
        simp [hround]
      · unfold BlockProposal.refresh
        split_ifs <;> exact ⟨rfl, rfl⟩
    · intro hdistinct
      have sorted : ((sortByCount (proposals.filter fun p => s.actualRound ≤ p.round)).map
          BlockProposal.key).Nodup := by
        rw [((sortByCount_perm _).map BlockProposal.key).nodup_iff]
        exact hdistinct.sublist (List.filter_sublist.map _)
      rw [List.map_map]
      convert sorted using 2
      funext p
      simp only [Function.comp_apply, BlockProposal.refresh]
      split_ifs <;> rfl

omit [Primitives] [Confirmable C] [DecidableEq C] in
theorem checkOldProposal_quiet (now : UInt64) (proposal : BlockProposal B C) :
    ∀ o ∈ (s.checkOldProposal now proposal : List (Output A B C T)), o.Quiet := by
  intro o ho
  unfold checkOldProposal at ho
  by_cases hold : now - proposal.timestamp ≥ verifyOldBlockProposalsS
  · rw [if_pos hold] at ho
    split at ho
    · split_ifs at ho <;> simp_all [Output.Quiet, Output.signed, Output.started]
    · simp_all [Output.Quiet, Output.signed, Output.started]
  · simp [hold] at ho

omit [Primitives] [Confirmable C] [DecidableEq C] in
theorem checkOldBlockProposals_quiet (env : Env) (s : ConsensusService B C) :
    ∀ o ∈ (s.checkOldBlockProposals env : _ × List (Output A B C T)).2, o.Quiet := by
  intro o ho
  unfold checkOldBlockProposals at ho
  split at ho
  · split_ifs at ho <;> simp_all [Output.Quiet, Output.signed, Output.started]
  · obtain ⟨proposal, -, hmem⟩ := List.mem_flatMap.mp ho
    exact checkOldProposal_quiet _ _ o hmem

omit [Primitives] [Confirmable C] [DecidableEq C] in
theorem blockConsolidated_quiet (height : UInt64) :
    ∀ o ∈ (s.blockConsolidated height : List (Output A B C T)), o.Quiet := by
  intro o ho
  unfold blockConsolidated at ho
  split at ho
  · simp at ho
  · obtain ⟨proposal, -, hmem⟩ := List.mem_filterMap.mp ho
    obtain ⟨entry, -, rfl⟩ := Option.map_eq_some_iff.mp hmem
    exact ⟨rfl, rfl⟩

omit [Primitives] [Executable B] [Confirmable C] [DecidableEq C] in
theorem mem_confirmBuildBlockInPlaceOfLeader {height : UInt64} {round : UInt8}
    {o : Output A B C T} (ho : o ∈ s.confirmBuildBlockInPlaceOfLeader env height round) :
    o = .req .nodeInterface (.getLastBlockInfo s.leader) ∨
      o = .msg .blockService .detectedPossibleMisalignment ∨
      o = .msg .blockService (.buildBlockInPlaceOfLeader height) := by
  simp only [confirmBuildBlockInPlaceOfLeader] at ho
  grind

omit [Primitives] [Executable B] [Confirmable C] [DecidableEq C] in
theorem confirmBuildBlockInPlaceOfLeader_quiet (height : UInt64) (round : UInt8) :
    ∀ o ∈ (s.confirmBuildBlockInPlaceOfLeader env height round : List (Output A B C T)),
      o.Quiet := by
  intro o ho
  rcases mem_confirmBuildBlockInPlaceOfLeader ho with rfl | rfl | rfl <;> exact ⟨rfl, rfl⟩

theorem chain_blockElectionFailed {height : UInt64} {round : UInt8}
    (h : s.handleMessages env (.blockElectionFailed height round : Msg A B C T) =
      .ok (s', out)) :
    Chain (Effect env s (.blockElectionFailed height round)) s out s' := by
  simp only [handleMessages] at h
  split_ifs at h with hbusy
  · cases h
    exact .refl _
  · obtain ⟨⟨found, s₁, out₁⟩, hcheck, h⟩ := bind_eq_ok.mp h
    simp only [pure, Except.pure, Except.ok.injEq, Prod.mk.injEq] at h
    obtain ⟨rfl, rfl⟩ := h
    have moved : Effect env s (.blockElectionFailed height round : Msg A B C T) s []
        { s with actualRound := round } := .timeout rfl hbusy (if_neg hbusy)
    have told : Effect env s (.blockElectionFailed height round : Msg A B C T)
        { s with actualRound := round } [.msg .blockService (.refreshRound round)]
        { s with actualRound := round } :=
      .notify (by simp [Output.Quiet, Output.signed, Output.started])
    have checked : Chain (Effect env s (.blockElectionFailed height round : Msg A B C T))
        { s with actualRound := round } out₁ s₁ :=
      chain_checkNextRoundProposals rfl hbusy rfl (if_neg hbusy).symm hcheck
    have thread : ∀ o ∈ (if found then [] else s₁.blockElectionFailed height round :
        List (Output A B C T)), o.Quiet := by
      unfold blockElectionFailed
      split_ifs <;> simp [Output.Quiet, Output.signed, Output.started]
    exact (((Chain.single moved).trans (.single told)).trans checked).trans
      (.single (.notify thread))

theorem chain_blockConsolidated {block : B} {txsHashes : List Hash} {players : Players}
    (h : s.handleMessages env (.blockConsolidated block txsHashes players : Msg A B C T) =
      .ok (s', out)) :
    Chain (Effect env s (.blockConsolidated block txsHashes players)) s out s' := by
  simp only [handleMessages] at h
  obtain ⟨⟨s₁, out₁⟩, hdraw, h⟩ := bind_eq_ok.mp h
  simp only [pure, Except.pure, Except.ok.injEq, Prod.mk.injEq] at h
  obtain ⟨rfl, rfl⟩ := h
  obtain ⟨⟨leader, rfl⟩, hquiet⟩ := drawNewLeader_ok hdraw
  refine .single (.consolidated rfl ?_)
  intro o ho
  rcases List.mem_append.mp ho with ho | ho
  · exact hquiet o ho
  · exact blockConsolidated_quiet _ o ho

/-- Handling any message is a chain of effects, up to the order of the outputs. -/
theorem handleMessages_effects (h : s.handleMessages env msg = .ok (s', out)) :
    ∃ out', Chain (Effect env s msg) s out' s' ∧ out'.Perm out := by
  cases msg with
  | blockElectionFailed height round => exact ⟨out, chain_blockElectionFailed h, .refl _⟩
  | blockConfirmationFromPeer confirmation =>
    refine ⟨out, ?_, .refl _⟩
    simp only [handleMessages] at h
    split_ifs at h with haccept
    · obtain ⟨s₁, hupdate, h⟩ := bind_eq_ok.mp h
      have taken : s.incoming (.blockConfirmationFromPeer confirmation : Msg A B C T) =
          ([confirmation], none) := by
        simp only [incoming]
        rw [if_pos haccept]
      exact (Chain.single (Effect.update (.taken taken rfl) hupdate)).trans
        (chain_guarded_quorum (updateProposals_players hupdate) h)
    · cases h
      exact .refl _
  | blockConsolidated block txsHashes players => exact ⟨out, chain_blockConsolidated h, .refl _⟩
  | blockExecutionEnded block txsHashes =>
    exact ⟨out, chain_handleBlockExecutionEnded rfl h, .refl _⟩
  | blockFromPeer block confirmation txsHashes =>
    exact ⟨out, chain_handleBlockFromPeer rfl h, .refl _⟩
  | checkOldBlockProposals =>
    refine ⟨out, ?_, .refl _⟩
    simp only [handleMessages] at h
    split_ifs at h with hidle
    · obtain ⟨groups, htidied, hstate⟩ := checkOldBlockProposals_tidied (A := A) (T := T) env s
      have hquiet := checkOldBlockProposals_quiet (A := A) (T := T) env s
      simp only [Except.ok.injEq] at h
      rw [h] at hstate hquiet
      obtain rfl : s' = { s with blockProposals := groups } := hstate
      exact (Chain.single (Effect.tidy htidied rfl)).trans (.single (.notify hquiet))
    · cases h
      exact .refl _
  | confirmBuildBlockInPlaceOfLeader height round =>
    refine ⟨out, ?_, .refl _⟩
    simp only [handleMessages, Except.ok.injEq, Prod.mk.injEq] at h
    obtain ⟨rfl, rfl⟩ := h
    exact .single (.notify (confirmBuildBlockInPlaceOfLeader_quiet height round))
  | proposalAfterBuild block round txsHashes => exact chain_handleProposalAfterBuild rfl h
  | proposalFromAlignmentBlock confirmations =>
    refine ⟨out, ?_, .refl _⟩
    cases confirmations with
    | nil => cases h
    | cons first rest =>
      simp only [handleMessages] at h
      obtain ⟨s₁, hupdate, h⟩ := bind_eq_ok.mp h
      simp only [pure, Except.pure, Except.ok.injEq, Prod.mk.injEq] at h
      obtain ⟨rfl, rfl⟩ := h
      exact (Chain.single (Effect.align rfl)).trans
        (.single (.update (.taken rfl rfl) hupdate))
  | verifyConfirmations block confirmations =>
    exact ⟨out, chain_verifyConfirmationsFromPeer rfl h, .refl _⟩
  | _ =>
    cases h
    exact ⟨[], .refl _, .refl _⟩

end Chains

/-- What reaches the service: a message and the outside it is handled in. -/
structure Input (A B C T : Type u) where
  env : Env
  msg : Msg A B C T

def handle (s : ConsensusService B C) (input : Input A B C T) :
    Except ConsensusPanic (ConsensusService B C × List (Output A B C T)) :=
  s.handleMessages input.env input.msg

abbrev Trace (A B C T : Type u) :=
  List (Event (ConsensusService B C) (Input A B C T) (Output A B C T))

/-- A property of the outputs so far, up to their order, and of the state holds
after a message if every effect of the message keeps it. -/
theorem handle_invariant (Inv : List (Output A B C T) → ConsensusService B C → Prop)
    {s s' : ConsensusService B C} {input : Input A B C T} {done out : List (Output A B C T)}
    (h : s.handle input = .ok (s', out)) (init : Inv done s)
    (reorder : ∀ xs ys t, xs.Perm ys → Inv xs t → Inv ys t)
    (keep : ∀ xs t ys t', Inv xs t → Effect input.env s input.msg t ys t' →
      Inv (xs ++ ys) t') : Inv (done ++ out) s' := by
  obtain ⟨out', chain, hperm⟩ := handleMessages_effects h
  have after : Inv (done ++ out') s' := by
    refine Chain.invariant (fun xs t => Inv (done ++ xs) t) ?_ chain (by simpa using init)
    intro xs t ys t' hinv heffect
    rw [← List.append_assoc]
    exact keep _ _ _ _ hinv heffect
  exact reorder _ _ _ (hperm.append_left done) after

end ConsensusService

end Trinci
