import Mathlib.Data.List.Perm.Basic
import Trinci.ConsensusEffects
import Trinci.NodeModels

/-!
# At most one signed confirmation for each height and round

Both ways of voting record the height and the round in the exit poll before they
sign. A consolidation keeps the entries up to its own height and drops the later
ones, so the recorded entries must never be ahead of the next height by more
than one. That is an invariant when consolidated heights increase and a built
block is at most one above the current height; it starts from any state.
-/

namespace Trinci

namespace ConsensusService

open StepMachines

universe u

variable {A B C T : Type u}

/-- The pair a confirmation is for. -/
def voteKey [Confirmable C] (confirmation : C) : UInt64 × UInt8 :=
  (Confirmable.getBlockHeight confirmation, Confirmable.getBlockRound confirmation)

/-- The pairs of the signed confirmations are distinct, all still in the poll,
and none is ahead of the height that may be voted next. -/
structure VotesRecorded (keys : List (UInt64 × UInt8)) (s : ConsensusService B C) : Prop where
  distinct : keys.Nodup
  polled : ∀ key ∈ keys, key ∈ s.proposalExitPoll
  near : ∀ key ∈ keys, key.1 ≤ s.height ∨ key.1 = s.height + 1

theorem VotesRecorded.nil (s : ConsensusService B C) : VotesRecorded [] s :=
  ⟨List.nodup_nil, by simp, by simp⟩

theorem VotesRecorded.perm {keys keys' : List (UInt64 × UInt8)} {s : ConsensusService B C}
    (h : VotesRecorded keys s) (perm : keys.Perm keys') : VotesRecorded keys' s where
  distinct := perm.nodup h.distinct
  polled key hkey := h.polled key (perm.mem_iff.mpr hkey)
  near key hkey := h.near key (perm.mem_iff.mpr hkey)

/-- Only the poll and the height matter. -/
theorem VotesRecorded.congr {keys : List (UInt64 × UInt8)} {s s' : ConsensusService B C}
    (h : VotesRecorded keys s) (poll : s'.proposalExitPoll = s.proposalExitPoll)
    (height : s'.height = s.height) : VotesRecorded keys s' where
  distinct := h.distinct
  polled key hkey := by rw [poll]; exact h.polled key hkey
  near key hkey := by rw [height]; exact h.near key hkey

/-- A vote for a pair that is not in the poll. -/
theorem VotesRecorded.vote {keys : List (UInt64 × UInt8)} {s s' : ConsensusService B C}
    {key : UInt64 × UInt8} (h : VotesRecorded keys s) (spare : key ∉ s.proposalExitPoll)
    (next : key.1 ≤ s.height ∨ key.1 = s.height + 1)
    (poll : s'.proposalExitPoll = s.proposalExitPoll ++ [key])
    (height : s'.height = s.height) : VotesRecorded (keys ++ [key]) s' where
  distinct := by
    refine List.nodup_append.mpr ⟨h.distinct, by simp, ?_⟩
    intro k hk k' hk' heq
    obtain rfl : k' = key := by simpa using hk'
    exact spare (heq ▸ h.polled k hk)
  polled k hk := by
    rw [poll]
    rcases List.mem_append.mp hk with hk | hk
    · exact List.mem_append_left _ (h.polled k hk)
    · exact List.mem_append_right _ hk
  near k hk := by
    rw [height]
    rcases List.mem_append.mp hk with hk | hk
    · exact h.near k hk
    · obtain rfl : k = key := by simpa using hk
      exact next

/-- A consolidation above the current height drops no recorded pair. -/
theorem VotesRecorded.reset {keys : List (UInt64 × UInt8)} {s s' : ConsensusService B C}
    (h : VotesRecorded keys s) (higher : s.height < s'.height ∨ s.proposalExitPoll = [])
    (poll : s'.proposalExitPoll = s.proposalExitPoll ∨
      s'.proposalExitPoll = s.proposalExitPoll.filter fun vote => vote.1 ≤ s'.height) :
    VotesRecorded keys s' := by
  rcases higher with higher | hempty
  · have below : ∀ key ∈ keys, key.1 ≤ s'.height := by
      intro key hkey
      rcases h.near key hkey with hle | heq
      · exact UInt64.le_of_lt (UInt64.lt_of_le_of_lt hle higher)
      · rw [heq]
        grind
    refine ⟨h.distinct, fun key hkey => ?_, fun key hkey => Or.inl (below key hkey)⟩
    rcases poll with hpoll | hpoll
    · rw [hpoll]
      exact h.polled key hkey
    · rw [hpoll]
      refine List.mem_filter.mpr ⟨h.polled key hkey, ?_⟩
      simpa using below key hkey
  · have hkeys : keys = [] := by
      refine List.eq_nil_iff_forall_not_mem.mpr fun key hkey => ?_
      simpa [hempty] using h.polled key hkey
    rw [hkeys]
    exact .nil s'

variable [Executable B] {s : ConsensusService B C}

theorem shouldPlayerVote_spare {block : B} {txsHashes : List Hash} {round : UInt8}
    (h : s.shouldPlayerVote (some (block, txsHashes)) round = true) :
    (Executable.getHeight block, round) ∉ s.proposalExitPoll ∧
      Executable.getHeight block = s.height + 1 ∧ round = s.actualRound := by
  simp only [shouldPlayerVote, Bool.and_eq_true, Bool.not_eq_true', beq_iff_eq] at h
  obtain ⟨⟨⟨⟨⟨-, hpoll⟩, -⟩, hround⟩, hheight⟩, -⟩ := h
  exact ⟨by simpa using hpoll, hheight, hround⟩

variable [Primitives] [Confirmable C]

theorem voteKey_confirm (env : Env) (block : B) (round : UInt8) :
    voteKey (s.confirm env block round) = (Executable.getHeight block, round) := by
  simp [voteKey, confirm]

variable [DecidableEq C] {env : Env} {s₀ s' : ConsensusService B C} {msg : Msg A B C T}
  {done out : List (Output A B C T)}

/-- What a run must respect: a consolidation is above the current height, or
nothing was voted yet (the genesis block of a new node); a built block is at most
one above the current height. -/
def votesInOrder (s : ConsensusService B C) : Msg A B C T → Bool
  | .blockConsolidated block _ _ =>
    s.height < Executable.getHeight block || s.proposalExitPoll.isEmpty
  | .proposalAfterBuild block _ _ => Executable.getHeight block ≤ s.height + 1
  | _ => true

omit [Executable B] [Primitives] [DecidableEq C] in
theorem VotesRecorded.silent (h : VotesRecorded ((signedIn done).map voteKey) s)
    (silent : signedIn out = []) (poll : s'.proposalExitPoll = s.proposalExitPoll)
    (height : s'.height = s.height) :
    VotesRecorded ((signedIn (done ++ out)).map voteKey) s' := by
  rw [signedIn_append, silent, List.append_nil]
  exact h.congr poll height

theorem effect_votesRecorded (ordered : votesInOrder s₀ msg = true)
    (h : VotesRecorded ((signedIn done).map voteKey) s)
    (effect : Effect env s₀ msg s out s') :
    VotesRecorded ((signedIn (done ++ out)).map voteKey) s' := by
  cases effect with
  | timeout _ _ _ => exact h.silent rfl rfl rfl
  | align _ => exact h.silent rfl rfl rfl
  | collect _ => exact h.silent rfl rfl rfl
  | tidy _ _ => exact h.silent rfl rfl rfl
  | update source hupdate =>
    rw [updateProposals_eq hupdate]
    cases source with
    | taken _ _ => exact h.silent rfl rfl rfl
    | executed _ _ => exact h.silent rfl rfl rfl
    | voted _ hvote =>
      obtain ⟨hspare, hnext, -⟩ := shouldPlayerVote_spare hvote
      rw [signedIn_append, List.map_append]
      simp only [signedIn, Output.signed, List.filterMap_cons, List.filterMap_nil,
        List.map_cons, List.map_nil, voteKey_confirm]
      exact h.vote hspare (Or.inr hnext) rfl rfl
    | @built block _ _ hmsg hspare =>
      have hbuilt : Executable.getHeight block ≤ s.height + 1 := by
        simpa [hmsg, votesInOrder] using ordered
      rw [signedIn_append, List.map_append]
      simp only [signedIn, Output.signed, List.filterMap_cons, List.filterMap_nil,
        List.map_cons, List.map_nil, voteKey_confirm]
      refine h.vote hspare ?_ rfl rfl
      grind
  | start _ _ _ _ _ _ => exact h.silent rfl rfl rfl
  | consolidated hmsg hquiet =>
    rw [signedIn_append, signedIn_quiet hquiet, List.append_nil]
    refine h.reset (by simpa [hmsg, votesInOrder, resetProposals] using ordered) ?_
    simp only [resetProposals]
    split_ifs
    · exact Or.inr rfl
    · exact Or.inl rfl
  | notify hquiet => exact h.silent (signedIn_quiet hquiet) rfl rfl

theorem handle_votesRecorded {input : Input A B C T} (ordered : votesInOrder s input.msg = true)
    (h : VotesRecorded ((signedIn done).map voteKey) s)
    (step : s.handle input = .ok (s', out)) :
    VotesRecorded ((signedIn (done ++ out)).map voteKey) s' := by
  refine handle_invariant (fun xs t => VotesRecorded ((signedIn xs).map voteKey) t) step h ?_ ?_
  · intro xs ys t hperm hinv
    exact hinv.perm ((hperm.filterMap _).map _)
  · intro xs t ys t' hinv effect
    exact effect_votesRecorded ordered hinv effect

theorem run_votesRecorded {s₀ s : ConsensusService B C}
    {trace : Trace A B C T}
    (run : Run (Computes handle) s₀ trace s)
    (ordered : Along (fun _ e => votesInOrder e.before e.input.msg = true) trace) :
    VotesRecorded ((signedIn (outputs trace)).map voteKey) s := by
  refine run.invariant (fun trace s => VotesRecorded ((signedIn (outputs trace)).map voteKey) s)
    ?_ ?_ ordered
  · exact .nil s₀
  · intro trace s input out s' hinv hstep hordered
    rw [outputs_snoc]
    exact handle_votesRecorded hordered hinv hstep

/-- Over every run, from any state, the confirmations this node signs are for
pairwise different pairs of height and round. -/
theorem signed_once_per_round {s₀ s : ConsensusService B C}
    {trace : Trace A B C T}
    (run : Run (Computes handle) s₀ trace s)
    (ordered : Along (fun _ e => votesInOrder e.before e.input.msg = true) trace) :
    ((signedIn (outputs trace)).map voteKey).Nodup :=
  (run_votesRecorded run ordered).distinct

end ConsensusService

/-! ## Three players -/

namespace Sample

open ConsensusService StepMachines

abbrev Node := ConsensusService Block Confirmation

abbrev NodeInput := Input Hash Block Confirmation Transaction

/-- The service of the player with key `n` among the first `size` players, after
the genesis block. -/
def node (n : UInt8) (size : Nat) : Node where
  actualRound := 0
  blocksCollector := ∅
  blockProposals := []
  consolidationInProgress := none
  height := 0
  keypair := keypair n
  lastBlockHash := Hash.default
  leader := "alice"
  nodeId := (keypair n).publicKey.accountId?.getD ""
  players := ⟨["alice", "bob", "carol"].take size, (List.replicate 3 1).take size⟩
  proposalExitPoll := []

/-- A message handled at time zero, with no answers from outside. -/
def input (msg : Msg Hash Block Confirmation Transaction) : NodeInput where
  env :=
    { now := 0
      blockRng := 0
      confirmationRng := 0
      getDRandNum := fun _ => some 0
      getLastBlockInfo := fun _ => none }
  msg := msg

/-- A block of height `height` built and signed by player `n`, told apart by its
timestamp. -/
def block (n : UInt8) (height timestamp : UInt64) : Block :=
  Block.sign (keypair n) 0
    (Block.new (keypair n).publicKey [] height Hash.default timestamp)

/-- Player `n` confirms a block in a round. -/
def confirmation (n : UInt8) (block : Block) (round : UInt8) : Confirmation :=
  Confirmation.sign (keypair n) 0
    (Confirmation.new block.getHash block.data.height round (keypair n).publicKey)

/-- Bob's block after his block of height one. -/
def nextOfBob : Block :=
  Block.sign (keypair 2) 0
    (Block.new (keypair 2).publicKey [] 2 (block 2 1 0).getHash 0)

/-- Alice builds for height one in round zero, and again. In round one she executes a block
of bob and one of carol. The next block of bob is there before its round, and she executes it
after she has voted for it at the timeout. -/
def aliceVotes : List NodeInput :=
  [input (.proposalAfterBuild (block 1 1 0) 0 []),
    input (.proposalAfterBuild (block 1 1 1) 0 []),
    input (.blockElectionFailed 1 1),
    input (.blockFromPeer (block 2 1 0) (confirmation 2 (block 2 1 0) 1) []),
    input (.blockFromPeer (block 3 1 0) (confirmation 3 (block 3 1 0) 1) []),
    input (.blockExecutionEnded (block 2 1 0) []),
    input (.blockExecutionEnded (block 3 1 0) []),
    input (.blockConsolidated (block 2 1 0) [] ⟨["alice", "bob", "carol"], [1, 1, 1]⟩),
    input (.verifyConfirmations (some (nextOfBob, [])) [confirmation 2 nextOfBob 1]),
    input (.blockElectionFailed 2 1),
    input (.blockExecutionEnded nextOfBob [])]

/-- Alice votes for what she builds, for what she executes and at a timeout, and for nothing
else. -/
theorem alice_signs_once_per_round :
    (signedIn (outputs (traceOf handle (node 1 3) aliceVotes))).map voteKey =
        [(1, 0), (1, 1), (2, 1)] ∧
      ((signedIn (outputs (traceOf handle (node 1 3) aliceVotes))).map voteKey).Nodup :=
  ⟨by decide +kernel, signed_once_per_round (traceOf_run (by decide +kernel))
    (along_of_all (by decide +kernel))⟩

end Sample

end Trinci
