import Trinci.ConsensusQuorums

/-!
# The table of proposals in every reachable state

A height has one group and a group one proposal for each hash and round, every
proposal starts with a confirmation of its own and counts the confirmations it
keeps: seven handlers change the table and none breaks this. The stored blocks are
another matter. A peer's answer brings a block next to confirmations, and the
block is attached to what the first of them names.
-/

namespace Trinci

namespace ConsensusService

open FirstMatch StepMachines

universe u

variable {A B C T : Type u}

/-- A proposal as its group should hold it. -/
structure WellFormed [Confirmable C] (height : UInt64) (proposal : BlockProposal B C) : Prop where
  placed : proposal.blockHeight = height
  headed : Headed height proposal
  counted : proposal.count = proposal.receivedConfirmations.length

/-- The table of proposals. -/
structure Tabled [Confirmable C] (s : ConsensusService B C) : Prop where
  heights : (s.blockProposals.map Prod.fst).Nodup
  keys : ∀ group ∈ s.blockProposals, (group.2.map BlockProposal.key).Nodup
  proposals : s.Every WellFormed

section Updates

variable [Confirmable C]

theorem tabled_of_empty {s : ConsensusService B C} (h : s.blockProposals = []) : Tabled s where
  heights := by simp [h]
  keys := by simp [h]
  proposals := every_of_empty h

theorem Tabled.congr {s s' : ConsensusService B C} (h : Tabled s)
    (same : s'.blockProposals = s.blockProposals) : Tabled s' where
  heights := by
    rw [same]
    exact h.heights
  keys := by
    rw [same]
    exact h.keys
  proposals := h.proposals.congr same

/-- Dropping groups. -/
theorem Tabled.filter {s s' : ConsensusService B C} (h : Tabled s)
    {keep : UInt64 × List (BlockProposal B C) → Bool}
    (dropped : s'.blockProposals = s.blockProposals.filter keep) : Tabled s' where
  heights := by
    rw [dropped]
    exact h.heights.sublist (List.filter_sublist.map _)
  keys := by
    intro group hgroup
    rw [dropped] at hgroup
    exact h.keys group (List.mem_filter.mp hgroup).1
  proposals := by
    apply h.proposals.of_subset
    intro group hgroup
    rw [dropped] at hgroup
    exact (List.mem_filter.mp hgroup).1

omit [Confirmable C] in
/-- A periodic check keeps the heights in place. -/
theorem Tidied.heights {s : ConsensusService B C}
    {groups : List (UInt64 × List (BlockProposal B C))} (tidied : s.Tidied groups) :
    groups.map Prod.fst = s.blockProposals.map Prod.fst := by
  unfold Tidied at tidied
  generalize s.blockProposals = olds at tidied
  induction tidied with
  | nil => rfl
  | cons related _ ih => rw [List.map_cons, List.map_cons, ih, related.height]

theorem Tabled.tidy {s : ConsensusService B C}
    {groups : List (UInt64 × List (BlockProposal B C))} (h : Tabled s)
    (tidied : s.Tidied groups) :
    Tabled ({ s with blockProposals := groups } : ConsensusService B C) where
  heights := by
    rw [tidied.heights]
    exact h.heights
  keys := by
    intro group hgroup
    obtain ⟨old, hold, related⟩ := exists_of_mem_right tidied hgroup
    exact related.distinct (h.keys old hold)
  proposals := every_tidied tidied h.proposals fun _ _ _ hp => ⟨hp.placed, hp.headed, hp.counted⟩

variable [DecidableEq C]

omit [Confirmable C] in
@[simp]
theorem absorb_blockHeight (block : Option (B × List Hash)) (proposal : BlockProposal B C)
    (c : C) : (proposal.absorb block c).blockHeight = proposal.blockHeight := by
  simp only [BlockProposal.absorb]
  split_ifs <;> rfl

theorem WellFormed.absorb {height : UInt64} {proposal : BlockProposal B C}
    (h : WellFormed height proposal) (block : Option (B × List Hash)) (c : C) :
    WellFormed height (proposal.absorb block c) where
  placed := by
    rw [absorb_blockHeight]
    exact h.placed
  headed := h.headed.absorb block c
  counted := by
    rw [absorb_count, absorb_received, h.counted]
    split_ifs <;> simp

theorem WellFormed.foldl_absorb {height : UInt64} {proposal : BlockProposal B C}
    (h : WellFormed height proposal) (block : Option (B × List Hash)) (confirmations : List C) :
    WellFormed height (confirmations.foldl (BlockProposal.absorb block) proposal) := by
  induction confirmations generalizing proposal with
  | nil => exact h
  | cons c rest ih => exact ih (h.absorb block c)

omit [DecidableEq C] in
theorem wellFormed_fresh (env : Env) (first : C) (rest : List C)
    (block : Option (B × List Hash)) : WellFormed (Confirmable.getBlockHeight first)
      (freshProposal env first (first :: rest) block) where
  placed := rfl
  headed := headed_fresh env first rest block
  counted := rfl

omit [Confirmable C] in
theorem foldl_absorb_key (block : Option (B × List Hash)) (confirmations : List C)
    (proposal : BlockProposal B C) :
    (confirmations.foldl (BlockProposal.absorb block) proposal).key = proposal.key := by
  simp [BlockProposal.key]

/-- An update adds a group only for a new height and a proposal only for a new key. -/
theorem Tabled.update {env : Env} {s s' : ConsensusService B C} {first : C} {rest : List C}
    {block : Option (B × List Hash)} (h : Tabled s)
    (update : s.updateProposals env (first :: rest) block = .ok s') : Tabled s' where
  heights := by
    cases update
    refine nodup_map_upsert h.heights (fun _ => rfl) ?_
    intro group hgroup
    simpa using hgroup
  keys := by
    cases update
    intro group hgroup
    rcases mem_upsert hgroup with hold | ⟨old, hfind, rfl⟩ | ⟨-, rfl⟩
    · exact h.keys group hold
    · refine nodup_map_upsert (h.keys old (List.mem_of_find?_eq_some hfind)) ?_ ?_
      · intro proposal
        exact foldl_absorb_key block _ proposal
      · intro proposal hkey
        obtain ⟨hhash, hround⟩ := Prod.mk.inj hkey
        exact isFor_iff.mpr ⟨hhash, hround⟩
    · simp
  proposals := by
    refine every_updateProposals update h.proposals ?_ ?_
    · intro old hfound
      obtain ⟨hheld, -, -⟩ := findProposal_some hfound
      exact (h.proposals _ old hheld).foldl_absorb block _
    · intro _
      exact wellFormed_fresh env first rest block

end Updates

section Effects

variable [Primitives] [Executable B] [Confirmable C] [DecidableEq C] {env : Env}
  {s₀ s s' : ConsensusService B C} {msg : Msg A B C T} {out : List (Output A B C T)}

theorem effect_tabled (h : Tabled s) (effect : Effect env s₀ msg s out s') : Tabled s' := by
  cases effect with
  | timeout _ _ _ => exact h.congr rfl
  | align _ => exact h.congr rfl
  | collect _ => exact h.congr rfl
  | tidy htidied _ => exact h.tidy htidied
  | update source hupdate =>
    obtain ⟨first, rest, rfl⟩ := updateProposals_cons hupdate
    exact (h.congr (source_blockProposals source)).update hupdate
  | start _ _ _ _ _ _ => exact h.congr rfl
  | consolidated _ _ => exact h.filter rfl
  | notify _ => exact h

theorem handle_tabled {input : Input A B C T} (h : Tabled s)
    (step : s.handle input = .ok (s', out)) : Tabled s' := by
  obtain ⟨out', chain, -⟩ := handleMessages_effects step
  refine Chain.invariant (fun _ t => Tabled t) ?_ chain h
  intro _ t _ t' ht effect
  exact effect_tabled ht effect

omit [Primitives] [Confirmable C] [DecidableEq C] in
theorem start_blockProposals {keypair : TrinciKeyPair} {nodeId : String} {players : Players}
    {block : Option B} (h : start env keypair nodeId players block = .ok (s, out)) :
    s.blockProposals = [] := by
  unfold start at h
  split at h
  · cases h
  · split at h
    · cases h
      rfl
    · dsimp only at h
      split at h
      · obtain ⟨⟨leader, rfl⟩, -⟩ := drawNewLeader_ok h
        rfl
      · cases h
        rfl

/-- Over every run of a started service, whatever messages it gets, the table is
well formed. -/
theorem started_tabled {keypair : TrinciKeyPair} {nodeId : String} {players : Players}
    {block : Option B} (started : start env keypair nodeId players block = .ok (s₀, out))
    {trace : Trace A B C T} (run : Run (Computes handle) s₀ trace s) : Tabled s := by
  apply run.preserves Tabled (tabled_of_empty (start_blockProposals started))
  intro t input out t' ht hstep
  exact handle_tabled ht hstep

/-! ## The blocks -/

/-- The block of a proposal, if it has one, is the one the proposal is for. -/
def HoldsOwnBlock (proposal : BlockProposal B C) : Prop :=
  ∀ block txsHashes, proposal.block = some (block, txsHashes) →
    Executable.getHash block = proposal.blockHash ∧
      Executable.getHeight block = proposal.blockHeight

/-- Every block is stored under its own height and hash. -/
abbrev OwnBlocks (s : ConsensusService B C) : Prop :=
  s.Every (BlocksAre fun height hash b =>
    Executable.getHeight b = height ∧ Executable.getHash b = hash)

omit [Primitives] [DecidableEq C] in
theorem Tabled.ownBlocks_iff (h : Tabled s) :
    OwnBlocks s ↔ s.Every fun _ proposal => HoldsOwnBlock proposal := by
  constructor
  · intro hown height proposal hheld block txsHashes hblock
    obtain ⟨hheight, hhash⟩ := hown height proposal hheld block txsHashes hblock
    exact ⟨hhash, hheight.trans (h.proposals height proposal hheld).placed.symm⟩
  · intro hown height proposal hheld block txsHashes hblock
    obtain ⟨hhash, hheight⟩ := hown height proposal hheld block txsHashes hblock
    exact ⟨hheight.trans (h.proposals height proposal hheld).placed, hhash⟩

theorem handle_ownBlocks {input : Input A B C T} (h : Tabled s) (own : OwnBlocks s)
    (matching : s.fillsMatching input.msg = true) (step : s.handle input = .ok (s', out)) :
    OwnBlocks s' := by
  obtain ⟨out', chain, -⟩ := handleMessages_effects step
  have both := Chain.invariant (fun _ t => Tabled t ∧ OwnBlocks t) ?_ chain ⟨h, own⟩
  · exact both.2
  · rintro _ t _ t' ⟨ht, hown⟩ effect
    refine ⟨effect_tabled ht effect, ?_⟩
    refine effect_blocks (fun _ _ _ _ => ⟨rfl, rfl⟩) ?_ (fun _ _ _ => ⟨rfl, rfl⟩) ?_
      (fun height proposal hheld => (ht.proposals height proposal hheld).headed) hown effect
    · intro first b hfills
      simpa [fillsMatching, hfills] using matching
    · intro b round txsHashes _
      simp

/-- The block a message fills in is stored afterwards, under the key of the first
confirmation it came with. -/
theorem handle_fills {input : Input A B C T} {first : C} {b : B}
    (fills : s.fills input.msg = some (first, b)) (step : s.handle input = .ok (s', out)) :
    ∃ proposal txsHashes, s'.findKey first = some proposal ∧
      proposal.block = some (b, txsHashes) := by
  obtain ⟨env, msg⟩ := input
  have brought : ∃ rest txsHashes, s.incoming msg = (first :: rest, some (b, txsHashes)) ∧
      ((s.findKey first).any fun proposal => proposal.block.isSome) = false := by
    unfold ConsensusService.fills at fills
    split at fills
    · rename_i c rest b' txsHashes hincoming
      split_ifs at fills with hfilled
      obtain ⟨rfl, rfl⟩ := Prod.mk.inj (Option.some.inj fills)
      exact ⟨rest, txsHashes, hincoming, by simpa using hfilled⟩
    · cases fills
  obtain ⟨rest, txsHashes, hincoming, hempty⟩ := brought
  cases msg with
  | verifyConfirmations block confirmations =>
    cases confirmations with
    | nil => cases hincoming
    | cons head tail =>
      simp only [incoming] at hincoming
      split_ifs at hincoming with haccept
      · obtain ⟨hlist, rfl⟩ := Prod.mk.inj hincoming
        obtain ⟨rfl, rfl⟩ := List.cons.inj hlist
        simp only [handle, handleMessages, verifyConfirmationsFromPeer] at step
        split_ifs at step with hrejected
        · exfalso
          revert hrejected
          simpa [not_or, and_assoc] using haccept
        · obtain ⟨s₁, hupdate, h⟩ := bind_eq_ok.mp step
          simp only [pure, Except.pure, Except.ok.injEq, Prod.mk.injEq] at h
          obtain ⟨rfl, -⟩ := h
          refine ⟨_, txsHashes, findKey_updated hupdate, ?_⟩
          cases hfound : s.findKey head with
          | none => rfl
          | some old =>
            have hnone : old.block = none := by simpa [hfound] using hempty
            simp only [Option.elim_some, List.foldl_cons]
            rcases foldl_absorb_block (some (b, txsHashes))
              (old.absorb (some (b, txsHashes)) head) tail with hblock | hblock
            · rw [hblock, absorb_block, hnone, Option.none_or]
            · rw [hblock, absorb_block, hnone, Option.none_or, Option.some_or]
      · cases hincoming
  | blockConfirmationFromPeer confirmation =>
    simp only [incoming] at hincoming
    split_ifs at hincoming
    · simp at hincoming
    · cases hincoming
  | blockFromPeer block confirmation hashes =>
    simp only [incoming] at hincoming
    split_ifs at hincoming
    · simp at hincoming
    · cases hincoming
  | _ => simp [incoming] at hincoming

/-- After a block that does not match its confirmations was filled in, some proposal
holds a block of another. -/
theorem fillsMatching_of_ownBlocks {input : Input A B C T} (step : s.handle input = .ok (s', out))
    (own : OwnBlocks s') : s.fillsMatching input.msg = true := by
  cases hfills : s.fills input.msg with
  | none => simp [fillsMatching, hfills]
  | some entry =>
    obtain ⟨first, b⟩ := entry
    obtain ⟨proposal, txsHashes, hfound, hblock⟩ := handle_fills hfills step
    obtain ⟨hheld, hhash, -⟩ := findProposal_some hfound
    obtain ⟨hheight, hmatch⟩ := own _ proposal hheld b txsHashes hblock
    simp [fillsMatching, hfills, hheight, hmatch, hhash]

/-- Over every run of a started service, each stored block is the one its proposal is
for if and only if every block filled in from a peer's answer is the one the
confirmations it came with are for. -/
theorem started_ownBlocks_iff {keypair : TrinciKeyPair} {nodeId : String} {players : Players}
    {block : Option B} (started : start env keypair nodeId players block = .ok (s₀, out))
    {trace : Trace A B C T} (run : Run (Computes handle) s₀ trace s) :
    Along (fun _ e => e.after.Every fun _ proposal => HoldsOwnBlock proposal) trace ↔
      Along (fun _ e => e.before.fillsMatching e.input.msg = true) trace := by
  have empty := start_blockProposals started
  constructor
  · intro hown
    refine run.along (fun _ t => Tabled t) (tabled_of_empty empty) ?_ ?_ hown
    · intro _ t input out t' ht hstep _
      exact handle_tabled ht hstep
    · intro _ t input out t' ht hstep hall
      exact fillsMatching_of_ownBlocks hstep ((handle_tabled ht hstep).ownBlocks_iff.mpr hall)
  · intro hmatching
    refine run.along (fun _ t => Tabled t ∧ OwnBlocks t)
      ⟨tabled_of_empty empty, every_of_empty empty⟩ ?_ ?_ hmatching
    · rintro _ t input out t' ⟨ht, hown⟩ hstep hmatch
      exact ⟨handle_tabled ht hstep, handle_ownBlocks ht hown hmatch hstep⟩
    · rintro _ t input out t' ⟨ht, hown⟩ hstep hmatch
      exact (handle_tabled ht hstep).ownBlocks_iff.mp (handle_ownBlocks ht hown hmatch hstep)

end Effects

end ConsensusService

/-! ## Confirmations for another block -/

namespace Sample

open ConsensusService StepMachines

def players : Players := ⟨["alice", "bob", "carol"], [1, 1, 1]⟩

theorem node_started : (start (input .buildBlock).env (keypair 2) "bob" players none :
    Except ConsensusPanic (Node × List (Output Hash Block Confirmation Transaction))) =
      .ok (node 2 3, []) := by
  have named : ((keypair 2).publicKey.accountId?).getD "" = "bob" := by decide +kernel
  rw [node, named]
  rfl

theorem bob_tabled :
    (finalOf handle (node 2 3) bobExecutes).blockProposals.length = 1 ∧
      Tabled (finalOf handle (node 2 3) bobExecutes) :=
  ⟨by decide +kernel, started_tabled node_started (traceOf_run (by decide +kernel))⟩

/-- Bob has a confirmation of alice's block, asks for more when it is old and gets the
block with carol's confirmation of her own. -/
def bobIsAnswered : List NodeInput :=
  [input (.blockConfirmationFromPeer (confirmation 1 (block 1 1 0) 0)),
    { input .checkOldBlockProposals with env.now := 20 },
    input (.verifyConfirmations (some (block 1 1 0, [])) [confirmation 3 (block 3 1 1) 0])]

/-- The thread of bob's old proposal hands the answer over, and carol's proposal then
holds alice's block. -/
theorem bob_stores_another_block :
    (∃ proposal, outputs (traceOf handle (node 2 3) bobIsAnswered) =
        [.confirmationsThread proposal,
          .msg .blockService (.blockFromPeer (block 1 1 0) (confirmation 3 (block 3 1 1) 0) [])] ∧
        (confirmationsThread proposal (fun _ => some ([confirmation 3 (block 3 1 1) 0],
            some (block 1 1 0, []))) : List (Output Hash Block Confirmation Transaction)) =
          [.msg .consensusService
            (.verifyConfirmations (some (block 1 1 0, [])) [confirmation 3 (block 3 1 1) 0])]) ∧
      Run (Computes handle) (node 2 3) (traceOf handle (node 2 3) bobIsAnswered)
        (finalOf handle (node 2 3) bobIsAnswered) ∧
      ¬ Along (fun _ e => e.after.Every fun _ proposal => HoldsOwnBlock proposal)
        (traceOf handle (node 2 3) bobIsAnswered) := by
  refine ⟨⟨⟨none, (block 1 1 0).getHash, 1, 1, [confirmation 1 (block 1 1 0) 0], 0, 20⟩,
    rfl, rfl⟩, traceOf_run (by decide +kernel), fun h => ?_⟩
  have hstored : ((traceOf handle (node 2 3) bobIsAnswered).any fun e =>
      e.after.blockProposals.any fun group => group.2.any fun proposal =>
        proposal.block.any fun entry => entry.1.getHash != proposal.blockHash) = true := by
    decide +kernel
  simp only [List.any_eq_true, Option.any_eq_true, bne_iff_ne] at hstored
  obtain ⟨e, he, group, hgroup, proposal, hproposal, entry, hentry, hother⟩ := hstored
  have hown := along_iff_forall.mp h e he group.1 proposal ⟨group.2, hgroup, hproposal⟩
  exact hother (hown entry.1 entry.2 hentry).1

theorem bob_stores_own_blocks :
    (finalOf handle (node 2 3) bobExecutes).blockProposals.length = 1 ∧
      Along (fun _ e => e.after.Every fun _ proposal => HoldsOwnBlock proposal)
        (traceOf handle (node 2 3) bobExecutes) :=
  ⟨by decide +kernel, (started_ownBlocks_iff node_started (traceOf_run (by decide +kernel))).mpr
    (along_of_all (by decide +kernel))⟩

end Sample

end Trinci
