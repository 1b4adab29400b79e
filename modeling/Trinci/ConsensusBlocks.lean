import Trinci.ConsensusEffects

/-!
# The blocks stored with the proposals

A stored proposal always has a first confirmation, and it is for the proposal's
own height, hash and round. A block is filled in once: by its execution or its
building, from another stored proposal, or from a peer's answer to a request for
confirmations. The last of these is the only entry that nothing else justifies;
`fills` names it, and every result about stored blocks is relative to it.
-/

namespace Trinci

namespace ConsensusService

open StepMachines

universe u

variable {A B C T : Type u}

section Tables

variable {s s' : ConsensusService B C} {P : UInt64 → BlockProposal B C → Prop}

theorem Every.of_subset (all : s.Every P)
    (sub : ∀ group ∈ s'.blockProposals, group ∈ s.blockProposals) : s'.Every P := by
  rintro height proposal ⟨proposals, hgroup, hmem⟩
  exact all height proposal ⟨proposals, sub _ hgroup, hmem⟩

theorem Every.congr (all : s.Every P) (same : s'.blockProposals = s.blockProposals) :
    s'.Every P :=
  all.of_subset fun group hgroup => by rwa [same] at hgroup

theorem every_of_empty (empty : s.blockProposals = []) : s.Every P := by
  rintro height proposal ⟨proposals, hgroup, -⟩
  simp [empty] at hgroup

theorem findProposal_congr (same : s'.blockProposals = s.blockProposals) (hash : Hash)
    (height : UInt64) (round : UInt8) :
    s'.findProposal hash height round = s.findProposal hash height round := by
  simp only [findProposal, same]

end Tables

/-- The first confirmation of a proposal is for the proposal itself. -/
def Headed [Confirmable C] (height : UInt64) (proposal : BlockProposal B C) : Prop :=
  ∃ first rest, proposal.receivedConfirmations = first :: rest ∧
    Confirmable.getBlockHash first = proposal.blockHash ∧
    Confirmable.getBlockHeight first = height ∧
    Confirmable.getBlockRound first = proposal.round

/-- The stored block, if any, satisfies `Q` at the proposal's height and hash. -/
def BlocksAre (Q : UInt64 → Hash → B → Prop) (height : UInt64)
    (proposal : BlockProposal B C) : Prop :=
  ∀ block txsHashes, proposal.block = some (block, txsHashes) →
    Q height proposal.blockHash block

/-- The block a message puts into a proposal that had none, with the first of the
confirmations it came with. -/
def fills [Executable B] [Confirmable C] (s : ConsensusService B C) (msg : Msg A B C T) :
    Option (C × B) :=
  match s.incoming msg with
  | (first :: _, some (block, _)) =>
    if (s.findKey first).any fun proposal => proposal.block.isSome then none
    else some (first, block)
  | _ => none

section Absorbed

variable [Confirmable C] [DecidableEq C]

theorem Headed.absorb {height : UInt64} {proposal : BlockProposal B C}
    (h : Headed height proposal) (block : Option (B × List Hash)) (c : C) :
    Headed height (proposal.absorb block c) := by
  obtain ⟨first, rest, hreceived, hhash, hheight, hround⟩ := h
  by_cases hmem : c ∈ proposal.receivedConfirmations
  · exact ⟨first, rest, by rw [absorb_received, if_pos hmem, hreceived], by simpa using hhash,
      hheight, by simpa using hround⟩
  · refine ⟨first, rest ++ [c], ?_, by simpa using hhash, hheight, by simpa using hround⟩
    rw [absorb_received, if_neg hmem, hreceived, List.cons_append]

theorem Headed.foldl_absorb {height : UInt64} {proposal : BlockProposal B C}
    (h : Headed height proposal) (block : Option (B × List Hash)) (confirmations : List C) :
    Headed height (confirmations.foldl (BlockProposal.absorb block) proposal) := by
  induction confirmations generalizing proposal with
  | nil => exact h
  | cons c rest ih => exact ih (h.absorb block c)

omit [DecidableEq C] in
theorem headed_fresh (env : Env) (first : C) (rest : List C)
    (block : Option (B × List Hash)) :
    Headed (Confirmable.getBlockHeight first) (freshProposal env first (first :: rest) block) :=
  ⟨first, rest, rfl, rfl, rfl, rfl⟩

omit [Confirmable C] in
theorem BlocksAre.foldl_absorb {Q : UInt64 → Hash → B → Prop} {height : UInt64}
    {proposal : BlockProposal B C} (h : BlocksAre Q height proposal)
    {block : Option (B × List Hash)}
    (justified : proposal.block = none → ∀ b txsHashes, block = some (b, txsHashes) →
      Q height proposal.blockHash b) (confirmations : List C) :
    BlocksAre Q height (confirmations.foldl (BlockProposal.absorb block) proposal) := by
  intro b txsHashes hb
  rw [foldl_absorb_blockHash]
  rcases foldl_absorb_block block proposal confirmations with hsame | hfilled
  · exact h b txsHashes (hsame.symm.trans hb)
  · rw [hfilled] at hb
    cases hblock : proposal.block with
    | some entry =>
      rw [hblock, Option.some_or] at hb
      exact h b txsHashes (hblock.trans hb)
    | none =>
      rw [hblock, Option.none_or] at hb
      exact justified hblock b txsHashes hb

end Absorbed

section Effects

variable [Primitives] [Executable B] [Confirmable C] [DecidableEq C] {env : Env}
  {s₀ s s' : ConsensusService B C} {msg : Msg A B C T} {out : List (Output A B C T)}

/-- Only an update brings new proposals into the table. -/
theorem effect_every {P : UInt64 → BlockProposal B C → Prop}
    (timeless : ∀ height p t, P height p → P height { p with timestamp := t })
    (all : s.Every P) (effect : Effect env s₀ msg s out s')
    (updates : ∀ confirmations block t, Source env s₀ msg s confirmations block out t →
      t.updateProposals env confirmations block = .ok s' → s'.Every P) : s'.Every P := by
  cases effect with
  | timeout _ _ _ => exact all.congr rfl
  | align _ => exact all.congr rfl
  | collect _ => exact all.congr rfl
  | tidy htidied _ => exact every_tidied htidied all timeless
  | update source hupdate => exact updates _ _ _ source hupdate
  | start _ _ _ _ _ _ => exact all.congr rfl
  | consolidated _ _ => exact all.of_subset fun group hgroup => (List.mem_filter.mp hgroup).1
  | notify _ => exact all

omit [DecidableEq C] in
theorem source_blockProposals {confirmations : List C} {block : Option (B × List Hash)}
    {t : ConsensusService B C} (source : Source env s₀ msg s confirmations block out t) :
    t.blockProposals = s.blockProposals := by
  cases source <;> rfl

theorem effect_headed (headed : s.Every Headed) (effect : Effect env s₀ msg s out s') :
    s'.Every Headed := by
  refine effect_every (fun _ _ _ h => h) headed effect ?_
  intro confirmations block t source hupdate
  obtain ⟨first, rest, rfl⟩ := updateProposals_cons hupdate
  have table : t.Every Headed := headed.congr (source_blockProposals source)
  refine every_updateProposals hupdate table ?_ ?_
  · intro old hfound
    obtain ⟨hheld, -, -⟩ := findProposal_some hfound
    exact (table _ old hheld).foldl_absorb block _
  · intro _
    exact headed_fresh env first rest block

omit [DecidableEq C] in
/-- An update that is not taken from a message is for the block it brings, and the
block was executed or built here or is already stored. -/
theorem source_block (headed : s.Every Headed) {first : C} {rest : List C}
    {block : Option (B × List Hash)} {t : ConsensusService B C}
    (source : Source env s₀ msg s (first :: rest) block out t) :
    (s₀.incoming msg = (first :: rest, block) ∧ s.blockProposals = s₀.blockProposals) ∨
    ∃ b txsHashes, block = some (b, txsHashes) ∧
      Confirmable.getBlockHash first = Executable.getHash b ∧
      Confirmable.getBlockHeight first = Executable.getHeight b ∧
      (msg = .blockExecutionEnded b txsHashes ∨
        (∃ height proposal, s.Holds height proposal ∧
          proposal.block = some (b, txsHashes)) ∨
        ∃ built round, msg = .proposalAfterBuild built round txsHashes ∧
          b = Executable.sign s₀.keypair env.blockRng built) := by
  generalize hconfirmations : first :: rest = confirmations at source
  cases source with
  | taken hincoming hsame => exact Or.inl ⟨hincoming, hsame⟩
  | @executed b txsHashes proposal hmsg hfound =>
    obtain ⟨hheld, hhash, -⟩ := findProposal_some hfound
    obtain ⟨head, tail, hreceived, hheadHash, hheadHeight, -⟩ := headed _ _ hheld
    obtain ⟨rfl, rfl⟩ := List.cons.inj (hconfirmations.trans hreceived)
    exact Or.inr ⟨b, txsHashes, rfl, hheadHash.trans hhash, hheadHeight, Or.inl hmsg⟩
  | @voted _ b txsHashes round confirmations hcasts _ =>
    right
    refine ⟨b, txsHashes, rfl, ?_⟩
    cases hcasts with
    | @executed _ _ proposal hfound =>
      obtain ⟨hheld, hhash, -⟩ := findProposal_some hfound
      obtain ⟨head, tail, hreceived, hheadHash, hheadHeight, -⟩ := headed _ _ hheld
      rw [hreceived, List.cons_append] at hconfirmations
      obtain ⟨rfl, -⟩ := List.cons.inj hconfirmations
      exact ⟨hheadHash.trans hhash, hheadHeight, Or.inl rfl⟩
    | @nextRound height _ proposal _ _ hheld _ hblock =>
      obtain ⟨rfl, -⟩ := List.cons.inj hconfirmations
      exact ⟨by simp [confirm], by simp [confirm],
        Or.inr (Or.inl ⟨height, proposal, hheld, hblock⟩)⟩
  | @built b round txsHashes hmsg _ =>
    obtain ⟨rfl, -⟩ := List.cons.inj hconfirmations
    exact Or.inr ⟨_, txsHashes, rfl, by simp [confirm], by simp [confirm],
      Or.inr (Or.inr ⟨b, round, hmsg, rfl⟩)⟩

/-- Stored blocks keep `Q` as long as blocks that are executed, built or filled in
from a peer satisfy it for the key they are stored under. -/
theorem effect_blocks {Q : UInt64 → Hash → B → Prop}
    (settles : ∀ height hash b, Q height hash b →
      Q (Executable.getHeight b) (Executable.getHash b) b)
    (filled : ∀ first b, s₀.fills msg = some (first, b) →
      Q (Confirmable.getBlockHeight first) (Confirmable.getBlockHash first) b)
    (executed : ∀ b txsHashes, msg = .blockExecutionEnded b txsHashes →
      Q (Executable.getHeight b) (Executable.getHash b) b)
    (built : ∀ b round txsHashes, msg = .proposalAfterBuild b round txsHashes →
      Q (Executable.getHeight b) (Executable.getHash b)
        (Executable.sign s₀.keypair env.blockRng b))
    (headed : s.Every Headed) (all : s.Every (BlocksAre Q))
    (effect : Effect env s₀ msg s out s') : s'.Every (BlocksAre Q) := by
  refine effect_every (fun _ _ _ h => h) all effect ?_
  intro confirmations block t source hupdate
  obtain ⟨first, rest, rfl⟩ := updateProposals_cons hupdate
  have same : t.blockProposals = s.blockProposals := source_blockProposals source
  -- the block of the update satisfies `Q` unless its proposal already has one
  have justified : (∀ old, t.findKey first = some old → old.block = none) →
      ∀ b txsHashes, block = some (b, txsHashes) →
        Q (Confirmable.getBlockHeight first) (Confirmable.getBlockHash first) b := by
    rintro hempty b txsHashes rfl
    rcases source_block headed source with ⟨hincoming, hsame⟩ | ⟨b', hashes', hb, hhash,
      hheight, horigin⟩
    · apply filled first b
      have hkey : s₀.findKey first = t.findKey first :=
        (findProposal_congr (same.trans hsame) _ _ _).symm
      have hnone : ((s₀.findKey first).any fun p => p.block.isSome) = false := by
        rw [hkey]
        cases hfound : t.findKey first with
        | none => rfl
        | some old => simp [hempty old hfound]
      simp only [fills, hincoming, hnone, Bool.false_eq_true, if_false]
    · obtain ⟨rfl, rfl⟩ : b = b' ∧ txsHashes = hashes' := by simpa using hb
      rw [hhash, hheight]
      rcases horigin with hmsg | ⟨height, proposal, hheld, hblock⟩ | ⟨b₀, round, hmsg, rfl⟩
      · exact executed b txsHashes hmsg
      · exact settles _ _ b (all height proposal hheld b txsHashes hblock)
      · simpa using built b₀ round txsHashes hmsg
  have table : t.Every (BlocksAre Q) := all.congr same
  refine every_updateProposals hupdate table ?_ ?_
  · intro old hfound
    obtain ⟨hheld, hhash, -⟩ := findProposal_some hfound
    refine (table _ old hheld).foldl_absorb ?_ _
    intro hnone b txsHashes hb
    rw [hhash]
    refine justified (fun old' hfound' => ?_) b txsHashes hb
    obtain rfl : old = old' := Option.some.inj (hfound.symm.trans hfound')
    exact hnone
  · intro hnone b txsHashes hb
    exact justified (fun old hfound => by simp [hnone] at hfound) b txsHashes hb

end Effects

end ConsensusService

end Trinci
