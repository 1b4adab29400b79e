import Trinci.ConsensusBlocks
import Trinci.ConsensusVotes

/-!
# At most one consolidation request for each height

A quorum check for the next height sets `consolidation_in_progress`, and all its
callers but one look at that field first. The exception is the only player of a
network announcing a block it built: it asks for consolidation again when a
second round is built before the first block is stored. Without such a message
every height is requested once.
-/

namespace Trinci

namespace ConsensusService

open StepMachines

universe u

variable {A B C T : Type u} [Executable B]

/-- The heights of the blocks whose consolidation was requested. -/
def startedHeights (out : List (Output A B C T)) : List UInt64 :=
  (startedIn out).map fun request => Executable.getHeight request.1

@[simp]
theorem startedHeights_append (xs ys : List (Output A B C T)) :
    startedHeights (xs ++ ys) = startedHeights xs ++ startedHeights ys := by
  simp [startedHeights]

/-- A consolidation is above the current height; the first one of a new node, its
genesis block, is at the height the service starts with. -/
def consolidationsIncrease (s : ConsensusService B C) : Msg A B C T → Bool
  | .blockConsolidated block _ _ =>
    s.height < Executable.getHeight block ||
      (s.height == Executable.getHeight block && s.consolidationInProgress.isNone)
  | _ => true

/-- The only player does not announce another block of a height whose
consolidation it has already requested. -/
def announcesOnce (s : ConsensusService B C) : Msg A B C T → Bool
  | .proposalAfterBuild block round _ =>
    !(s.players.playersIds.length == 1 && Executable.getHeight block == s.height + 1 &&
      s.consolidationInProgress == some (s.height + 1) &&
      !(s.proposalExitPoll.contains (Executable.getHeight block, round)))
  | _ => true

/-- A block filled in from a peer has the height of the confirmations it came with. -/
def fillsSameHeight [Confirmable C] (s : ConsensusService B C) (msg : Msg A B C T) : Bool :=
  match s.fills msg with
  | some (first, block) => Executable.getHeight block == Confirmable.getBlockHeight first
  | none => true

/-- Requested heights are distinct; each is behind, or it is the next height and
its consolidation is in progress. A height that is behind is not zero, which only
the successor of the greatest height could be. -/
structure RequestedOnce (heights : List UInt64) (s : ConsensusService B C) : Prop where
  distinct : heights.Nodup
  settled : ∀ h ∈ heights, (h ≠ 0 ∧ h ≤ s.height) ∨
    (h = s.height + 1 ∧ s.consolidationInProgress = some h)

omit [Executable B] in
theorem RequestedOnce.congr {heights : List UInt64} {s s' : ConsensusService B C}
    (h : RequestedOnce heights s) (height : s'.height = s.height)
    (progress : s'.consolidationInProgress = s.consolidationInProgress) :
    RequestedOnce heights s' :=
  ⟨h.distinct, fun k hk => by rw [height, progress]; exact h.settled k hk⟩

omit [Executable B] in
theorem RequestedOnce.perm {heights heights' : List UInt64} {s : ConsensusService B C}
    (h : RequestedOnce heights s) (perm : heights.Perm heights') : RequestedOnce heights' s :=
  ⟨perm.nodup h.distinct, fun k hk => h.settled k (perm.mem_iff.mpr hk)⟩

omit [Executable B] in
/-- A request for the next height while none is in progress for it. -/
theorem RequestedOnce.request {heights : List UInt64} {s s' : ConsensusService B C}
    (h : RequestedOnce heights s) (idle : s.consolidationInProgress ≠ some (s.height + 1))
    (height : s'.height = s.height)
    (progress : s'.consolidationInProgress = some (s.height + 1)) :
    RequestedOnce (heights ++ [s.height + 1]) s' where
  distinct := by
    refine List.nodup_append.mpr ⟨h.distinct, by simp, ?_⟩
    intro k hk k' hk' heq
    obtain rfl : k' = s.height + 1 := by simpa using hk'
    rcases h.settled k hk with ⟨hzero, hle⟩ | ⟨-, hbusy⟩
    · grind
    · exact idle (heq ▸ hbusy)
  settled k hk := by
    rw [height, progress]
    rcases List.mem_append.mp hk with hk | hk
    · rcases h.settled k hk with hbehind | ⟨hnext, hbusy⟩
      · exact Or.inl hbehind
      · exact False.elim (idle (hnext ▸ hbusy))
    · obtain rfl : k = s.height + 1 := by simpa using hk
      exact Or.inr ⟨rfl, rfl⟩

omit [Executable B] in
/-- A consolidation leaves every requested height behind. -/
theorem RequestedOnce.reset {heights : List UInt64} {s s' : ConsensusService B C}
    (h : RequestedOnce heights s)
    (increases : s.height < s'.height ∨
      (s.height = s'.height ∧ s.consolidationInProgress = none)) :
    RequestedOnce heights s' := by
  refine ⟨h.distinct, fun k hk => Or.inl ?_⟩
  rcases increases with higher | ⟨hsame, hidle⟩
  · rcases h.settled k hk with ⟨hzero, hle⟩ | ⟨rfl, -⟩
    · exact ⟨hzero, UInt64.le_of_lt (UInt64.lt_of_le_of_lt hle higher)⟩
    · grind
  · rcases h.settled k hk with ⟨hzero, hle⟩ | ⟨-, hbusy⟩
    · exact ⟨hzero, hsame ▸ hle⟩
    · simp [hidle] at hbusy

variable [Primitives] [Confirmable C] [DecidableEq C] {env : Env}
  {s₀ s s' : ConsensusService B C} {msg : Msg A B C T} {done out : List (Output A B C T)}

/-- The invariant of a run: requests as above, over a table whose blocks have the
height they are stored under. -/
structure Requests (heights : List UInt64) (s : ConsensusService B C) : Prop where
  once : RequestedOnce heights s
  headed : s.Every Headed
  blocks : s.Every (BlocksAre fun height _ b => Executable.getHeight b = height)

omit [Primitives] [Confirmable C] [DecidableEq C] in
theorem RequestedOnce.silent (h : RequestedOnce (startedHeights done) s)
    (silent : startedIn out = []) (height : s'.height = s.height)
    (progress : s'.consolidationInProgress = s.consolidationInProgress) :
    RequestedOnce (startedHeights (done ++ out)) s' := by
  rw [startedHeights_append, startedHeights, startedHeights, silent, List.map_nil,
    List.append_nil]
  exact h.congr height progress

omit [DecidableEq C] in
theorem source_started {confirmations : List C} {block : Option (B × List Hash)}
    {t : ConsensusService B C} (source : Source env s₀ msg s confirmations block out t) :
    startedIn out = [] ∧ t.height = s.height ∧
      t.consolidationInProgress = s.consolidationInProgress := by
  cases source <;> exact ⟨rfl, rfl, rfl⟩

theorem effect_requestedOnce (increase : s₀.consolidationsIncrease msg = true)
    (announce : s₀.announcesOnce msg = true)
    (blocks : s.Every (BlocksAre fun height _ b => Executable.getHeight b = height))
    (h : RequestedOnce (startedHeights done) s) (effect : Effect env s₀ msg s out s') :
    RequestedOnce (startedHeights (done ++ out)) s' := by
  cases effect with
  | timeout _ _ _ => exact h.silent rfl rfl rfl
  | align _ => exact h.silent rfl rfl rfl
  | collect _ => exact h.silent rfl rfl rfl
  | tidy _ _ => exact h.silent rfl rfl rfl
  | update source hupdate =>
    obtain ⟨hsilent, hheight, hprogress⟩ := source_started source
    refine h.silent hsilent ?_ ?_
    · rw [updateProposals_eq hupdate, ← hheight]
    · rw [updateProposals_eq hupdate, ← hprogress]
  | @start _ proposal block txsHashes _ _ hmay _ hfound hblock _ _ =>
    have hidle : s.consolidationInProgress ≠ some (s.height + 1) := by
      rcases hmay with hidle | ⟨⟨built, round, hashes, hmsg, hspare, hnext, hsingle⟩, hprogress,
        hheight⟩
      · exact hidle
      · rw [hprogress, hheight]
        rw [hnext] at hspare
        simpa [hmsg, announcesOnce, hsingle, hnext, hspare] using announce
    obtain ⟨hheld, -, -⟩ := findProposal_some hfound
    have hblockHeight : Executable.getHeight block = s.height + 1 :=
      blocks _ _ hheld block txsHashes hblock
    rw [startedHeights_append]
    simp only [startedHeights, startedIn, Output.started, List.filterMap_cons,
      List.filterMap_nil, List.map_cons, List.map_nil, hblockHeight]
    exact h.request hidle rfl rfl
  | consolidated hmsg hquiet =>
    rw [startedHeights_append, startedHeights, startedHeights, startedIn_quiet hquiet,
      List.map_nil, List.append_nil]
    refine h.reset ?_
    simpa [hmsg, consolidationsIncrease, resetProposals] using increase
  | notify hquiet => exact h.silent (startedIn_quiet hquiet) rfl rfl

theorem effect_requests (increase : s₀.consolidationsIncrease msg = true)
    (announce : s₀.announcesOnce msg = true) (same : s₀.fillsSameHeight msg = true)
    (h : Requests (startedHeights done) s) (effect : Effect env s₀ msg s out s') :
    Requests (startedHeights (done ++ out)) s' where
  once := effect_requestedOnce increase announce h.blocks h.once effect
  headed := effect_headed h.headed effect
  blocks := by
    refine effect_blocks (fun _ _ _ _ => rfl) ?_ (fun _ _ _ => rfl) ?_ h.headed h.blocks effect
    · intro first b hfills
      simpa [fillsSameHeight, hfills] using same
    · intro b round txsHashes _
      simp

/-- Over every run that starts with no proposal and no request pending, in which
consolidated heights increase, a lone player announces one block while a height is
being consolidated and peers fill in blocks of the right height, no height is
requested twice. -/
theorem started_once_per_height {s₀ s : ConsensusService B C}
    {trace : Trace A B C T}
    (run : Run (Computes handle) s₀ trace s) (fresh : s₀.blockProposals = [])
    (increase : Along (fun _ e => e.before.consolidationsIncrease e.input.msg = true) trace)
    (announce : Along (fun _ e => e.before.announcesOnce e.input.msg = true) trace)
    (same : Along (fun _ e => e.before.fillsSameHeight e.input.msg = true) trace) :
    (startedHeights (outputs trace)).Nodup := by
  have requests : Requests (startedHeights (outputs trace)) s := by
    refine run.invariant (fun trace s => Requests (startedHeights (outputs trace)) s) ?_ ?_
      ((increase.and announce).and same)
    · exact ⟨⟨List.nodup_nil, by simp [startedHeights, startedIn]⟩, every_of_empty fresh,
        every_of_empty fresh⟩
    · rintro trace s input out s' hinv hstep ⟨⟨hincrease, hannounce⟩, hsame⟩
      rw [outputs_snoc]
      refine handle_invariant (fun xs t => Requests (startedHeights xs) t) hstep hinv ?_ ?_
      · intro xs ys t hperm h
        exact ⟨h.once.perm ((hperm.filterMap _).map _), h.headed, h.blocks⟩
      · intro xs t ys t' h effect
        exact effect_requests hincrease hannounce hsame h effect
  exact requests.once.distinct

end ConsensusService

/-! ## A single player -/

namespace Sample

open ConsensusService StepMachines

/-- The only player builds for height one in round zero, and after a timeout again
in round one, before the first block is stored. -/
def aliceRebuilds : List NodeInput :=
  [input (.proposalAfterBuild (block 1 1 0) 0 []),
    input (.proposalAfterBuild (block 1 1 1) 1 [])]

/-- Both rounds are sent to consolidation although no height was consolidated in
between. -/
theorem alice_requests_twice :
    Run (Computes handle) (node 1 1) (traceOf handle (node 1 1) aliceRebuilds)
        (finalOf handle (node 1 1) aliceRebuilds) ∧
      (traceOf handle (node 1 1) aliceRebuilds).all
        (fun e => e.before.consolidationsIncrease e.input.msg) = true ∧
      startedHeights (outputs (traceOf handle (node 1 1) aliceRebuilds)) = [1, 1] ∧
      ¬ (startedHeights (outputs (traceOf handle (node 1 1) aliceRebuilds))).Nodup :=
  ⟨traceOf_run (by decide +kernel), by decide +kernel, by decide +kernel, by decide +kernel⟩

/-- The only player builds for heights one and two, each consolidated in turn. -/
def aliceBuildsOn : List NodeInput :=
  [input (.proposalAfterBuild (block 1 1 0) 0 []),
    input (.blockConsolidated (block 1 1 0) [] ⟨["alice"], [1]⟩),
    input (.proposalAfterBuild (block 1 2 0) 0 [])]

theorem alice_requests_each_height_once :
    startedHeights (outputs (traceOf handle (node 1 1) aliceBuildsOn)) = [1, 2] ∧
      (startedHeights (outputs (traceOf handle (node 1 1) aliceBuildsOn))).Nodup :=
  ⟨by decide +kernel, started_once_per_height (traceOf_run (by decide +kernel)) rfl
    (along_of_all (by decide +kernel)) (along_of_all (by decide +kernel))
    (along_of_all (by decide +kernel))⟩

end Sample

end Trinci
