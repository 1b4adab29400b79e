import Trinci.ConsensusConsolidations
import Trinci.ExecutionFrames
import Trinci.PlayersReaders

/-!
# A consolidation that fails

`consolidate_block` takes the fork out of the collector before the steps that may fail, and
its caller drops the error. The fork is gone with every failure, no service is told, and the
consensus service waits for a block that will not come: only `BlockConsolidated` ends its
consolidation, and a second attempt would end the wasm service.
-/

namespace Trinci

open StepMachines

/-- What goes wrong outside while a block is consolidated. -/
structure Faults where
  /-- A thread panicked with the database. -/
  poisoned : Bool
  /-- The database does not take the patch. -/
  mergeFails : Bool
  /-- The event of the block is not encoded. -/
  encodingFails : Bool

inductive ConsolidationError
  | mergeFork
  | rmpSerialize
  deriving DecidableEq

variable {W : Type}

namespace WasmService

variable [Primitives] [Serialize BlockData] [NodeCodec]

/-- `consolidate_block`: what it returned, with the new state. -/
def tryConsolidateBlock (s : WasmService W) (faults : Faults) (block : Block)
    (confirmations : List Confirmation) (txsHashes : List Hash) :
    Except ExecutionPanic (Except ConsolidationError Unit × WasmService W × List WasmOutput) :=
  match s.forksCollector.lookup block.getHash with
  | none => .error .missingFork
  | some executed =>
    let s := { s with forksCollector := s.forksCollector.erase block.getHash }
    let fork := executed.fork.modify fun db => db.storeBlock block confirmations
    if faults.poisoned || faults.mergeFails then .ok (.error .mergeFork, s, [])
    else
      let s := { s with
        db := s.db.mergeFork fork
        executed := s.executed ++ executed.executed
        ran := s.ran ++ executed.ran }
      if faults.encodingFails then .ok (.error .rmpSerialize, s, [])
      else do
        let players ← loadPlayers s.db.accounts
        return (.ok (), { s with forksCollector := ∅ },
          [.msg .blockService (.blockConsolidated block txsHashes players)])

variable {s t : WasmService W} {faults : Faults} {block : Block}
  {confirmations : List Confirmation} {txsHashes : List Hash} {out : List WasmOutput}
  {e : ConsolidationError}

/-- Where nothing goes wrong, it is the consolidation. -/
theorem tryConsolidateBlock_of_noFaults (s : WasmService W) (block : Block)
    (confirmations : List Confirmation) (txsHashes : List Hash) :
    s.tryConsolidateBlock ⟨false, false, false⟩ block confirmations txsHashes =
      (fun done => (.ok (), done)) <$> s.consolidateBlock block confirmations txsHashes := by
  rw [tryConsolidateBlock, consolidateBlock]
  cases s.forksCollector.lookup block.getHash with
  | none => rfl
  | some executed =>
    simp only [Bool.or_self, Bool.false_eq_true, if_false]
    cases loadPlayers (s.db.mergeFork
      (executed.fork.modify fun db => db.storeBlock block confirmations)).accounts with
    | error p => rfl
    | ok players => rfl

/-- A failure leaves the collector without the fork, and is not told to anyone. -/
theorem tryConsolidateBlock_error
    (h : s.tryConsolidateBlock faults block confirmations txsHashes = .ok (.error e, t, out)) :
    t.forksCollector = s.forksCollector.erase block.getHash ∧ out = [] := by
  rw [tryConsolidateBlock] at h
  split at h
  · cases h
  · next executed _ =>
    dsimp only at h
    split at h
    · cases h
      exact ⟨rfl, rfl⟩
    · split at h
      · cases h
        exact ⟨rfl, rfl⟩
      · obtain ⟨players, -, h⟩ := bind_eq_ok.mp h
        cases h

end WasmService

/-! ## The service that waits -/

namespace ConsensusService

universe u

variable {A B C T : Type u} [Executable B] [Confirmable C] [DecidableEq C] [Primitives]

/-- No block is consolidated. -/
def Unconsolidated (msg : Msg A B C T) : Prop :=
  ∀ block txsHashes players, msg ≠ .blockConsolidated block txsHashes players

/-- The next height is being consolidated. -/
def Waits (height : UInt64) (s : ConsensusService B C) : Prop :=
  s.height + 1 = height ∧ s.consolidationInProgress = some height

theorem effect_waits {env : Env} {s₀ s s' : ConsensusService B C} {msg : Msg A B C T}
    {out : List (Output A B C T)} {height : UInt64} (other : Unconsolidated msg)
    (h : s.Waits height) (effect : Effect env s₀ msg s out s') : s'.Waits height := by
  cases effect with
  | timeout _ _ _ => exact h
  | align _ => exact h
  | collect _ => exact h
  | tidy _ _ => exact h
  | update source hupdate =>
    obtain ⟨-, hheight, hprogress⟩ := source_started source
    rw [Waits, updateProposals_eq hupdate, hheight, hprogress]
    exact h
  | start _ _ _ _ _ _ => exact ⟨h.1, by rw [← h.1]⟩
  | consolidated received _ => exact absurd received (other _ _ _)
  | notify _ => exact h

/-- Without a consolidated block it waits for ever. -/
theorem run_waits {s₀ s : ConsensusService B C} {trace : Trace A B C T} {height : UInt64}
    (run : Run (Computes handle) s₀ trace s) (h : s₀.Waits height)
    (other : Along (fun _ e => Unconsolidated e.input.msg) trace) : s.Waits height := by
  refine run.invariant (fun _ s => s.Waits height) h ?_ other
  intro trace s input out s' hwaits hstep hother
  obtain ⟨_, chain, -⟩ := handleMessages_effects hstep
  refine Chain.invariant (fun _ t => t.Waits height) ?_ chain hwaits
  intro _ _ _ _ waits effect
  exact effect_waits hother waits effect

end ConsensusService

section Failures

variable [Primitives] [Serialize BlockData] [NodeCodec] [Serialize ConfirmationData]
  {s t : WasmService W} {faults : Faults} {block : Block} {confirmations : List Confirmation}
  {txsHashes : List Hash} {out : List WasmOutput} {e : ConsolidationError}
  {c : ConsensusService Block Confirmation}

/-- The block may be consolidated later: its fork is there, and the consensus service comes
out of its wait. -/
structure Recoverable (t : WasmService W) (c : ConsensusService Block Confirmation)
    (block : Block) : Prop where
  fork : (t.forksCollector.lookup block.getHash).isSome = true
  leaves : ∃ (trace : ConsensusService.Trace Hash Block Confirmation Transaction)
    (c' : ConsensusService Block Confirmation),
    Run (Computes ConsensusService.handle) c trace c' ∧
      Along (fun _ e => ConsensusService.Unconsolidated e.input.msg) trace ∧
      c'.consolidationInProgress ≠ some block.data.height

/-- After no failed consolidation the fork is there, nor does the consensus service come out
of its wait; a later attempt would find no fork either, and ends the service. -/
theorem failed_consolidation_lost
    (h : s.tryConsolidateBlock faults block confirmations txsHashes = .ok (.error e, t, out)) :
    ¬ Recoverable t c block ∧ t.forksCollector.lookup block.getHash = none ∧ out = [] ∧
      (∀ later, t.tryConsolidateBlock later block confirmations txsHashes =
        .error .missingFork) ∧
      ∀ (trace : ConsensusService.Trace Hash Block Confirmation Transaction)
        (c' : ConsensusService Block Confirmation), c.Waits block.data.height →
        Run (Computes ConsensusService.handle) c trace c' →
        Along (fun _ e => ConsensusService.Unconsolidated e.input.msg) trace →
        c'.consolidationInProgress = some block.data.height := by
  obtain ⟨collector, silent⟩ := WasmService.tryConsolidateBlock_error h
  have gone : t.forksCollector.lookup block.getHash = none := by
    rw [collector, AList.lookup_erase]
  refine ⟨fun recoverable => ?_, gone, silent, fun later => ?_, fun trace c' waits run other => ?_⟩
  · have held := recoverable.fork
    rw [gone] at held
    cases held
  · rw [WasmService.tryConsolidateBlock, gone]
  · exact (ConsensusService.run_waits run waits other).2

end Failures

/-! ## A database that does not take the patch -/

namespace Sample

open ConsensusService

/-- Alice's only node asked to consolidate its block of height one. -/
def waiting : Node :=
  finalOf handle (node 1 1) [input (.proposalAfterBuild (block 1 1 0) 0 [])]

/-- The block was executed. -/
def executedBlock : WasmService Unit :=
  { enrolling [1] with
    forksCollector := (∅ : AList fun _ : Hash => ExecutedFork).insert (block 1 1 0).getHash
      ⟨⟨{ Db.empty with accounts := roster [1] }, Db.empty⟩, [], []⟩ }

/-- The disk is full. -/
def refuses : Faults := ⟨false, true, false⟩

theorem patch_refused : executedBlock.tryConsolidateBlock refuses (block 1 1 0) [] [] =
    .ok (.error .mergeFork, { executedBlock with forksCollector := ∅ }, []) := by
  have erased : executedBlock.forksCollector.erase (block 1 1 0).getHash = ∅ := by
    apply AList.ext
    change List.kerase (block 1 1 0).getHash executedBlock.forksCollector.entries = []
    simp only [executedBlock, AList.insert_empty, AList.singleton_entries, List.kerase_cons_eq]
  rw [WasmService.tryConsolidateBlock, ← erased, executedBlock, AList.lookup_insert]
  rfl

/-- The fork was there before the merge failed, and is not there after it. -/
theorem fork_lost : waiting.consolidationInProgress = some 1 ∧
    (executedBlock.forksCollector.lookup (block 1 1 0).getHash).isSome = true ∧
    executedBlock.tryConsolidateBlock refuses (block 1 1 0) [] [] =
      .ok (.error .mergeFork, { executedBlock with forksCollector := ∅ }, []) ∧
    ¬ Recoverable { executedBlock with forksCollector := ∅ } waiting (block 1 1 0) := by
  refine ⟨by decide +kernel, ?_, patch_refused, fun recoverable => ?_⟩
  · rw [executedBlock, AList.lookup_insert]
    rfl
  have held := recoverable.fork
  rw [AList.lookup_empty] at held
  cases held

/-- When the disk has room again, the next attempt ends the service. -/
theorem attempt_ends : ({ executedBlock with forksCollector := ∅ } :
    WasmService Unit).tryConsolidateBlock ⟨false, false, false⟩ (block 1 1 0) [] [] =
      .error .missingFork :=
  (failed_consolidation_lost (c := waiting) patch_refused).2.2.2.1 ⟨false, false, false⟩

end Sample

end Trinci
