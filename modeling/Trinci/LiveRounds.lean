import Trinci.ConsensusLookups
import Trinci.LiveHeights

/-!
# The rounds of a running node

The consensus service moves to the round of a timeout, of an alignment block or back to
the first one with a new block. The block service follows with the larger of two rounds,
and goes back with the block as well. Every timeout is about the height that is to be
built when it arrives; its round is that of the timer, which may be an old one.
-/

namespace Trinci

open StepMachines

variable {W : Type}

namespace LiveNode

section Rounds

variable [Primitives] [Serialize BlockData] [Serialize ConfirmationData] [NodeCodec] [Merkle]
  [Pcg32] [Wm W] {n n' : LiveNode W} {input : LiveInput W} {out : List NodeOutput}

/-- The consensus service takes a message, or stays what it is, or the node restarts. -/
theorem LiveStep.consensus_cases (step : LiveStep n input out n') :
    (∃ env msg rest core, input = .consensus env ∧ n.toConsensus = .msg msg :: rest ∧
        Drawing.handleMessages env ⟨n.consensus, n.wasm.drand⟩ msg = .ok (core, out) ∧
        n'.consensus = core.consensus) ∨
      n'.consensus = n.consensus ∧ takenMsg ⟨n, input, out, n'⟩ = none ∨
      isRestart input = true := by
  cases step with
  | consensus heq hcore => exact .inl ⟨_, _, _, _, rfl, heq, hcore, rfl⟩
  | leader heq => exact .inr (.inl ⟨rfl, by simp only [takenMsg, heq]⟩)
  | restarts _ => exact .inr (.inr rfl)
  | @enters input _ entry _ =>
    refine .inr (.inl ⟨rfl, ?_⟩)
    cases input <;> first | rfl | cases entry
  | _ => exact .inr (.inl ⟨rfl, rfl⟩)

/-! ## Rounds between two blocks -/

/-- The round does not go back except with a new block, and a timeout for another height
than the next one leaves it. -/
structure KeepsRound (e : LiveEvent W) : Prop where
  advances : isRestart e.input = false → (takenMsg e).bind consolidatedBlock = none →
    e.before.consensus.actualRound ≤ e.after.consensus.actualRound
  elsewhere : ∀ height round, takenMsg e = some (.blockElectionFailed height round) →
    height ≠ e.before.consensus.height + 1 →
    e.after.consensus.actualRound = e.before.consensus.actualRound

/-- No timeout that is not dropped and no alignment block comes with a lower round. -/
structure NoOldRound (e : LiveEvent W) : Prop where
  timeout : ∀ height round, takenMsg e = some (.blockElectionFailed height round) →
    e.before.consensus.consolidationInProgress ≠ some height →
    e.before.consensus.actualRound ≤ round
  alignment : ∀ first rest, takenMsg e = some (.proposalFromAlignmentBlock (first :: rest)) →
    e.before.consensus.actualRound ≤ first.data.blockRound

omit [NodeCodec] [Merkle] [Wm W] in
theorem actualRound_after {env : Env} {d core : Drawing Block Confirmation} {msg : NodeMsg}
    (h : Drawing.handleMessages env d msg = .ok (core, out)) :
    core.consensus.actualRound = d.consensus.roundAfter msg :=
  ConsensusService.handle_actualRound (show ConsensusService.handle d.consensus
    ⟨Drawing.answeredFor d.seed env msg, msg⟩ = .ok (core.consensus, out) from
    (Drawing.handleMessages_ok h).1)

omit [Serialize ConfirmationData] [NodeCodec] [Merkle] [Pcg32] [Wm W] in
/-- A timeout is about the next height when the consensus service takes it. -/
theorem Ordered.failed_next {tip : Option Block} (h : Ordered n tip) {height : UInt64}
    {round : UInt8} {rest : List ConsensusEntry}
    (heq : n.toConsensus = .msg (.blockElectionFailed height round) :: rest) :
    height = n.consensus.height + 1 := by
  have dated := h.dated
  rw [heq] at dated
  exact dated.1 height round rfl

theorem keepsRound_iff {tip : Option Block} (h : Ordered n tip) (step : LiveStep n input out n') :
    KeepsRound ⟨n, input, out, n'⟩ ↔ NoOldRound ⟨n, input, out, n'⟩ := by
  rcases step.consensus_cases with ⟨env, msg, rest, core, rfl, heq, hcore, hafter⟩ |
    ⟨hafter, htaken⟩ | hrestart
  · have taken : takenMsg ⟨n, .consensus env, out, n'⟩ = some msg := by
      simp only [takenMsg, heq]
    have round : n'.consensus.actualRound = n.consensus.roundAfter msg := by
      rw [hafter]
      exact actualRound_after hcore
    constructor
    · intro keeps
      have advances := keeps.advances rfl
      simp only [taken, round, Option.bind_some] at advances
      constructor
      · intro height round' hmsg idle
        cases taken.symm.trans hmsg
        simpa [ConsensusService.roundAfter, idle] using advances rfl
      · intro first rest' hmsg
        cases taken.symm.trans hmsg
        exact advances rfl
    · intro old
      constructor
      · intro _ other
        simp only [taken, Option.bind_some] at other
        change n.consensus.actualRound ≤ n'.consensus.actualRound
        rw [round]
        unfold ConsensusService.roundAfter
        split
        · split
          · exact UInt8.le_refl _
          · next idle => exact old.timeout _ _ taken idle
        · cases other
        · exact old.alignment _ _ taken
        · exact UInt8.le_refl _
      · intro height round' hmsg elsewhere
        cases taken.symm.trans hmsg
        exact absurd (h.failed_next heq) elsewhere
  · have same : n'.consensus.actualRound = n.consensus.actualRound := by rw [hafter]
    constructor
    · exact fun _ => ⟨fun _ _ h => absurd (htaken.symm.trans h) (by simp),
        fun _ _ h => absurd (htaken.symm.trans h) (by simp)⟩
    · exact fun _ => ⟨fun _ _ => same ▸ UInt8.le_refl _, fun _ _ _ _ => same⟩
  · have htaken : takenMsg ⟨n, input, out, n'⟩ = none := takenMsg_restart hrestart
    constructor
    · exact fun _ => ⟨fun _ _ h => absurd (htaken.symm.trans h) (by simp),
        fun _ _ h => absurd (htaken.symm.trans h) (by simp)⟩
    · refine fun _ => ⟨fun live _ => ?_, fun _ _ h => absurd (htaken.symm.trans h) (by simp)⟩
      rw [hrestart] at live
      cases live

/-- Over every run with its timers, whatever their number and delays, the rounds advance
between two blocks and timeouts for other heights leave them, exactly where no timeout
and no alignment block comes with an old round. -/
theorem rounds_advance_iff {start : LiveNode W} {trace : List (LiveEvent W)}
    (hashed : HeightsHashed) (started : Started start)
    (run : Run (Computes handle) start trace n) :
    Along (fun _ e => KeepsRound e) trace ↔ Along (fun _ e => NoOldRound e) trace := by
  have both : Along (fun _ e => KeepsRound e ↔ NoOldRound e) trace := by
    refine run.shows (fun n => ∃ tip, Ordered n tip) ⟨none, ordered_of_started started⟩ ?_ ?_
    · rintro n input out n' ⟨tip, ordered⟩ hstep
      exact ⟨_, ordered.step hashed (handle_step hstep)⟩
    · rintro n input out n' ⟨tip, ordered⟩ hstep
      exact keepsRound_iff ordered (handle_step hstep)
  constructor
  · exact fun keeps => (keeps.and both).imp fun _ _ h => h.2.mp h.1
  · exact fun old => (old.and both).imp fun _ _ h => h.2.mpr h.1

/-! ## The round kept twice -/

def fromBlockService : NodeMsg → Bool
  | .blockConsolidated _ _ _ => true
  | .proposalFromAlignmentBlock _ => true
  | _ => false

def fromConsensusService : NodeMsg → Bool
  | .blockFromPeer _ _ _ => true
  | .buildBlockInPlaceOfLeader _ => true
  | .refreshRound _ => true
  | _ => false

/-- No message between the consensus service and the block service is on its way. -/
structure Settled (n : LiveNode W) : Prop where
  consensus : ∀ msg, ConsensusEntry.msg msg ∈ n.toConsensus → fromBlockService msg = false
  block : ∀ msg ∈ n.toBlock, fromConsensusService msg = false

/-- The consensus service has still to take a new block. -/
def Announced (entries : List ConsensusEntry) : Prop :=
  ∃ block txsHashes players, .msg (.blockConsolidated block txsHashes players) ∈ entries

/-- A timeout is not dropped for an old round or behind a block, an alignment block is of
the current round, and the block service takes a new block after all it was told of the
rounds before. -/
structure Agreeable (e : LiveEvent W) : Prop where
  timeout : ∀ height round, takenMsg e = some (.blockElectionFailed height round) →
    e.before.consensus.consolidationInProgress ≠ some height →
    e.before.consensus.actualRound ≤ round ∧ ¬ Announced e.before.toConsensus
  alignment : ∀ first rest, takenMsg e = some (.proposalFromAlignmentBlock (first :: rest)) →
    first.data.blockRound = e.before.consensus.actualRound
  consolidated : ∀ msg block, takenByBlock e = some msg → consolidatedBlock msg = some block →
    ∀ round, .refreshRound round ∉ e.before.toBlock

/-- How the two rounds are apart. -/
inductive RoundsFollow (n : LiveNode W) : Prop
  | consolidating : Announced n.toConsensus → n.blockService.actualRound = 0 →
      (∀ round, .refreshRound round ∉ n.toBlock) → RoundsFollow n
  | following : ¬ Announced n.toConsensus →
      n.blockService.actualRound ≤ n.consensus.actualRound →
      (∀ round, .refreshRound round ∈ n.toBlock → round ≤ n.consensus.actualRound) →
      (n.blockService.actualRound = n.consensus.actualRound ∨
        .refreshRound n.consensus.actualRound ∈ n.toBlock) → RoundsFollow n

omit [Primitives] [Serialize BlockData] [Serialize ConfirmationData] [NodeCodec] [Merkle]
  [Pcg32] [Wm W] in
theorem RoundsFollow.settled (h : RoundsFollow n) (settled : Settled n) :
    n.consensus.actualRound = n.blockService.actualRound := by
  cases h with
  | consolidating announced _ _ =>
    obtain ⟨block, txsHashes, players, hmem⟩ := announced
    exact absurd (settled.consensus _ hmem) (by simp [fromBlockService])
  | following _ _ _ same =>
    rcases same with same | told
    · exact same.symm
    · exact absurd (settled.block _ told) (by simp [fromConsensusService])

/-- A message that carries no round. -/
def NoRound : NodeOutput → Prop
  | .msg .consensusService (.blockConsolidated _ _ _) => False
  | .msg .blockService (.refreshRound _) => False
  | _ => True

omit [Primitives] [Serialize BlockData] [Serialize ConfirmationData] [NodeCodec] [Merkle]
  [Pcg32] [Wm W] in
theorem announced_post_iff (other : ∀ o ∈ out, NoRound o) :
    Announced (n.post out).toConsensus ↔ Announced n.toConsensus := by
  constructor
  · rintro ⟨block, txsHashes, players, hmem⟩
    rcases List.mem_append.mp hmem with hmem | hmem
    · exact ⟨block, txsHashes, players, hmem⟩
    · exact (other _ (mem_consensusEntry.mp hmem)).elim
  · rintro ⟨block, txsHashes, players, hmem⟩
    exact ⟨block, txsHashes, players, List.mem_append_left _ hmem⟩

omit [Primitives] [Serialize BlockData] [Serialize ConfirmationData] [NodeCodec] [Merkle]
  [Pcg32] [Wm W] in
theorem refreshRound_mem_post_iff (other : ∀ o ∈ out, NoRound o) {round : UInt8} :
    .refreshRound round ∈ (n.post out).toBlock ↔ .refreshRound round ∈ n.toBlock := by
  constructor
  · intro hmem
    rcases List.mem_append.mp hmem with hmem | hmem
    · exact hmem
    · exact (other _ (mem_messageTo.mp hmem)).elim
  · exact fun hmem => List.mem_append_left _ hmem

omit [Primitives] [Serialize BlockData] [Serialize ConfirmationData] [NodeCodec] [Merkle]
  [Pcg32] [Wm W] in
theorem RoundsFollow.post (h : RoundsFollow n) (other : ∀ o ∈ out, NoRound o) :
    RoundsFollow (n.post out) := by
  cases h with
  | consolidating announced zero none =>
    exact .consolidating ((announced_post_iff other).mpr announced) zero fun round hmem =>
      none round ((refreshRound_mem_post_iff other).mp hmem)
  | following announced le all same =>
    refine .following (fun h => announced ((announced_post_iff other).mp h)) le ?_ ?_
    · exact fun round hmem => all round ((refreshRound_mem_post_iff other).mp hmem)
    · exact same.imp_right (refreshRound_mem_post_iff other).mpr

omit [Primitives] [Serialize BlockData] [Serialize ConfirmationData] [NodeCodec] [Merkle]
  [Pcg32] [Wm W] in
/-- A node with the same rounds and the same messages about them. -/
theorem RoundsFollow.congr (h : RoundsFollow n) (consensus : n'.consensus.actualRound =
      n.consensus.actualRound) (block : n'.blockService.actualRound = n.blockService.actualRound)
    (announced : Announced n'.toConsensus ↔ Announced n.toConsensus)
    (refresh : ∀ round, .refreshRound round ∈ n'.toBlock ↔ .refreshRound round ∈ n.toBlock) :
    RoundsFollow n' := by
  cases h with
  | consolidating hannounced zero none =>
    exact .consolidating (announced.mpr hannounced) (block.trans zero) fun round hmem =>
      none round ((refresh round).mp hmem)
  | following hannounced le all same =>
    refine .following (fun h => hannounced (announced.mp h)) ?_ ?_ ?_
    · rwa [block, consensus]
    · rw [consensus]
      exact fun round hmem => all round ((refresh round).mp hmem)
    · rw [block, consensus]
      exact same.imp_right (refresh _).mpr

section Sent

omit [Primitives] [Serialize BlockData] [Serialize ConfirmationData] [NodeCodec] [Merkle]
  [Pcg32] [Wm W]

variable {o : NodeOutput}

theorem noRound_of_addresses (h : BlockService.Addresses o) : NoRound o := by
  unfold BlockService.Addresses at h
  split at h <;> first | exact trivial | exact h.elim

theorem noRound_of_enters (h : Enters o) : NoRound o := by
  rcases h with h | ⟨txs, rfl⟩
  · unfold arrives at h
    split at h
    · split at h <;> first | exact trivial | cases h
    · split at h <;> first | exact trivial | cases h
    · exact trivial
    · cases h
  · trivial

theorem noRound_of_maySend {s : ConsensusService Block Confirmation} {msg : NodeMsg}
    (h : s.MaySend msg o) (other : ∀ height round, msg = .blockElectionFailed height round →
      s.consolidationInProgress = some height) : NoRound o := by
  unfold ConsensusService.MaySend at h
  split at h
  · obtain ⟨height, hmsg, idle⟩ := h
    exact absurd (other _ _ hmsg) idle
  · exact trivial
  · exact trivial
  · exact trivial
  · exact trivial
  · exact trivial
  · exact trivial
  · unfold NoRound
    split <;> first | trivial | simp_all
  · exact trivial
  · exact trivial
  · exact trivial
  · exact trivial
  · exact h.elim

theorem noRound_of_poolStep [Primitives] [NodeCodec] {s s' : TransactionService Hash Transaction}
    {msg : NodeMsg} (h : TransactionService.PoolStep s msg s' out) (ho : o ∈ out) : NoRound o := by
  rcases h.sends ho with (rfl | rfl) | ⟨_, _, _, _, -, rfl⟩ | ⟨_, rfl⟩ <;> trivial

end Sent

section Steps

omit [Merkle] [Wm W]

variable {msg : NodeMsg} {env : Env} {core : Drawing Block Confirmation}
  {entries : List ConsensusEntry}

omit [Primitives] [Serialize BlockData] [Serialize ConfirmationData] [NodeCodec] [Pcg32] in
theorem announced_cons {entry : ConsensusEntry} (other : entry.block? = none) :
    Announced (entry :: entries) ↔ Announced entries := by
  constructor
  · rintro ⟨block, txsHashes, players, hmem⟩
    rcases List.mem_cons.mp hmem with rfl | hmem
    · cases other
    · exact ⟨block, txsHashes, players, hmem⟩
  · rintro ⟨block, txsHashes, players, hmem⟩
    exact ⟨block, txsHashes, players, List.mem_cons_of_mem _ hmem⟩

omit [NodeCodec] in
/-- The consensus service takes a message that leaves its round. -/
theorem RoundsFollow.takeSame (h : RoundsFollow n) (heq : n.toConsensus = .msg msg :: entries)
    (hcore : Drawing.handleMessages env ⟨n.consensus, n.wasm.drand⟩ msg = .ok (core, out))
    (other : consolidatedBlock msg = none)
    (dropped : ∀ height round, msg = .blockElectionFailed height round →
      n.consensus.consolidationInProgress = some height)
    (same : n.consensus.roundAfter msg = n.consensus.actualRound) :
    RoundsFollow (({ n with
      consensus := core.consensus
      wasm := { n.wasm with drand := core.seed }
      toConsensus := entries } : LiveNode W).post out) := by
  have sends := ConsensusService.handleMessages_sends (Drawing.handleMessages_ok hcore).1
  refine RoundsFollow.post (h.congr ?_ rfl ?_ fun _ => Iff.rfl)
    fun o ho => noRound_of_maySend (sends o ho) dropped
  · exact (actualRound_after hcore).trans same
  · rw [heq]
    exact (announced_cons (show (ConsensusEntry.msg msg).block? = none from other)).symm

omit [NodeCodec] in
theorem RoundsFollow.takeConsensus (h : RoundsFollow n) (heq : n.toConsensus = .msg msg :: entries)
    (hcore : Drawing.handleMessages env ⟨n.consensus, n.wasm.drand⟩ msg = .ok (core, out))
    (agree : Agreeable ⟨n, .consensus env, out, n'⟩) :
    RoundsFollow (({ n with
      consensus := core.consensus
      wasm := { n.wasm with drand := core.seed }
      toConsensus := entries } : LiveNode W).post out) := by
  have taken : takenMsg ⟨n, .consensus env, out, n'⟩ = some msg := by
    simp only [takenMsg, heq]
  have handled := (Drawing.handleMessages_ok hcore).1
  have sends := ConsensusService.handleMessages_sends handled
  have round := actualRound_after hcore
  cases msg with
  | blockElectionFailed height newRound =>
    by_cases idle : n.consensus.consolidationInProgress = some height
    · refine h.takeSame heq hcore rfl ?_ (by simp [ConsensusService.roundAfter, idle])
      rintro _ _ ⟨⟩
      exact idle
    · obtain ⟨later, behind⟩ := agree.timeout height newRound taken idle
      have moved : core.consensus.actualRound = newRound := by
        simpa [ConsensusService.roundAfter, idle] using round
      have told : .msg .blockService (.refreshRound newRound) ∈ out :=
        ConsensusService.blockElectionFailed_refreshes idle handled
      cases h with
      | consolidating announced _ _ => exact absurd announced behind
      | following _ le all _ =>
        refine .following ?_ ?_ ?_ ?_
        · rintro ⟨block, txsHashes, players, hmem⟩
          rcases List.mem_append.mp hmem with hmem | hmem
          · exact behind ⟨block, txsHashes, players, heq ▸ List.mem_cons_of_mem _ hmem⟩
          · exact sends _ (mem_consensusEntry.mp hmem)
        · change n.blockService.actualRound ≤ core.consensus.actualRound
          rw [moved]
          exact UInt8.le_trans le later
        · intro round' hmem
          change round' ≤ core.consensus.actualRound
          rw [moved]
          rcases List.mem_append.mp hmem with hmem | hmem
          · exact UInt8.le_trans (all round' hmem) later
          · obtain ⟨_, hmsg, -⟩ := sends _ (mem_messageTo.mp hmem)
            cases hmsg
            exact UInt8.le_refl _
        · refine .inr (List.mem_append_right _ ?_)
          change (Msg.refreshRound core.consensus.actualRound : NodeMsg) ∈ _
          rw [moved]
          exact mem_messageTo.mpr told
  | blockConsolidated block txsHashes players =>
    have zero : core.consensus.actualRound = 0 := round
    have announced : Announced n.toConsensus :=
      ⟨block, txsHashes, players, heq ▸ List.mem_cons_self⟩
    cases h with
    | following none _ _ _ => exact absurd announced none
    | consolidating _ first none =>
      refine RoundsFollow.post ?_ fun o ho => noRound_of_maySend (sends o ho) (by simp)
      by_cases more : Announced entries
      · exact .consolidating more first none
      · refine .following more ?_ (fun round hmem => absurd hmem (none round)) (.inl ?_)
        · change n.blockService.actualRound ≤ core.consensus.actualRound
          rw [first, zero]
          exact UInt8.le_refl _
        · exact first.trans zero.symm
  | proposalFromAlignmentBlock confirmations =>
    cases confirmations with
    | nil => exact h.takeSame heq hcore rfl (by simp) rfl
    | cons first rest => exact h.takeSame heq hcore rfl (by simp) (agree.alignment first rest taken)
  | _ => exact h.takeSame heq hcore rfl (by simp) rfl

omit [Pcg32] in
/-- The block service takes a message. -/
theorem RoundsFollow.takeBlock (h : RoundsFollow n) {rest : List NodeMsg}
    {blockEnv : BlockEnv Hash Block Confirmation Transaction} {blockService : BlockService}
    (heq : n.toBlock = msg :: rest)
    (hblock : n.blockService.handleMessages blockEnv msg = .ok (blockService, out))
    (agree : Agreeable ⟨n, .block blockEnv, out, n'⟩) :
    RoundsFollow (({ n with
      blockService := blockService
      toBlock := rest } : LiveNode W).post out) := by
  have taken : takenByBlock ⟨n, .block blockEnv, out, n'⟩ = some msg := by
    simp only [takenByBlock, heq]
  have step := BlockService.handleMessages_step hblock
  have quiet (other : consolidatedBlock msg = none) : ∀ o ∈ out, NoRound o := by
    intro o ho
    refine noRound_of_addresses (step.addresses ?_ o ho)
    rintro block txsHashes players rfl
    cases other
  have same (hrefresh : ∀ round, msg ≠ .refreshRound round) (other : consolidatedBlock msg = none)
      (hround : blockService.actualRound = n.blockService.actualRound) :
      RoundsFollow (({ n with
        blockService := blockService
        toBlock := rest } : LiveNode W).post out) := by
    refine RoundsFollow.post (h.congr rfl hround Iff.rfl fun round => ?_) (quiet other)
    rw [heq, List.mem_cons]
    exact ⟨.inr, fun hmem => hmem.resolve_left fun hmsg => hrefresh round hmsg.symm⟩
  cases step with
  | @consolidated block txsHashes players =>
    have none := agree.consolidated _ block taken rfl
    refine .consolidating ⟨block, txsHashes, players, ?_⟩ rfl ?_
    · refine List.mem_append_right _ (mem_consensusEntry.mpr ?_)
      simp
    · intro round hmem
      rcases List.mem_append.mp hmem with hmem | hmem
      · exact none round (heq ▸ List.mem_cons_of_mem _ hmem)
      · have := mem_messageTo.mp hmem
        split at this <;> simp at this
  | @refreshed round =>
    cases h with
    | consolidating _ _ none => exact absurd (heq ▸ List.mem_cons_self) (none round)
    | following announced le all told =>
      have bound : round ≤ n.consensus.actualRound := all round (heq ▸ List.mem_cons_self)
      rw [post_nil]
      refine .following announced ?_ ?_ ?_
      · change (if n.blockService.actualRound < round then round
          else n.blockService.actualRound) ≤ n.consensus.actualRound
        split
        · exact bound
        · exact le
      · exact fun round hmem => all round (heq ▸ List.mem_cons_of_mem _ hmem)
      · change (if n.blockService.actualRound < round then round
          else n.blockService.actualRound) = n.consensus.actualRound ∨ _
        rcases told with level | told
        · left
          rw [if_neg (UInt8.not_lt.mpr (level ▸ bound)), level]
        · rw [heq, List.mem_cons] at told
          rcases told with current | told
          · left
            cases current
            split
            · rfl
            · next above => exact UInt8.le_antisymm le (UInt8.not_lt.mp above)
          · exact .inr told
  | verified _ => exact same (by simp) rfl rfl
  | built builds _ _ =>
    refine same ?_ ?_ rfl
    · rintro round rfl
      exact builds.elim
    · cases msg <;> first | rfl | exact builds.elim
  | retrieved _ _ => exact same (by simp) rfl rfl
  | aligned _ _ asked =>
    rcases asked with rfl | ⟨_, rfl⟩
    · exact same (by simp) rfl rfl
    · exact same (by simp) rfl rfl
  | ended => exact same (by simp) rfl rfl
  | timed => exact same (by simp) rfl rfl
  | idle idles =>
    refine same ?_ ?_ rfl
    · rintro round rfl
      exact idles.elim
    · cases msg <;> first | rfl | exact idles.elim

end Steps

theorem RoundsFollow.step (h : RoundsFollow n) (step : LiveStep n input out n')
    (agree : Agreeable ⟨n, input, out, n'⟩) : RoundsFollow n' := by
  cases step with
  | consensus heq hcore => exact h.takeConsensus heq hcore agree
  | @leader _ rest heq =>
    refine h.congr rfl rfl ?_ fun _ => Iff.rfl
    rw [heq]
    exact (announced_cons rfl).symm
  | block heq hblock _ => exact h.takeBlock heq hblock agree
  | transactions heq hpool =>
    have sends := TransactionService.handleMessages_pool hpool
    exact RoundsFollow.post (h.congr rfl rfl Iff.rfl fun _ => Iff.rfl) fun o ho =>
      noRound_of_poolStep sends ho
  | begins _ _ _ =>
    refine h.congr rfl rfl ?_ fun _ => Iff.rfl
    simp [Announced]
  | consolidates _ _ hwasm =>
    obtain ⟨forked, players, -, rfl, -⟩ := WasmService.consolidateBlock_ok hwasm
    exact RoundsFollow.post (h.congr rfl rfl Iff.rfl fun _ => Iff.rfl) (by simp [NoRound])
  | verifies _ _ =>
    exact RoundsFollow.post (h.congr rfl rfl Iff.rfl fun _ => Iff.rfl) (by simp [NoRound])
  | elects _ =>
    exact RoundsFollow.post (h.congr rfl rfl Iff.rfl fun _ => Iff.rfl) (by simp [NoRound])
  | waits _ =>
    exact RoundsFollow.post (h.congr rfl rfl Iff.rfl fun _ => Iff.rfl) (by simp [NoRound])
  | times _ =>
    exact RoundsFollow.post (h.congr rfl rfl Iff.rfl fun _ => Iff.rfl) (by simp [NoRound])
  | passes => exact h.congr rfl rfl Iff.rfl fun _ => Iff.rfl
  | finishes _ hwasm =>
    refine RoundsFollow.post (h.congr rfl rfl Iff.rfl fun _ => Iff.rfl) fun o ho => ?_
    rcases executeBlock_sends hwasm o ho with ⟨_, _, rfl⟩ | ⟨_, _, rfl⟩ | ⟨_, _, _, rfl⟩
    · trivial
    · trivial
    · trivial
  | enters _ entering => exact h.post fun o ho => noRound_of_enters (entering o ho)
  | restarts hrestart =>
    obtain ⟨block, core, config, -, hcore, rfl⟩ := restart_ok hrestart
    have first := (Drawing.initCoreFromDb_height hcore).2.2
    refine .following ?_ ?_ (by simp) (.inl first.symm)
    · rintro ⟨_, _, _, hmem⟩
      cases hmem
    · change (0 : UInt8) ≤ core.consensus.actualRound
      rw [first]
      exact UInt8.le_refl _

omit [Serialize ConfirmationData] in
theorem roundsFollow_of_started (h : Started n) : RoundsFollow n := by
  obtain ⟨hstart⟩ := h
  obtain ⟨core, wasm, out, named, -, hcore, hwasm, sent, rfl⟩ := bootstrap_ok hstart
  obtain ⟨given, players, -, -, -, -, rfl⟩ :=
    executeGenesisBlock_ok rfl (UInt64.lt_irrefl 0) named hwasm sent
  cases hcore
  refine .following ?_ (UInt8.le_refl _) ?_ (.inl rfl)
  · rintro ⟨_, _, _, hmem⟩
    cases hmem
  · intro round hmem
    cases List.mem_singleton.mp hmem

/-- The two rounds agree whenever no message about them is on its way, over every run
whose timeouts and alignment blocks leave nothing that the block service is not told. -/
theorem rounds_agree {start : LiveNode W} {trace : List (LiveEvent W)} (started : Started start)
    (run : Run (Computes handle) start trace n)
    (agreeable : Along (fun _ e => Agreeable e) trace) (settled : Settled n) :
    n.consensus.actualRound = n.blockService.actualRound := by
  refine RoundsFollow.settled ?_ settled
  refine run.invariant (fun _ n => RoundsFollow n) (roundsFollow_of_started started) ?_ agreeable
  exact fun _ _ _ _ _ follows hstep agree => follows.step (handle_step hstep) agree

end Rounds

end LiveNode

namespace Sample.Duo

open LiveNode

/-- Three transactions ask for a block, and then the time for one passes: two timers run
for the leader's block. -/
def twoTimers : List (LiveInput Willing) :=
  takeGenesis ++ enterPool 2 ++ [.block blockEnv] ++ enterPool 3 ++ enterPool 4 ++
    [.block blockEnv, .pass 0, .block blockEnv]

/-- The second timer runs out, and the one of the next round as well. -/
def secondTimer : List (LiveInput Willing) :=
  [.pass 0, .pass 1, .consensus env, .pass 1, .consensus env, .pass 1, .consensus env]

/-- The first timer runs out at last. -/
def firstTimer : List (LiveInput Willing) := [.pass 0, .pass 1, .consensus env]

def goesBack (e : LiveEvent Willing) : Bool :=
  !isRestart e.input && ((takenMsg e).bind consolidatedBlock).isNone &&
    decide (e.after.consensus.actualRound < e.before.consensus.actualRound)

theorem not_keepsRound_of_goesBack {e : LiveEvent Willing} (h : goesBack e = true) :
    ¬ KeepsRound e := by
  intro keeps
  simp only [goesBack, Bool.and_eq_true, Bool.not_eq_true', Option.isNone_iff_eq_none,
    decide_eq_true_eq] at h
  obtain ⟨⟨live, other⟩, lower⟩ := h
  exact UInt8.not_lt.mpr (keeps.advances live other) lower

/-- The older of two timers takes the node back from round two to round one. -/
theorem older_timer_lowers_round : ∃ start trace n, Started start ∧
    Run (Computes handle) start trace n ∧
    ¬ Along (fun _ (e : LiveEvent Willing) => KeepsRound e) trace := by
  obtain ⟨start, trace, n, started, run, back, -⟩ :=
    exists_run 1 (twoTimers ++ secondTimer ++ firstTimer) (fun trace _ => trace.any goesBack)
      (by decide +kernel)
  refine ⟨start, trace, n, started, run, fun keeps => ?_⟩
  obtain ⟨e, he, back⟩ := List.any_eq_true.mp back
  exact not_keepsRound_of_goesBack back (along_iff_forall.mp keeps e he)

def comesInTime (e : LiveEvent Willing) : Bool :=
  match takenMsg e with
  | some (.blockElectionFailed _ round) => decide (e.before.consensus.actualRound ≤ round)
  | some (.proposalFromAlignmentBlock _) => false
  | _ => true

theorem noOldRound_of_comesInTime {e : LiveEvent Willing} (h : comesInTime e = true) :
    NoOldRound e := by
  constructor
  · intro height round taken _
    simpa [comesInTime, taken] using h
  · intro first rest taken
    simp [comesInTime, taken] at h

/-- Without the older one the rounds advance. -/
theorem second_timer_advances_round : ∃ start trace n, HeightsHashed ∧ Started start ∧
    Run (Computes handle) start trace n ∧
    Along (fun _ (e : LiveEvent Willing) => KeepsRound e) trace ∧ n.consensus.actualRound = 2 := by
  obtain ⟨start, trace, n, started, run, check, -⟩ := exists_run 1 (twoTimers ++ secondTimer)
    (fun trace n => trace.all comesInTime && decide (n.consensus.actualRound = 2))
    (by decide +kernel)
  rw [Bool.and_eq_true, decide_eq_true_eq] at check
  obtain ⟨inTime, round⟩ := check
  refine ⟨start, trace, n, heightsHashed, started, run, ?_, round⟩
  apply (rounds_advance_iff heightsHashed started run).mpr
  exact (along_of_all inTime).imp fun _ _ h => noOldRound_of_comesInTime h

/-- Bob is two blocks ahead, and alice retrieves his first one, which was confirmed in
round two. -/
def alignsWithBob : List (LiveInput Willing) :=
  takeGenesis ++
    [.arrive (.msg .blockService (.heightFromPeer 2)),
      .block { blockEnv with
        getNeighbors := .answer ["bob"]
        getLastBlockInfo := fun _ => .answer ⟨2, Hash.default⟩ },
      .transactions fun _ => 0,
      .arrive (.msg .blockService (.retrieveBlock ["bob"])),
      .block { blockEnv with
        unconfirmedHashes := .answer [listed 2, listed 3]
        getFullBlock := fun _ =>
          .answer (some ⟨bobsBlock, [confirmation 2 2, confirmation 1 2], bobsTxs⟩) },
      .consensus env]

def settled (n : LiveNode Willing) : Bool :=
  (n.toConsensus.all fun entry =>
    match entry with
    | .msg msg => !fromBlockService msg
    | .getLeader => true) && n.toBlock.all fun msg => !fromConsensusService msg

theorem settled_iff {n : LiveNode Willing} : settled n = true ↔ Settled n := by
  rw [settled, Bool.and_eq_true, List.all_eq_true, List.all_eq_true]
  constructor
  · rintro ⟨consensus, block⟩
    exact ⟨fun msg hmem => by simpa using consensus _ hmem,
      fun msg hmem => by simpa using block msg hmem⟩
  · rintro ⟨consensus, block⟩
    refine ⟨fun entry hmem => ?_, fun msg hmem => by simpa using block msg hmem⟩
    cases entry with
    | msg msg => simpa using consensus msg hmem
    | getLeader => rfl

/-- The block service is not told of the round that the consensus service took from an
alignment block. -/
theorem alignment_parts_rounds : ∃ start trace n, Started start ∧
    Run (Computes handle) start trace n ∧ Settled (n : LiveNode Willing) ∧
    n.consensus.actualRound = 2 ∧ n.blockService.actualRound = 0 := by
  obtain ⟨start, trace, n, started, run, check, -⟩ := exists_run 1 alignsWithBob
    (fun _ n => settled n && decide (n.consensus.actualRound = 2) &&
      decide (n.blockService.actualRound = 0)) (by decide +kernel)
  simp only [Bool.and_eq_true, decide_eq_true_eq] at check
  exact ⟨start, trace, n, started, run, settled_iff.mp check.1.1, check.1.2, check.2⟩

/-- Nobody builds before the timer of the leader runs out. -/
def waitsForLeader : List (LiveInput Willing) :=
  takeGenesis ++ enterPool 2 ++
    [.block blockEnv, .pass 0, .block blockEnv, .pass 0, .pass 0, .consensus env, .block blockEnv]

def agreeable (e : LiveEvent Willing) : Bool :=
  comesInTime e && (match takenMsg e with
    | some (.blockElectionFailed _ _) => e.before.toConsensus.all fun entry => entry.block?.isNone
    | _ => true) && (match takenByBlock e with
    | some (.blockConsolidated _ _ _) => e.before.toBlock.all fun msg => !fromConsensusService msg
    | _ => true)

theorem agreeable_of_check {e : LiveEvent Willing} (h : agreeable e = true) : Agreeable e := by
  simp only [agreeable, Bool.and_eq_true] at h
  obtain ⟨⟨inTime, alone⟩, told⟩ := h
  constructor
  · intro height round taken idle
    refine ⟨(noOldRound_of_comesInTime inTime).timeout height round taken idle, ?_⟩
    rintro ⟨block, txsHashes, players, hmem⟩
    rw [taken] at alone
    cases (List.all_eq_true.mp alone _ hmem)
  · intro first rest taken
    simp [comesInTime, taken] at inTime
  · intro msg block taken consolidated round hmem
    cases msg <;> cases consolidated
    rw [taken] at told
    cases (List.all_eq_true.mp told _ hmem)

/-- A round that a timer ends is over for both services once all is taken. -/
theorem timer_ends_round : ∃ start trace n, Started start ∧ Run (Computes handle) start trace n ∧
    Settled (n : LiveNode Willing) ∧ n.consensus.actualRound = 1 ∧
    n.consensus.actualRound = n.blockService.actualRound := by
  obtain ⟨start, trace, n, started, run, check, -⟩ := exists_run 1 waitsForLeader
    (fun trace n => trace.all agreeable && settled n && decide (n.consensus.actualRound = 1))
    (by decide +kernel)
  simp only [Bool.and_eq_true, decide_eq_true_eq] at check
  obtain ⟨⟨check, rest⟩, round⟩ := check
  have rest := settled_iff.mp rest
  have along := (along_of_all check).imp fun _ _ h => agreeable_of_check h
  exact ⟨start, trace, n, started, run, rest, round, rounds_agree started run along rest⟩

end Sample.Duo

end Trinci
