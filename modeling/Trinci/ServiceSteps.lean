import Trinci.ConsensusEffects
import Trinci.TransactionService
import Trinci.BlockService

/-!
# What each service sends

The messages a service may send while it handles one, and what becomes of the
fields that are kept twice in a node: the height, the last hash and the round.
The proofs about whole nodes use these facts and do not look into the handlers.
-/

namespace Trinci

open StepMachines StatefulSteps

universe u

/-- A block is consolidated: a leader is drawn, and its transactions leave the pool. -/
def Consolidates {A B C T : Type u} : Msg A B C T → Prop
  | .blockConsolidated _ _ _ => True
  | _ => False

/-! ## The consensus service -/

namespace ConsensusService

variable {A B C T : Type u}

/-- What the service may send while it handles a message. -/
def MaySend (s : ConsensusService B C) (msg : Msg A B C T) : Output A B C T → Prop
  | .msg .blockService (.refreshRound round) =>
    ∃ height, msg = .blockElectionFailed height round ∧ s.consolidationInProgress ≠ some height
  | .msg .blockService (.buildBlockInPlaceOfLeader height) =>
    ∃ round, msg = .confirmBuildBlockInPlaceOfLeader height round
  | .msg .blockService (.blockFromPeer _ _ _) => True
  | .msg .blockService .detectedPossibleMisalignment => True
  | .msg .nodeInterface (.startBlockConsolidation _ _ _) => True
  | .msg .nodeInterface (.propagateBlockToPeers _ _ _) => True
  | .msg .nodeInterface (.propagateConfirmationToPeers _) => True
  | .msg .drandService _ => Consolidates msg
  | .req .drandService _ => Consolidates msg
  | .req _ _ => True
  | .electionThread height round => msg = .blockElectionFailed height round
  | .confirmationsThread _ => True
  | _ => False

section Sends

variable [Confirmable C] {env : Env} {s t s' : ConsensusService B C} {msg : Msg A B C T}
  {out : List (Output A B C T)}

theorem verifyBlockProposalQuorum_sends {hash : Hash} {height : UInt64} {round : UInt8}
    (h : s.verifyBlockProposalQuorum hash height round = .ok (s', out)) :
    ∀ o ∈ out, t.MaySend msg o := by
  intro o ho
  rcases verifyBlockProposalQuorum_ok h with ⟨-, rfl⟩ | ⟨-, _, _, _, -, -, -, -, -, rfl⟩
  · cases ho
  · obtain rfl := List.mem_singleton.mp ho
    trivial

theorem guarded_quorum_sends {hash : Hash} {height : UInt64} {round : UInt8} {c : Prop}
    [Decidable c] (h : (if c then s.verifyBlockProposalQuorum hash height round
      else .ok (s, [])) = .ok (s', out)) : ∀ o ∈ out, t.MaySend msg o := by
  split at h
  · exact verifyBlockProposalQuorum_sends h
  · cases h
    exact fun o ho => nomatch ho

variable [Primitives] [Executable B] [DecidableEq C]

theorem checkNextRoundProposals_sends {height : UInt64} {round : UInt8} {found : Bool}
    (h : s.checkNextRoundProposals env height round = .ok (found, s', out)) :
    ∀ o ∈ out, t.MaySend msg o := by
  simp only [checkNextRoundProposals] at h
  split at h
  · cases h
    simp
  · split at h
    · obtain ⟨s₁, -, h⟩ := bind_eq_ok.mp h
      obtain ⟨⟨s₂, started⟩, hquorum, h⟩ := bind_eq_ok.mp h
      cases h
      intro o ho
      rcases List.mem_append.mp ho with ho | ho
      · obtain rfl := List.mem_singleton.mp ho
        trivial
      · exact verifyBlockProposalQuorum_sends hquorum o ho
    · obtain ⟨⟨s₂, started⟩, hquorum, h⟩ := bind_eq_ok.mp h
      cases h
      exact verifyBlockProposalQuorum_sends hquorum

omit [Confirmable C] [Primitives] [DecidableEq C] in
theorem drawNewLeader_sends {block : B} (consolidates : Consolidates msg)
    (h : s.drawNewLeader env block = .ok (s', out)) : ∀ o ∈ out, t.MaySend msg o := by
  have served : ∀ o ∈ out, (∃ m, o = .msg .drandService m) ∨ ∃ r, o = .req .drandService r := by
    unfold drawNewLeader at h
    split_ifs at h
    · simp only at h
      split at h
      · cases h
        simp
      · split at h
        · cases h
        · cases h
          simp
    · split at h
      · cases h
      · cases h
        simp
  intro o ho
  rcases served o ho with ⟨m, rfl⟩ | ⟨r, rfl⟩
  · exact consolidates
  · exact consolidates

omit [Confirmable C] [Primitives] [DecidableEq C] in
theorem blockConsolidated_sends (height : UInt64) :
    ∀ o ∈ (s.blockConsolidated height : List (Output A B C T)), t.MaySend msg o := by
  intro o ho
  unfold blockConsolidated at ho
  split at ho
  · cases ho
  · obtain ⟨proposal, -, hmem⟩ := List.mem_filterMap.mp ho
    obtain ⟨entry, -, rfl⟩ := Option.map_eq_some_iff.mp hmem
    trivial

omit [Confirmable C] [Primitives] [DecidableEq C] in
theorem checkOldBlockProposals_sends :
    ∀ o ∈ (s.checkOldBlockProposals env : _ × List (Output A B C T)).2, t.MaySend msg o := by
  intro o ho
  unfold checkOldBlockProposals at ho
  split at ho
  · simp only at ho
    split at ho
    · obtain rfl := List.mem_singleton.mp ho
      trivial
    · cases ho
  · obtain ⟨proposal, -, hmem⟩ := List.mem_flatMap.mp ho
    unfold checkOldProposal at hmem
    split at hmem
    · split at hmem
      · split at hmem
        · obtain rfl := List.mem_singleton.mp hmem
          trivial
        · cases hmem
      · obtain rfl := List.mem_singleton.mp hmem
        trivial
    · cases hmem

omit [Confirmable C] [Primitives] [Executable B] [DecidableEq C] in
theorem confirmBuildBlockInPlaceOfLeader_sends (height : UInt64) (round : UInt8) :
    ∀ o ∈ s.confirmBuildBlockInPlaceOfLeader env height round,
      t.MaySend (.confirmBuildBlockInPlaceOfLeader height round : Msg A B C T) o := by
  intro o ho
  rcases mem_confirmBuildBlockInPlaceOfLeader ho with rfl | rfl | rfl
  · trivial
  · trivial
  · exact ⟨round, rfl⟩

theorem blockElectionFailed_sends {height : UInt64} {round : UInt8}
    (h : s.handleMessages env (.blockElectionFailed height round : Msg A B C T) = .ok (s', out)) :
    ∀ o ∈ out, s.MaySend (.blockElectionFailed height round : Msg A B C T) o := by
  intro o ho
  simp only [handleMessages] at h
  split at h
  · cases h
    cases ho
  · next idle =>
    obtain ⟨⟨found, s₁, out₁⟩, hcheck, h⟩ := bind_eq_ok.mp h
    cases h
    rcases List.mem_append.mp ho with ho | ho
    · rcases List.mem_cons.mp ho with rfl | ho
      · exact ⟨height, rfl, idle⟩
      · exact checkNextRoundProposals_sends hcheck o ho
    · split at ho
      · cases ho
      · unfold blockElectionFailed at ho
        split at ho
        · obtain rfl := List.mem_singleton.mp ho
          rfl
        · cases ho

theorem handleBlockExecutionEnded_sends {block : B} {txsHashes : List Hash}
    (h : s.handleBlockExecutionEnded env block txsHashes = .ok (s', out)) :
    ∀ o ∈ out, t.MaySend msg o := by
  intro o ho
  rw [handleBlockExecutionEnded] at h
  split at h
  · cases h
  · by_cases vote : s.shouldPlayerVote (some (block, txsHashes)) s.actualRound = true
    · simp only [vote, if_true] at h
      obtain ⟨s₁, -, h⟩ := bind_eq_ok.mp h
      split at h
      · obtain ⟨⟨s₂, started⟩, hquorum, h⟩ := bind_eq_ok.mp h
        cases h
        rcases List.mem_append.mp ho with ho | ho
        · obtain rfl := List.mem_singleton.mp ho
          trivial
        · exact verifyBlockProposalQuorum_sends hquorum o ho
      · cases h
        obtain rfl := List.mem_singleton.mp ho
        trivial
    · simp only [vote, Bool.false_eq_true, if_false] at h
      obtain ⟨s₁, -, h⟩ := bind_eq_ok.mp h
      split at h
      · obtain ⟨⟨s₂, started⟩, hquorum, h⟩ := bind_eq_ok.mp h
        cases h
        exact verifyBlockProposalQuorum_sends hquorum o ho
      · cases h
        cases ho

omit [Primitives] in
theorem handleBlockFromPeer_sends {block : B} {confirmation : C} {txsHashes : List Hash}
    (h : s.handleBlockFromPeer env block confirmation txsHashes = .ok (s', out)) :
    ∀ o ∈ out, t.MaySend msg o := by
  intro o ho
  rw [handleBlockFromPeer] at h
  split at h
  · cases h
    cases ho
  · split at h
    · split at h
      · obtain ⟨s₁, -, h⟩ := bind_eq_ok.mp h
        cases h
        split at ho
        · obtain rfl := List.mem_singleton.mp ho
          trivial
        · cases ho
      · cases h
        cases ho
    · cases h
      cases ho

theorem handleProposalAfterBuild_sends {block : B} {round : UInt8} {txsHashes : List Hash}
    (h : s.handleProposalAfterBuild env block round txsHashes = .ok (s', out)) :
    ∀ o ∈ out, t.MaySend msg o := by
  intro o ho
  rw [handleProposalAfterBuild] at h
  split at h
  · cases h
    cases ho
  · obtain ⟨s₁, -, h⟩ := bind_eq_ok.mp h
    split at h
    · obtain ⟨⟨s₂, started⟩, hquorum, h⟩ := bind_eq_ok.mp h
      cases h
      rcases List.mem_append.mp ho with ho | ho
      · exact verifyBlockProposalQuorum_sends hquorum o ho
      · obtain rfl := List.mem_singleton.mp ho
        trivial
    · cases h
      obtain rfl := List.mem_singleton.mp ho
      trivial

omit [Primitives] [Executable B] in
theorem verifyConfirmationsFromPeer_sends {block : Option (B × List Hash)} {confirmations : List C}
    (h : s.verifyConfirmationsFromPeer env confirmations block = .ok (s', out)) :
    ∀ o ∈ out, t.MaySend msg o := by
  intro o ho
  simp only [verifyConfirmationsFromPeer] at h
  split at h
  · cases h
  · split at h
    · cases h
      cases ho
    · obtain ⟨s₁, -, h⟩ := bind_eq_ok.mp h
      split at h
      · cases h
        obtain rfl := List.mem_singleton.mp ho
        trivial
      · exact guarded_quorum_sends h o ho

/-- The service sends nothing else, whatever it handles. -/
theorem handleMessages_sends (h : s.handleMessages env msg = .ok (s', out)) :
    ∀ o ∈ out, s.MaySend msg o := by
  intro o ho
  cases msg with
  | blockElectionFailed height round => exact blockElectionFailed_sends h o ho
  | blockConfirmationFromPeer confirmation =>
    simp only [handleMessages] at h
    split at h
    · obtain ⟨s₁, -, h⟩ := bind_eq_ok.mp h
      exact guarded_quorum_sends h o ho
    · cases h
      cases ho
  | blockConsolidated block txsHashes players =>
    simp only [handleMessages] at h
    obtain ⟨⟨s₁, out₁⟩, hdraw, h⟩ := bind_eq_ok.mp h
    cases h
    rcases List.mem_append.mp ho with ho | ho
    · exact drawNewLeader_sends (by exact trivial) hdraw o ho
    · exact blockConsolidated_sends _ o ho
  | blockExecutionEnded block txsHashes => exact handleBlockExecutionEnded_sends h o ho
  | blockFromPeer block confirmation txsHashes => exact handleBlockFromPeer_sends h o ho
  | checkOldBlockProposals =>
    simp only [handleMessages] at h
    split at h
    · have sent : (s.checkOldBlockProposals env : _ × List (Output A B C T)).2 = out :=
        congrArg Prod.snd (Except.ok.inj h)
      exact checkOldBlockProposals_sends o (sent ▸ ho)
    · cases h
      cases ho
  | confirmBuildBlockInPlaceOfLeader height round =>
    cases h
    exact confirmBuildBlockInPlaceOfLeader_sends height round o ho
  | proposalAfterBuild block round txsHashes => exact handleProposalAfterBuild_sends h o ho
  | proposalFromAlignmentBlock confirmations =>
    cases confirmations with
    | nil => cases h
    | cons first rest =>
      simp only [handleMessages] at h
      obtain ⟨s₁, -, h⟩ := bind_eq_ok.mp h
      cases h
      cases ho
  | verifyConfirmations block confirmations => exact verifyConfirmationsFromPeer_sends h o ho
  | _ =>
    cases h
    cases ho

/-- A timeout that is not dropped tells the block service the new round. -/
theorem blockElectionFailed_refreshes {height : UInt64} {round : UInt8}
    (idle : s.consolidationInProgress ≠ some height)
    (h : s.handleMessages env (.blockElectionFailed height round) = .ok (s', out)) :
    .msg .blockService (.refreshRound round) ∈ out := by
  simp only [handleMessages, if_neg idle] at h
  obtain ⟨⟨found, s₁, out₁⟩, -, h⟩ := bind_eq_ok.mp h
  cases h
  simp

/-- The height, the leader and the players change with a consolidation only. -/
theorem handleMessages_keeps (other : ∀ block txsHashes players,
      msg ≠ .blockConsolidated block txsHashes players)
    (h : s.handleMessages env msg = .ok (s', out)) :
    s'.height = s.height ∧ s'.leader = s.leader ∧ s'.players = s.players := by
  obtain ⟨out', chain, -⟩ := handleMessages_effects h
  refine Chain.invariant (fun _ t => t.height = s.height ∧ t.leader = s.leader ∧
    t.players = s.players) ?_ chain ⟨rfl, rfl, rfl⟩
  intro _ t _ t' kept effect
  cases effect with
  | update source update =>
    rw [updateProposals_eq update]
    cases source <;> exact kept
  | consolidated received _ => exact absurd received (other _ _ _)
  | _ => exact kept

theorem handleMessages_consolidated {block : B} {txsHashes : List Hash} {players : Players}
    (h : s.handleMessages env (.blockConsolidated block txsHashes players) = .ok (s', out)) :
    s'.height = Executable.getHeight block ∧ s'.players = players := by
  simp only [handleMessages] at h
  obtain ⟨⟨s₁, drawnOut⟩, hdraw, h⟩ := bind_eq_ok.mp h
  obtain ⟨⟨leader, rfl⟩, -⟩ := drawNewLeader_ok hdraw
  cases h
  exact ⟨rfl, rfl⟩

end Sends

end ConsensusService

/-! ## The transaction service -/

namespace TransactionService

variable {A B C T : Type u}

/-- The two messages that start the building of a block. -/
def Triggers (o : Output A B C T) : Prop :=
  o = .msg .blockService .startTimerToBuildBlock ∨ o = .msg .blockService .buildBlock

/-- Every transaction is kept under its own hash. -/
def Keyed [Transactable T] (s : TransactionService A T) : Prop :=
  ∀ hash entry, s.unconfirmedPool.lookup hash = some entry → Transactable.getHash entry.1 = hash

/-- Transactions were added, and whatever was sent is about a new one. -/
structure Grows [Transactable T] (txs : List T) (s s' : TransactionService A T)
    (out : List (Output A B C T)) : Prop where
  keeps : ∀ hash ∈ s.unconfirmedPool, hash ∈ s'.unconfirmedPool
  adds : ∀ tx ∈ txs, Transactable.verify tx = some true →
    Transactable.getHash tx ∈ s'.unconfirmedPool
  triggers : ∀ o ∈ out, Triggers o
  fresh : out ≠ [] → ∃ hash ∈ s'.unconfirmedPool, hash ∉ s.unconfirmedPool
  keyed : s.Keyed → s'.Keyed

/-- The messages that leave the pool. -/
def Rests : Msg A B C T → Prop
  | .addTx _ _ _ => False
  | .addTxs _ => False
  | .blockConsolidated _ _ _ => False
  | .collectBlockTxs _ _ _ => False
  | _ => True

/-- What one message does to the pool, and what is sent. -/
inductive PoolStep [Transactable T] (s : TransactionService A T) :
    Msg A B C T → TransactionService A T → List (Output A B C T) → Prop
  | added {tx : T} {size : Nat} {attachments : Option (List A)} {s' : TransactionService A T}
      {out : List (Output A B C T)} :
      Grows [tx] s s' out → PoolStep s (.addTx tx size attachments) s' out
  | addedAll {txs : List (T × Nat × Option (List A))} {s' : TransactionService A T}
      {out : List (Output A B C T)} :
      Grows (txs.map Prod.fst) s s' out → PoolStep s (.addTxs txs) s' out
  | consolidated {block : B} {txsHashes : List Hash} {players : Players}
      {s' : TransactionService A T} {out : List (Output A B C T)} :
      (∀ hash, hash ∈ s'.unconfirmedPool ↔ hash ∈ s.unconfirmedPool ∧ hash ∉ txsHashes) →
      (∀ o ∈ out, Triggers o) → (out ≠ [] → ∃ hash, hash ∈ s'.unconfirmedPool) →
      (s.Keyed → s'.Keyed) →
      PoolStep s (.blockConsolidated block txsHashes players) s' out
  | collected {block : B} {round : UInt8} {txsHashes : List Hash} {txs : List T} :
      (∀ hash ∈ txsHashes, hash ∈ s.unconfirmedPool) →
      (s.Keyed → txs.map Transactable.getHash = txsHashes) →
      PoolStep s (.collectBlockTxs block round txsHashes) s
        [.msg .nodeInterface (.executeBlock block round txs)]
  | rests {msg : Msg A B C T} {s' : TransactionService A T} {out : List (Output A B C T)} :
      Rests msg → s'.unconfirmedPool = s.unconfirmedPool →
      (∀ o ∈ out, ∃ txs, o = .msg .nodeInterface (.propagateOldTxs txs)) →
      PoolStep s msg s' out

/-- A step may ask for a build, send the transactions of a block it was asked for, or
propagate old ones. -/
theorem PoolStep.sends [Transactable T] {s s' : TransactionService A T} {msg : Msg A B C T}
    {out : List (Output A B C T)} (step : PoolStep s msg s' out) {o : Output A B C T}
    (ho : o ∈ out) :
    Triggers o ∨
      (∃ block round txsHashes txs, msg = .collectBlockTxs block round txsHashes ∧
        o = .msg .nodeInterface (.executeBlock block round txs)) ∨
      ∃ txs, o = .msg .nodeInterface (.propagateOldTxs txs) := by
  cases step with
  | added grows => exact .inl (grows.triggers o ho)
  | addedAll grows => exact .inl (grows.triggers o ho)
  | consolidated _ triggers _ _ => exact .inl (triggers o ho)
  | collected _ _ => exact .inr (.inl ⟨_, _, _, _, rfl, List.mem_singleton.mp ho⟩)
  | rests _ _ propagates => exact .inr (.inr (propagates o ho))

theorem PoolStep.keyed [Transactable T] {s s' : TransactionService A T} {msg : Msg A B C T}
    {out : List (Output A B C T)} (step : PoolStep s msg s' out) (h : s.Keyed) : s'.Keyed := by
  cases step with
  | added grows => exact grows.keyed h
  | addedAll grows => exact grows.keyed h
  | consolidated _ _ _ keyed => exact keyed h
  | collected _ _ => exact h
  | rests _ same _ =>
    rw [Keyed, same]
    exact h

section Steps

variable {s s' : TransactionService A T} {out : List (Output A B C T)}

/-- The check leaves the pool, and sends nothing for an empty one. -/
theorem checkWhetherToBuildBlock_ok (h : s.checkWhetherToBuildBlock = (s', out)) :
    s'.unconfirmedPool = s.unconfirmedPool ∧ (∀ o ∈ out, Triggers o) ∧
      (out ≠ [] → ∃ hash, hash ∈ s.unconfirmedPool) := by
  have sent : (∀ o ∈ out, Triggers o) ∧ (out ≠ [] → s.poolLength ≠ 0) ∧
      s'.unconfirmedPool = s.unconfirmedPool := by
    unfold checkWhetherToBuildBlock at h
    split at h
    · cases h
      simp
    · dsimp only at h
      split at h
      · next building =>
        obtain ⟨rfl, rfl⟩ := Prod.mk.inj h
        have many : 3 ≤ s.poolLength := building.1
        refine ⟨?_, fun _ => by omega, rfl⟩
        split <;> simp [Triggers]
      · obtain ⟨rfl, rfl⟩ := Prod.mk.inj h
        split
        · next single => simp [Triggers, single]
        · simp
  refine ⟨sent.2.2, sent.1, fun some => ?_⟩
  obtain ⟨entry, hentry⟩ := List.exists_mem_of_length_pos (Nat.pos_of_ne_zero (sent.2.1 some))
  exact ⟨entry.1, AList.mem_keys.mpr (List.mem_map_of_mem hentry)⟩

variable [DecidableEq A] [Transactable T]

/-- What becomes of a transaction that is added. -/
inductive Addition (now : UInt64) (s : TransactionService A T) (tx : T) (size : Nat)
    (attachments : Option (List A)) : TransactionService A T → List (Output A B C T) → Prop
  | refused : Transactable.verify tx = some false → Addition now s tx size attachments s []
  | replaced : Transactable.verify tx = some true → Transactable.getHash tx ∈ s.unconfirmedPool →
      Addition now s tx size attachments (s.insertInPool tx size attachments).1 []
  | pooled {s' : TransactionService A T} {out : List (Output A B C T)} :
      Transactable.verify tx = some true → Transactable.getHash tx ∉ s.unconfirmedPool →
      ({ (s.insertInPool tx size attachments).1 with
        oldCollector := s.oldCollector ++ [(Transactable.getHash tx, now)] } :
          TransactionService A T).checkWhetherToBuildBlock = (s', out) →
      Addition now s tx size attachments s' out

theorem addTx_addition {now : UInt64} {tx : T} {size : Nat} {attachments : Option (List A)}
    (h : s.addTx now tx size attachments = .ok (s', out)) :
    Addition now s tx size attachments s' out := by
  unfold addTx at h
  cases hverify : Transactable.verify tx with
  | none =>
    rw [hverify] at h
    cases h
  | some verified =>
    rw [hverify] at h
    cases verified with
    | false =>
      cases h
      exact .refused hverify
    | true =>
      by_cases held : Transactable.getHash tx ∈ s.unconfirmedPool
      · have replaced : (s.unconfirmedPool.lookup (Transactable.getHash tx)).isNone = false := by
          simpa using AList.lookup_isSome.mpr held
        simp only [insertInPool, replaced, Bool.false_eq_true, if_false, Except.ok.injEq,
          Prod.mk.injEq] at h
        obtain ⟨rfl, rfl⟩ := h
        exact .replaced hverify held
      · have absent : (s.unconfirmedPool.lookup (Transactable.getHash tx)).isNone = true := by
          rw [AList.lookup_eq_none.mpr held, Option.isNone_none]
        simp only [insertInPool, absent, if_true] at h
        exact .pooled hverify held (Except.ok.inj h)

theorem insertInPool_pool (tx : T) (size : Nat) (attachments : Option (List A)) (hash : Hash) :
    hash ∈ (s.insertInPool tx size attachments).1.unconfirmedPool ↔
      hash = Transactable.getHash tx ∨ hash ∈ s.unconfirmedPool := AList.mem_insert _

theorem insertInPool_keyed (h : s.Keyed) (tx : T) (size : Nat) (attachments : Option (List A)) :
    (s.insertInPool tx size attachments).1.Keyed := by
  intro hash entry hentry
  by_cases heq : hash = Transactable.getHash tx
  · subst heq
    have hnew : (s.insertInPool tx size attachments).1.unconfirmedPool.lookup
        (Transactable.getHash tx) = some (tx, size, attachments) := AList.lookup_insert _
    rw [hnew] at hentry
    cases hentry
    rfl
  · have hold : (s.insertInPool tx size attachments).1.unconfirmedPool.lookup hash =
        s.unconfirmedPool.lookup hash := AList.lookup_insert_ne heq
    exact h hash entry (hold ▸ hentry)

theorem addTx_grows {now : UInt64} {tx : T} {size : Nat} {attachments : Option (List A)}
    (h : s.addTx now tx size attachments = .ok (s', out)) : Grows [tx] s s' out := by
  have pool := s.insertInPool_pool tx size attachments
  have adds : ∀ tx' ∈ [tx], Transactable.verify tx' = some true →
      Transactable.getHash tx' ∈ (s.insertInPool tx size attachments).1.unconfirmedPool := by
    intro tx' htx' _
    obtain rfl := List.mem_singleton.mp htx'
    exact (pool _).mpr (.inl rfl)
  have keeps : ∀ hash ∈ s.unconfirmedPool,
      hash ∈ (s.insertInPool tx size attachments).1.unconfirmedPool :=
    fun hash hhash => (pool hash).mpr (.inr hhash)
  cases addTx_addition h with
  | refused hverify =>
    refine ⟨fun _ hhash => hhash, ?_, by simp, fun h => absurd rfl h, id⟩
    intro tx' htx' htrue
    obtain rfl := List.mem_singleton.mp htx'
    rw [hverify] at htrue
    cases htrue
  | replaced _ _ =>
    exact ⟨keeps, adds, by simp, fun h => absurd rfl h, fun keyed => insertInPool_keyed keyed _ _ _⟩
  | pooled _ absent hcheck =>
    obtain ⟨hpool, triggers, -⟩ := checkWhetherToBuildBlock_ok hcheck
    refine ⟨?_, ?_, triggers, fun _ => ?_, fun hkeyed => ?_⟩
    · rw [hpool]
      exact keeps
    · rw [hpool]
      exact adds
    · refine ⟨Transactable.getHash tx, ?_, absent⟩
      rw [hpool]
      exact (pool _).mpr (.inl rfl)
    · rw [Keyed, hpool]
      exact insertInPool_keyed hkeyed _ _ _

omit [DecidableEq A] in
theorem Grows.trans {xs ys : List T} {s t u : TransactionService A T}
    {out later : List (Output A B C T)} (h : Grows xs s t out) (h' : Grows ys t u later) :
    Grows (xs ++ ys) s u (out ++ later) where
  keeps hash hhash := h'.keeps hash (h.keeps hash hhash)
  adds tx htx verified := by
    rcases List.mem_append.mp htx with htx | htx
    · exact h'.keeps _ (h.adds tx htx verified)
    · exact h'.adds tx htx verified
  triggers o ho := by
    rcases List.mem_append.mp ho with ho | ho
    · exact h.triggers o ho
    · exact h'.triggers o ho
  fresh sent := by
    by_cases hout : out = []
    · obtain ⟨hash, hnew, hold⟩ := h'.fresh (by simpa [hout] using sent)
      exact ⟨hash, hnew, fun hhash => hold (h.keeps hash hhash)⟩
    · obtain ⟨hash, hnew, hold⟩ := h.fresh hout
      exact ⟨hash, h'.keeps hash hnew, hold⟩
  keyed hkeyed := h'.keyed (h.keyed hkeyed)

theorem addTxs_grows {now : Nat → UInt64} {txs : List (T × Nat × Option (List A))}
    (h : s.addTxs now txs = .ok (s', out)) : Grows (txs.map Prod.fst) s s' out := by
  induction txs generalizing now s out with
  | nil =>
    cases h
    exact ⟨fun _ hhash => hhash, by simp, by simp, fun h => absurd rfl h, id⟩
  | cons entry txs ih =>
    obtain ⟨tx, size, attachments⟩ := entry
    obtain ⟨⟨t, first⟩, hfirst, h⟩ := bind_eq_ok.mp h
    obtain ⟨⟨u, rest⟩, hrest, h⟩ := bind_eq_ok.mp h
    cases h
    exact (addTx_grows hfirst).trans (ih hrest)

omit [Transactable T] in
theorem foldl_forget_pool (txsHashes : List Hash) (s : TransactionService A T) (hash : Hash) :
    hash ∈ (txsHashes.foldl forget s).unconfirmedPool ↔
      hash ∈ s.unconfirmedPool ∧ hash ∉ txsHashes := by
  induction txsHashes generalizing s with
  | nil => simp
  | cons first rest ih =>
    have removed : hash ∈ (s.forget first).unconfirmedPool ↔
        hash ≠ first ∧ hash ∈ s.unconfirmedPool := AList.mem_erase
    rw [List.foldl_cons, ih, removed, List.mem_cons]
    tauto

theorem foldl_forget_keyed (txsHashes : List Hash) {s : TransactionService A T} (h : s.Keyed) :
    (txsHashes.foldl forget s).Keyed := by
  induction txsHashes generalizing s with
  | nil => exact h
  | cons first rest ih =>
    apply ih
    intro hash entry hentry
    by_cases heq : hash = first
    · subst heq
      have hnone : (s.forget hash).unconfirmedPool.lookup hash = none := AList.lookup_erase _ _
      rw [hnone] at hentry
      cases hentry
    · have hold : (s.forget first).unconfirmedPool.lookup hash = s.unconfirmedPool.lookup hash :=
        AList.lookup_erase_ne heq
      exact h hash entry (hold ▸ hentry)

omit [DecidableEq A] [Transactable T] in
theorem collectBlockTxs_cons_ok {hash : Hash} {rest : List Hash} {txs : List T}
    (h : s.collectBlockTxs (hash :: rest) = .ok txs) :
    ∃ entry later, s.unconfirmedPool.lookup hash = some entry ∧
      s.collectBlockTxs rest = .ok later ∧ txs = entry.1 :: later := by
  rw [collectBlockTxs] at h
  split at h
  · cases h
  · next tx size attachments hlookup =>
    obtain ⟨later, hlater, h⟩ := bind_eq_ok.mp h
    cases h
    exact ⟨_, later, hlookup, hlater, rfl⟩

omit [DecidableEq A] in
theorem collectBlockTxs_ok {txsHashes : List Hash} {txs : List T}
    (h : s.collectBlockTxs txsHashes = .ok txs) :
    (∀ hash ∈ txsHashes, hash ∈ s.unconfirmedPool) ∧
      (s.Keyed → txs.map Transactable.getHash = txsHashes) := by
  induction txsHashes generalizing txs with
  | nil =>
    cases h
    simp
  | cons hash rest ih =>
    obtain ⟨entry, later, hlookup, hlater, rfl⟩ := collectBlockTxs_cons_ok h
    obtain ⟨hall, hhashes⟩ := ih hlater
    refine ⟨?_, fun hkeyed => ?_⟩
    · rw [List.forall_mem_cons]
      refine ⟨?_, hall⟩
      rw [← AList.lookup_isSome, hlookup]
      rfl
    · rw [List.map_cons, hhashes hkeyed, hkeyed hash _ hlookup]

omit [DecidableEq A] in
/-- What a pool gives is what it keeps under the hashes. -/
theorem collectBlockTxs_kept {txsHashes : List Hash} {txs : List T} (hkeyed : s.Keyed)
    (h : s.collectBlockTxs txsHashes = .ok txs) : ∀ tx ∈ txs,
    (s.unconfirmedPool.lookup (Transactable.getHash tx)).map Prod.fst = some tx := by
  induction txsHashes generalizing txs with
  | nil =>
    cases h
    simp
  | cons hash rest ih =>
    obtain ⟨entry, later, hlookup, hlater, rfl⟩ := collectBlockTxs_cons_ok h
    rw [List.forall_mem_cons]
    refine ⟨?_, ih hlater⟩
    rw [hkeyed hash _ hlookup, hlookup]
    rfl

omit [DecidableEq A] [Transactable T] in
/-- A pool that holds the transactions of a block gives them. -/
theorem collectBlockTxs_held {txsHashes : List Hash}
    (held : ∀ hash ∈ txsHashes, hash ∈ s.unconfirmedPool) :
    ∃ txs, s.collectBlockTxs txsHashes = .ok txs := by
  induction txsHashes with
  | nil => exact ⟨[], rfl⟩
  | cons hash rest ih =>
    rw [List.forall_mem_cons] at held
    obtain ⟨txs, htxs⟩ := ih held.2
    obtain ⟨⟨tx, size, attachments⟩, hlookup⟩ := Option.isSome_iff_exists.mp
      (AList.lookup_isSome.mpr held.1)
    refine ⟨tx :: txs, ?_⟩
    rw [collectBlockTxs, hlookup, htxs]
    rfl

theorem handleMessages_pool {now : Nat → UInt64} {msg : Msg A B C T}
    (h : s.handleMessages now msg = .ok (s', out)) : PoolStep s msg s' out := by
  cases msg with
  | addTx tx size attachments => exact .added (addTx_grows h)
  | addTxs txs => exact .addedAll (addTxs_grows h)
  | blockConsolidated block txsHashes players =>
    have left := foldl_forget_pool txsHashes s
    have keyed := fun hkeyed : s.Keyed => foldl_forget_keyed txsHashes hkeyed
    simp only [handleMessages, blockConsolidated, Except.ok.injEq] at h
    split at h
    · next few =>
      cases h
      refine .consolidated left (by simp [Triggers]) (fun _ => ?_) keyed
      obtain ⟨entry, hentry⟩ := List.exists_mem_of_length_pos (Nat.pos_of_ne_zero few.1)
      exact ⟨entry.1, AList.mem_keys.mpr (List.mem_map_of_mem hentry)⟩
    · obtain ⟨hpool, triggers, some⟩ := checkWhetherToBuildBlock_ok h
      refine .consolidated ?_ triggers ?_ (fun hkeyed => ?_)
      · rw [hpool]
        exact left
      · rw [hpool]
        exact some
      · rw [Keyed, hpool]
        exact keyed hkeyed
  | collectBlockTxs block round txsHashes =>
    obtain ⟨txs, htxs, h⟩ := bind_eq_ok.mp h
    cases h
    obtain ⟨held, hashes⟩ := collectBlockTxs_ok htxs
    exact .collected held hashes
  | checkOldTxs =>
    simp only [handleMessages, checkOldTxs, Except.ok.injEq] at h
    split at h
    · cases h
      exact .rests trivial rfl (by simp)
    · cases h
      refine .rests trivial rfl fun o ho => ?_
      split at ho
      · cases ho
      · obtain rfl := List.mem_singleton.mp ho
        exact ⟨_, rfl⟩
  | _ =>
    cases h
    exact .rests trivial rfl (by simp)

/-- The transactions that are sent to be executed are told apart by their hashes. -/
theorem executeBlock_consistent {now : Nat → UInt64} {msg : Msg A B C T} {block : B}
    {round : UInt8} {txs : List T} (hkeyed : s.Keyed)
    (h : s.handleMessages now msg = .ok (s', out))
    (sent : .msg .nodeInterface (.executeBlock block round txs) ∈ out) :
    ∀ tx ∈ txs, ∀ tx' ∈ txs, Transactable.getHash tx = Transactable.getHash tx' → tx = tx' := by
  have kept : ∀ tx ∈ txs,
      (s.unconfirmedPool.lookup (Transactable.getHash tx)).map Prod.fst = some tx := by
    cases handleMessages_pool h with
    | added grows => rcases grows.triggers _ sent with trigger | trigger <;> cases trigger
    | addedAll grows => rcases grows.triggers _ sent with trigger | trigger <;> cases trigger
    | consolidated _ triggers _ _ =>
      rcases triggers _ sent with trigger | trigger <;> cases trigger
    | collected _ _ =>
      cases List.mem_singleton.mp sent
      obtain ⟨txs', htxs, h⟩ := bind_eq_ok.mp h
      cases h
      exact collectBlockTxs_kept hkeyed htxs
    | rests _ _ propagates =>
      obtain ⟨_, other⟩ := propagates _ sent
      cases other
  intro tx htx tx' htx' same
  have := kept tx htx
  rw [same, kept tx' htx'] at this
  exact (Option.some.inj this).symm

end Steps

end TransactionService

/-! ## The block service -/

namespace BlockService

variable {A B C T : Type}

/-- The hashes that the pool did not list. -/
def missingTxs (unconfirmed : List (Hash × Nat)) (txsHashes : List Hash) : List Hash :=
  txsHashes.filter fun hash => !(unconfirmed.map Prod.fst).contains hash

section Blocks

variable [Transactable T]

/-- The test that an answer to `GetTxs` has to pass. -/
def Accepted (missing : List Hash) (txs : List (T × Nat × Option (List A))) : Prop :=
  anyUnwanted missing txs = some false ∧ txs.length = missing.length

/-- What is sent for a block that is handed on to be executed. -/
inductive Begun (env : BlockEnv A B C T) (block : B) (round : UInt8) (txsHashes : List Hash) :
    List (Output A B C T) → Prop
  | held {unconfirmed : List (Hash × Nat)} :
      env.unconfirmedHashes = .answer unconfirmed → missingTxs unconfirmed txsHashes = [] →
      Begun env block round txsHashes
        [.msg .transactionService (.collectBlockTxs block round txsHashes)]
  | supplied {unconfirmed : List (Hash × Nat)} {attempt : Nat}
      {txs : List (T × Nat × Option (List A))} :
      env.unconfirmedHashes = .answer unconfirmed → env.getTxs attempt = .answer txs →
      Accepted (missingTxs unconfirmed txsHashes) txs →
      Begun env block round txsHashes [.msg .transactionService (.addTxs txs),
        .msg .transactionService (.collectBlockTxs block round txsHashes)]

/-- A computation that keeps the service and sends nothing or what is allowed. -/
def Sends {α : Type} (s : BlockService) (allowed : List (Output A B C T) → Prop)
    (x : Handler A B C T α) : Prop :=
  ∀ h, h.service = s → ∃ sent, after x h = ⟨s, h.out ++ sent⟩ ∧ (sent = [] ∨ allowed sent)

section Rules

variable {α β : Type} {s : BlockService} {allowed : List (Output A B C T) → Prop}

omit [Transactable T] in
theorem Sends.of_quiet {x : Handler A B C T α} (h : ∀ s, after x s = s) : Sends s allowed x := by
  rintro ⟨_, out⟩ rfl
  refine ⟨[], ?_, .inl rfl⟩
  rw [h, List.append_nil]

omit [Transactable T] in
theorem Sends.imp {allowed' : List (Output A B C T) → Prop} {x : Handler A B C T α}
    (h : Sends s allowed x) (weaken : ∀ sent, allowed sent → allowed' sent) :
    Sends s allowed' x := by
  intro t ht
  obtain ⟨sent, hafter, hsent⟩ := h t ht
  exact ⟨sent, hafter, hsent.imp_right (weaken sent)⟩

omit [Transactable T] in
theorem Sends.stop {e : BlockStop} {f : β → Handler A B C T α} :
    Sends s allowed (throw e >>= f) :=
  of_quiet fun _ => rfl

omit [Transactable T] in
theorem Sends.ite {c : Prop} [Decidable c] {x y : Handler A B C T α} (hx : c → Sends s allowed x)
    (hy : ¬ c → Sends s allowed y) : Sends s allowed (if c then x else y) := by
  split
  · next hc => exact hx hc
  · next hc => exact hy hc

omit [Transactable T] in
/-- What the service is read for. -/
theorem Sends.service {f : BlockService → Handler A B C T α} (h : Sends s allowed (f s)) :
    Sends s allowed (BlockService.service >>= f) := by
  rintro ⟨_, out⟩ rfl
  exact h ⟨_, out⟩ rfl

omit [Transactable T] in
/-- What an answer is used for. -/
theorem Sends.expect {reply : Reply β} {f : β → Handler A B C T α}
    (h : ∀ b, reply = .answer b → Sends s allowed (f b)) :
    Sends s allowed (BlockService.expect reply >>= f) := by
  cases reply with
  | answer b => exact h b rfl
  | wrong => exact of_quiet fun _ => rfl
  | failed => exact of_quiet fun _ => rfl

end Rules

theorem collectMissingTxs_after {env : BlockEnv A B C T} {missing : List Hash} (left : Nat)
    (h : Handling A B C T) :
    (after (collectMissingTxs env missing left) h = h ∧
        ∃ e, result (collectMissingTxs env missing left) h = .error e) ∨
      ∃ attempt txs, env.getTxs attempt = .answer txs ∧ Accepted missing txs ∧
        after (collectMissingTxs env missing left) h =
          ⟨h.service, h.out ++ [.msg .transactionService (.addTxs txs)]⟩ ∧
        result (collectMissingTxs env missing left) h = .ok ⟨⟩ := by
  induction left with
  | zero => exact .inl ⟨rfl, _, rfl⟩
  | succ left ih =>
    unfold collectMissingTxs
    split
    · next txs hanswer =>
      split
      · exact .inl ⟨rfl, _, rfl⟩
      · next unwanted hunwanted =>
        split
        · exact ih
        · next accepted =>
          rw [Bool.or_eq_true, not_or, bne_iff_ne, ne_eq, not_not] at accepted
          refine .inr ⟨_, txs, hanswer, ⟨?_, accepted.2⟩, rfl, rfl⟩
          rw [hunwanted, Bool.eq_false_iff.mpr accepted.1]
    · exact ih

theorem beginExecution_sends (env : BlockEnv A B C T) (block : B) (txsHashes : List Hash)
    (s : BlockService) : Sends s (Begun env block s.actualRound txsHashes)
      (beginExecution env block txsHashes) := by
  rintro ⟨t, out⟩ rfl
  unfold beginExecution
  split
  · exact ⟨[], by simp, .inl rfl⟩
  · exact ⟨[], by simp, .inl rfl⟩
  · next unconfirmed hanswer =>
    by_cases hmissing : missingTxs unconfirmed txsHashes = []
    · refine ⟨_, ?_, .inr (.held hanswer hmissing)⟩
      simp only [missingTxs] at hmissing
      simp only [hmissing]
      rfl
    · have asks : (!(missingTxs unconfirmed txsHashes).isEmpty) = true := by
        simpa using hmissing
      simp only [missingTxs] at asks
      simp only [asks, if_true]
      have collected : _ ∨ ∃ attempt txs, env.getTxs attempt = .answer txs ∧
          Accepted (missingTxs unconfirmed txsHashes) txs ∧ _ ∧ _ :=
        collectMissingTxs_after requestAttempts ⟨t, out⟩
      rcases collected with
        ⟨hafter, e, hresult⟩ | ⟨attempt, txs, hgot, haccepted, hafter, hresult⟩
      · refine ⟨[], ?_, .inl rfl⟩
        rw [List.append_nil]
        exact (bind_error hresult).1.trans hafter
      · refine ⟨_, ?_, .inr (.supplied hanswer hgot haccepted)⟩
        refine (bind_ok hresult).1.trans ?_
        rw [hafter]
        change Handling.mk t ((out ++ _) ++ [_]) = _
        rw [List.append_assoc]
        rfl

/-- A block that follows the last one, handed on. -/
structure Verified [Executable B] (env : BlockEnv A B C T) (block : B) (txsHashes : List Hash)
    (s : BlockService) (sent : List (Output A B C T)) : Prop where
  height : Executable.getHeight block = s.height + 1
  prevHash : Executable.getPrevHash block = s.lastBlockHash
  begun : Begun env block s.actualRound txsHashes sent

theorem verifyExtBlock_sends [Executable B] [Confirmable C] (env : BlockEnv A B C T) (block : B)
    (txsHashes : List Hash) (confirmations : List C) (s : BlockService) :
    Sends s (Verified env block txsHashes s)
      (verifyExtBlock env block txsHashes confirmations) := by
  unfold verifyExtBlock
  refine Sends.ite (fun _ => Sends.stop) fun _ => ?_
  split
  · exact .of_quiet fun _ => rfl
  · refine Sends.service (Sends.ite (fun _ => Sends.stop) fun height => ?_)
    refine Sends.ite (fun _ => Sends.stop) fun prevHash => ?_
    refine Sends.expect fun _ _ => Sends.ite (fun _ => Sends.stop) fun _ => ?_
    refine Sends.expect fun _ _ => Sends.ite (fun _ => Sends.stop) fun _ => ?_
    refine Sends.ite (fun _ => Sends.stop) fun _ => ?_
    exact (beginExecution_sends env block txsHashes s).imp
      fun sent begun => ⟨not_not.mp height, not_not.mp prevHash, begun⟩

/-! ### Building -/

/-- The hashes that a block is built from, out of those the pool lists. -/
def chosen (listed : List (Hash × Nat)) : List Hash :=
  (fill (blockMaxSizeBytes - blockBaseSizeBytes) 0 listed.reverse).take maxTxsInBlock

omit [Transactable T] in
/-- A block is built from whatever the pool lists last, if that fits. -/
theorem chosen_ne_nil {listed : List (Hash × Nat)} {last : Hash × Nat}
    (hlast : listed.getLast? = some last) (fits : last.2 < blockMaxSizeBytes - blockBaseSizeBytes) :
    chosen listed ≠ [] := by
  obtain ⟨before, rfl⟩ := List.getLast?_eq_some_iff.mp hlast
  rw [chosen, List.reverse_append, List.reverse_singleton, List.singleton_append, fill,
    if_pos (by rwa [Nat.zero_add])]
  exact List.cons_ne_nil _ _

/-- A block built on the last one, handed on. -/
inductive Built [Primitives] [Executable B] (env : BlockEnv A B C T) (s : BlockService) :
    List (Output A B C T) → Prop
  | mk {listed : List (Hash × Nat)} {sent : List (Output A B C T)} :
      env.builtFrom = .answer listed →
      Begun env (Executable.new s.keypair.publicKey (chosen listed) (s.height + 1)
        s.lastBlockHash env.now : B) s.actualRound (chosen listed) sent → Built env s sent

theorem buildBlock_after [Primitives] [Executable B] (env : BlockEnv A B C T)
    (h : Handling A B C T) : ∃ sent,
      after (buildBlock env) h = ⟨{ h.service with buildInProgress := true }, h.out ++ sent⟩ ∧
        (sent = [] ∨ Built env h.service sent) := by
  have sends : Sends { h.service with buildInProgress := true } (Built env h.service)
      (do
        let hashes ← expect env.builtFrom
        let s ← service
        beginExecution env (Executable.new s.keypair.publicKey (chosen hashes) (s.height + 1)
          s.lastBlockHash env.now : B) (chosen hashes)) := by
    refine Sends.expect fun listed hanswer => Sends.service ?_
    exact (beginExecution_sends _ _ _ _).imp fun sent begun => .mk hanswer begun
  exact sends _ rfl

theorem tryBuildBlock_after [Primitives] [Executable B] (env : BlockEnv A B C T)
    (h : Handling A B C T) : ∃ b sent,
      after (tryBuildBlock env) h = ⟨{ h.service with buildInProgress := b }, h.out ++ sent⟩ ∧
        (sent = [] ∨ Built env h.service sent) := by
  obtain ⟨sent, hafter, hsent⟩ := buildBlock_after env h
  cases hresult : result (buildBlock env) h with
  | ok a => exact ⟨true, sent, (tryCatch_ok hresult).trans hafter, hsent⟩
  | error e =>
    have caught : after (tryBuildBlock env) h = _ := tryCatch_error hresult
    rw [hafter] at caught
    cases e with
    | verifyPanic => exact ⟨true, sent, caught, hsent⟩
    | chain e => exact ⟨false, sent, caught, hsent⟩
    | comm => exact ⟨false, sent, caught, hsent⟩

theorem verifyIfLeaderAndBuild_after [Primitives] [Executable B] (env : BlockEnv A B C T)
    (height : UInt64) (h : Handling A B C T) : ∃ b sent timer,
      after (verifyIfLeaderAndBuild env height) h =
        ⟨{ h.service with buildInProgress := b }, h.out ++ (sent ++ timer)⟩ ∧
      (sent = [] ∨ Built env h.service sent) ∧ (timer = [] ∨ timer = [.leaderThread height]) := by
  unfold verifyIfLeaderAndBuild
  split
  · obtain ⟨b, sent, hafter, hsent⟩ := tryBuildBlock_after env h
    cases hresult : result (tryBuildBlock env) h with
    | error e =>
      refine ⟨b, sent, [], ?_, hsent, .inl rfl⟩
      rw [List.append_nil]
      exact (bind_error hresult).1.trans hafter
    | ok a =>
      refine ⟨b, sent, [.leaderThread height], ?_, hsent, .inr rfl⟩
      refine (bind_ok hresult).1.trans ?_
      rw [hafter, ← List.append_assoc]
      rfl
  · exact ⟨h.service.buildInProgress, [], [.leaderThread height], rfl, .inl rfl, .inr rfl⟩

/-! ### Alignment -/

/-- What is sent for the full block of a peer. -/
inductive Retrieved [Executable B] [Confirmable C] [Serialize T] (env : BlockEnv A B C T)
    (s : BlockService) : List (Output A B C T) → Prop
  | mk {attempt : Nat} {fullBlock : FullBlock B C T} {sent : List (Output A B C T)} :
      env.getFullBlock attempt = .answer (some fullBlock) →
      (sent = [] ∨ Verified env fullBlock.block (fullBlock.txs.map Transactable.getHash) s sent) →
      Retrieved env s (.msg .consensusService (.proposalFromAlignmentBlock fullBlock.confirmations) ::
        .msg .transactionService
          (.addTxs (fullBlock.txs.map fun tx => (tx, (rmpSerialize tx).length, none))) :: sent)

theorem retrieveAlignmentBlock_sends [Executable B] [Confirmable C] [Serialize T]
    (env : BlockEnv A B C T) (s : BlockService) (left : Nat) :
    Sends s (Retrieved env s) (retrieveAlignmentBlock env left) := by
  induction left with
  | zero => exact .of_quiet fun _ => rfl
  | succ left ih =>
    unfold retrieveAlignmentBlock
    split
    · next fullBlock hanswer =>
      refine Sends.ite (fun _ => ?_) fun _ => .of_quiet fun _ => rfl
      rintro ⟨t, out⟩ rfl
      obtain ⟨sent, hafter, hsent⟩ := verifyExtBlock_sends env fullBlock.block
        (fullBlock.txs.map Transactable.getHash) fullBlock.confirmations t
        ⟨t, out ++ [.msg .consensusService (.proposalFromAlignmentBlock fullBlock.confirmations)] ++
          [.msg .transactionService
            (.addTxs (fullBlock.txs.map fun tx => (tx, (rmpSerialize tx).length, none)))]⟩ rfl
      refine ⟨_, hafter.trans ?_, .inr (.mk hanswer hsent)⟩
      simp
    · exact ih

omit [Transactable T] in
theorem logged_after (x : Handler A B C T PUnit) (h : Handling A B C T) :
    after (logged x) h = after x h := by
  cases hresult : result x h with
  | ok a => exact tryCatch_ok hresult
  | error e =>
    have caught : after (logged x) h = _ := tryCatch_error hresult
    cases e with
    | verifyPanic => exact caught
    | chain e => exact caught
    | comm => exact caught

omit [Transactable T] in
theorem after_service_bind {α : Type} (f : BlockService → Handler A B C T α)
    (h : Handling A B C T) : after (service >>= f) h = after (f h.service) h := rfl

omit [Transactable T] in
theorem bestLastBlock_quiet (env : BlockEnv A B C T) (h : Handling A B C T) :
    after (bestLastBlock env) h = h := by
  unfold bestLastBlock
  split
  · rfl
  · rfl
  · split
    · rfl
    · split
      · rfl
      · rfl

omit [Transactable T] in
/-- An alignment starts only where none is running. -/
theorem align_after (env : BlockEnv A B C T) (h : Handling A B C T) :
    after (align env) h = h ∨
      h.service.alignmentSender = false ∧ ∃ height trustedPeers, h.service.height < height ∧
        result (bestLastBlock env) h = .ok (height, trustedPeers) ∧
        after (align env) h = ⟨{ h.service with alignmentSender := true }, h.out ++
          [.msg .transactionService .alignmentStarted, .alignmentThread height trustedPeers]⟩ := by
  rw [align, after_service_bind]
  by_cases running : h.service.alignmentSender = true
  · simp only [running, if_true]
    exact .inl rfl
  · simp only [running, Bool.false_eq_true, if_false]
    cases hbest : result (bestLastBlock env) h with
    | error e => exact .inl ((bind_error hbest).1.trans (bestLastBlock_quiet env h))
    | ok best =>
      obtain ⟨height, trustedPeers⟩ := best
      rw [(bind_ok hbest).1, bestLastBlock_quiet]
      simp only
      by_cases behind : h.service.height < height
      · refine .inr ⟨trivial, height, trustedPeers, behind, rfl, ?_⟩
        rw [if_pos behind]
        change Handling.mk _ ((h.out ++ _) ++ [_]) = _
        rw [List.append_assoc]
        rfl
      · rw [if_neg behind]
        exact .inl rfl

/-! ### The messages -/

/-- The messages that let the service build a block. -/
def BuildsOn (s : BlockService) : Msg A B C T → Prop
  | .buildBlock => True
  | .buildBlockTimeout height => height = s.height
  | .buildBlockInPlaceOfLeader height => s.height < height
  | _ => False

/-- The messages that may change nothing. -/
def Idles : Msg A B C T → Prop
  | .blockConsolidated _ _ _ => False
  | .refreshRound _ => False
  | _ => True

/-- What one message does to the service, and what is sent. -/
inductive BlockStep [Primitives] [Executable B] [Confirmable C] [Serialize T]
    (env : BlockEnv A B C T) (s : BlockService) :
    Msg A B C T → BlockService → List (Output A B C T) → Prop
  | consolidated {block : B} {txsHashes : List Hash} {players : Players} :
      BlockStep env s (.blockConsolidated block txsHashes players)
        { s with
          actualRound := 0
          buildInProgress := false
          height := Executable.getHeight block
          lastBlockHash := Executable.getHash block }
        ((if s.alignmentSender then [.alignmentStep (Executable.getHeight block)] else []) ++
          [.msg .consensusService (.blockConsolidated block txsHashes players),
            .msg .transactionService (.blockConsolidated block txsHashes players)])
  | refreshed {round : UInt8} :
      BlockStep env s (.refreshRound round)
        { s with actualRound := if s.actualRound < round then round else s.actualRound } []
  | verified {block : B} {confirmation : C} {txsHashes : List Hash}
      {sent : List (Output A B C T)} : (sent = [] ∨ Verified env block txsHashes s sent) →
      BlockStep env s (.blockFromPeer block confirmation txsHashes) s sent
  | built {msg : Msg A B C T} {b : Bool} {sent timer : List (Output A B C T)} :
      BuildsOn s msg → (sent = [] ∨ Built env s sent) →
      (timer = [] ∨ timer = [.leaderThread s.height]) →
      BlockStep env s msg { s with buildInProgress := b } (sent ++ timer)
  | retrieved {trustedPeers : List String} {a : Bool} {sent : List (Output A B C T)} :
      (sent = [] ∨ Retrieved env s sent) → (a = s.alignmentSender ∨ a = false) →
      BlockStep env s (.retrieveBlock trustedPeers) { s with alignmentSender := a } sent
  | aligned {msg : Msg A B C T} {height : UInt64} {trustedPeers : List String} :
      s.alignmentSender = false → s.height < height →
      (msg = .detectedPossibleMisalignment ∨ ∃ height, msg = .heightFromPeer height) →
      BlockStep env s msg { s with alignmentSender := true }
        [.msg .transactionService .alignmentStarted, .alignmentThread height trustedPeers]
  | ended : BlockStep env s .alignmentEnded { s with alignmentSender := false } []
  | timed : BlockStep env s .startTimerToBuildBlock s [.buildBlockThread s.height]
  | idle {msg : Msg A B C T} : Idles msg → BlockStep env s msg s []

theorem handleMessages_after [Primitives] [Executable B] [Confirmable C] [Serialize T]
    {env : BlockEnv A B C T} {s s' : BlockService} {msg : Msg A B C T}
    {out : List (Output A B C T)} (h : handleMessages env s msg = .ok (s', out)) :
    after (handle env msg) ⟨s, []⟩ = ⟨s', out⟩ := by
  unfold handleMessages at h
  simp only at h
  split at h
  · cases h
  · cases h
    rfl

omit [Transactable T] in
theorem finalizeConsolidation_after [Executable B] (s : BlockService) (block : B)
    (txsHashes : List Hash) (players : Players) :
    after (finalizeConsolidation block txsHashes players) ⟨s, []⟩ =
      (⟨{ s with
        actualRound := 0
        buildInProgress := false
        height := Executable.getHeight block
        lastBlockHash := Executable.getHash block },
        (if s.alignmentSender then [.alignmentStep (Executable.getHeight block)] else []) ++
          [.msg .consensusService (.blockConsolidated block txsHashes players),
            .msg .transactionService (.blockConsolidated block txsHashes players)]⟩ :
          Handling A B C T) := by
  obtain ⟨actualRound, alignmentSender, buildInProgress, height, keypair, hash, nodeId⟩ := s
  cases alignmentSender with
  | false => rfl
  | true => rfl

section Handled

variable [Primitives] [Executable B] [Confirmable C] [Serialize T] {env : BlockEnv A B C T}
  {s s' : BlockService} {msg : Msg A B C T} {out : List (Output A B C T)}

theorem verifyIfLeaderAndBuild_step (builds : BuildsOn s msg)
    (h : after (verifyIfLeaderAndBuild env s.height) ⟨s, []⟩ = ⟨s', out⟩) :
    BlockStep env s msg s' out := by
  obtain ⟨b, sent, timer, hbuilt, built, timed⟩ := verifyIfLeaderAndBuild_after env s.height ⟨s, []⟩
  rw [hbuilt] at h
  cases h
  exact (.built builds built timed : BlockStep env s msg _ (sent ++ timer))

theorem tryBuildBlock_step (builds : BuildsOn s msg)
    (h : after (tryBuildBlock env) ⟨s, []⟩ = ⟨s', out⟩) : BlockStep env s msg s' out := by
  obtain ⟨b, sent, hbuilt, built⟩ := tryBuildBlock_after env ⟨s, []⟩
  rw [hbuilt] at h
  cases h
  have step := BlockStep.built (b := b) builds built (.inl rfl)
  rwa [List.append_nil] at step

theorem align_step (idles : Idles msg)
    (aligns : msg = .detectedPossibleMisalignment ∨ ∃ height, msg = .heightFromPeer height)
    (h : after (align env) ⟨s, []⟩ = ⟨s', out⟩) : BlockStep env s msg s' out := by
  rcases align_after env ⟨s, []⟩ with still | ⟨free, height, trustedPeers, behind, -, started⟩
  · rw [still] at h
    cases h
    exact .idle idles
  · rw [started] at h
    cases h
    exact .aligned free behind aligns

theorem handleMessages_step (h : handleMessages env s msg = .ok (s', out)) :
    BlockStep env s msg s' out := by
  have hafter := handleMessages_after h
  rw [handle, after_service_bind] at hafter
  cases msg with
  | blockConsolidated block txsHashes players =>
    cases (finalizeConsolidation_after s block txsHashes players).symm.trans hafter
    exact .consolidated
  | refreshRound round =>
    simp only at hafter
    have step : BlockStep env s (.refreshRound round : Msg A B C T) _ [] := .refreshed
    by_cases later : s.actualRound < round
    · rw [if_pos later] at hafter step
      cases hafter
      exact step
    · rw [if_neg later] at hafter step
      cases hafter
      exact step
  | blockFromPeer block confirmation txsHashes =>
    obtain ⟨sent, hsent, verified⟩ := verifyExtBlock_sends env block txsHashes [confirmation] s
      ⟨s, []⟩ rfl
    rw [logged_after, hsent] at hafter
    cases hafter
    exact .verified verified
  | buildBlock =>
    simp only at hafter
    split at hafter
    · exact verifyIfLeaderAndBuild_step trivial hafter
    · cases hafter
      exact .idle trivial
  | buildBlockTimeout height =>
    simp only at hafter
    split at hafter
    · next current =>
      rw [Bool.and_eq_true, beq_iff_eq] at current
      obtain ⟨-, rfl⟩ := current
      exact verifyIfLeaderAndBuild_step rfl hafter
    · cases hafter
      exact .idle trivial
  | buildBlockInPlaceOfLeader height =>
    simp only at hafter
    split at hafter
    · next above =>
      have builds : BuildsOn s (.buildBlockInPlaceOfLeader height : Msg A B C T) := above
      exact tryBuildBlock_step builds hafter
    · cases hafter
      exact .idle trivial
  | retrieveBlock trustedPeers =>
    obtain ⟨sent, hsent, retrieved⟩ := retrieveAlignmentBlock_sends env s requestAttempts
      ⟨s, []⟩ rfl
    cases hresult : result (retrieveAlignmentBlock env requestAttempts) ⟨s, []⟩ with
    | ok a =>
      have caught := (tryCatch_ok hresult).symm.trans hafter
      rw [hsent] at caught
      cases caught
      exact .retrieved retrieved (.inl rfl)
    | error e =>
      have caught := (tryCatch_error hresult).symm.trans hafter
      rw [hsent] at caught
      cases e with
      | verifyPanic =>
        cases caught
        exact .retrieved retrieved (.inl rfl)
      | chain e =>
        cases caught
        exact .retrieved retrieved (.inr rfl)
      | comm =>
        cases caught
        exact .retrieved retrieved (.inr rfl)
  | detectedPossibleMisalignment =>
    simp only [logged_after] at hafter
    exact align_step trivial (.inl rfl) hafter
  | heightFromPeer height =>
    simp only at hafter
    split at hafter
    · rw [logged_after] at hafter
      exact align_step trivial (.inr ⟨height, rfl⟩) hafter
    · cases hafter
      exact .idle trivial
  | alignmentEnded =>
    cases hafter
    exact .ended
  | startTimerToBuildBlock =>
    cases hafter
    exact .timed
  | _ =>
    cases hafter
    exact .idle trivial

end Handled

/-- The service goes on to a consolidated block. -/
theorem handleMessages_announced [Primitives] [Executable B] [Confirmable C] [Serialize T]
    {env : BlockEnv A B C T} {s s' : BlockService} {block : B} {txsHashes : List Hash}
    {players : Players} {out : List (Output A B C T)}
    (h : handleMessages env s (.blockConsolidated block txsHashes players) = .ok (s', out)) :
    s' = { s with
      actualRound := 0
      buildInProgress := false
      height := Executable.getHeight block
      lastBlockHash := Executable.getHash block } ∧
    out = (if s.alignmentSender then [.alignmentStep (Executable.getHeight block)] else []) ++
      [.msg .consensusService (.blockConsolidated block txsHashes players),
        .msg .transactionService (.blockConsolidated block txsHashes players)] := by
  have step := handleMessages_step h
  generalize hmsg : (Msg.blockConsolidated block txsHashes players : Msg A B C T) = msg at step
  cases step with
  | consolidated =>
    cases hmsg
    exact ⟨rfl, rfl⟩
  | built builds _ _ =>
    cases hmsg
    exact builds.elim
  | aligned _ _ asked =>
    cases hmsg
    rcases asked with asked | ⟨_, asked⟩ <;> cases asked
  | idle idles =>
    cases hmsg
    exact idles.elim
  | _ => cases hmsg

/-- The one request for transactions that a block handed on comes with. -/
theorem Begun.collects {env : BlockEnv A B C T} {block block' : B} {round round' : UInt8}
    {txsHashes hashes : List Hash} {out : List (Output A B C T)}
    (h : Begun env block round txsHashes out)
    (sent : .msg .transactionService (.collectBlockTxs block' round' hashes) ∈ out) :
    block' = block ∧ hashes = txsHashes := by
  cases h with
  | held _ _ =>
    cases List.mem_singleton.mp sent
    exact ⟨rfl, rfl⟩
  | supplied _ _ _ =>
    simp only [List.mem_cons, List.not_mem_nil, or_false] at sent
    rcases sent with sent | sent
    · cases sent
    · cases sent
      exact ⟨rfl, rfl⟩

/-- A block that is built has the transactions chosen from what the pool listed. -/
theorem built_collects [Primitives] [Executable B] [Confirmable C] [Serialize T]
    {env : BlockEnv A B C T} {s s' : BlockService} {msg : Msg A B C T} {block : B}
    {round : UInt8} {hashes : List Hash} {out : List (Output A B C T)}
    (step : BlockStep env s msg s' out) (builds : BuildsOn s msg)
    (sent : .msg .transactionService (.collectBlockTxs block round hashes) ∈ out) :
    ∃ listed, env.builtFrom = .answer listed ∧ hashes = chosen listed ∧
      block = Executable.new s.keypair.publicKey (chosen listed) (s.height + 1)
        s.lastBlockHash env.now := by
  cases step with
  | built _ built timer =>
    rcases List.mem_append.mp sent with sent | sent
    · rcases built with rfl | ⟨hlisted, begun⟩
      · cases sent
      · obtain ⟨same, hashes⟩ := begun.collects sent
        exact ⟨_, hlisted, hashes, same⟩
    · rcases timer with rfl | rfl
      · cases sent
      · cases List.mem_singleton.mp sent
  | aligned _ _ asked =>
    rcases asked with rfl | ⟨_, rfl⟩
    · exact builds.elim
    · exact builds.elim
  | idle _ => cases sent
  | _ => exact builds.elim

/-- Where the service sends anything but a new block. -/
def Addresses : Output A B C T → Prop
  | .msg .transactionService _ => True
  | .msg .consensusService (.proposalFromAlignmentBlock _) => True
  | .leaderThread _ => True
  | .buildBlockThread _ => True
  | .alignmentThread _ _ => True
  | _ => False

/-- What the service sends for the blocks that it builds and checks. -/
inductive BlockMail : Output A B C T → Prop
  | addTxs {txs : List (T × Nat × Option (List A))} :
      BlockMail (.msg .transactionService (.addTxs txs))
  | collectBlockTxs {block : B} {round : UInt8} {txsHashes : List Hash} :
      BlockMail (.msg .transactionService (.collectBlockTxs block round txsHashes))
  | proposalFromAlignmentBlock {confirmations : List C} :
      BlockMail (.msg .consensusService (.proposalFromAlignmentBlock confirmations))
  | leaderThread {height : UInt64} : BlockMail (.leaderThread height)
  | buildBlockThread {height : UInt64} : BlockMail (.buildBlockThread height)

/-- What is sent for a consolidated block. -/
def Announces (o : Output A B C T) : Prop :=
  (∃ height, o = .alignmentStep height) ∨ ∃ dest block txsHashes players,
    o = .msg dest (.blockConsolidated block txsHashes players)

/-- What is sent at the start of an alignment. -/
def BeginsAlignment (o : Output A B C T) : Prop :=
  o = .msg .transactionService .alignmentStarted ∨
    ∃ height trustedPeers, o = .alignmentThread height trustedPeers

theorem Begun.mail {env : BlockEnv A B C T} {block : B} {round : UInt8} {txsHashes : List Hash}
    {out : List (Output A B C T)} (h : Begun env block round txsHashes out) :
    ∀ o ∈ out, BlockMail o := by
  intro o ho
  cases h with
  | held _ _ =>
    obtain rfl := List.mem_singleton.mp ho
    exact .collectBlockTxs
  | supplied _ _ _ =>
    simp only [List.mem_cons, List.not_mem_nil, or_false] at ho
    rcases ho with rfl | rfl
    · exact .addTxs
    · exact .collectBlockTxs

/-- Everything that is sent with a step. -/
theorem BlockStep.mail [Primitives] [Executable B] [Confirmable C] [Serialize T]
    {env : BlockEnv A B C T} {s s' : BlockService} {msg : Msg A B C T}
    {out : List (Output A B C T)} (step : BlockStep env s msg s' out) {o : Output A B C T}
    (ho : o ∈ out) : BlockMail o ∨
      ((∃ block txsHashes players, msg = .blockConsolidated block txsHashes players) ∧
        Announces o) ∨
      ((s.alignmentSender = false ∧ s'.alignmentSender = true) ∧ BeginsAlignment o) := by
  cases step with
  | consolidated =>
    refine .inr (.inl ⟨⟨_, _, _, rfl⟩, ?_⟩)
    rcases List.mem_append.mp ho with ho | ho
    · split at ho
      · exact .inl ⟨_, List.mem_singleton.mp ho⟩
      · cases ho
    · simp only [List.mem_cons, List.not_mem_nil, or_false] at ho
      rcases ho with rfl | rfl
      · exact .inr ⟨_, _, _, _, rfl⟩
      · exact .inr ⟨_, _, _, _, rfl⟩
  | refreshed => cases ho
  | verified sent =>
    rcases sent with rfl | verified
    · cases ho
    · exact .inl (verified.begun.mail o ho)
  | built _ sent timer =>
    rcases List.mem_append.mp ho with ho | ho
    · rcases sent with rfl | ⟨-, begun⟩
      · cases ho
      · exact .inl (begun.mail o ho)
    · rcases timer with rfl | rfl
      · cases ho
      · obtain rfl := List.mem_singleton.mp ho
        exact .inl .leaderThread
  | retrieved sent _ =>
    rcases sent with rfl | ⟨-, verified⟩
    · cases ho
    · rcases List.mem_cons.mp ho with rfl | ho
      · exact .inl .proposalFromAlignmentBlock
      · rcases List.mem_cons.mp ho with rfl | ho
        · exact .inl .addTxs
        · rcases verified with rfl | verified
          · cases ho
          · exact .inl (verified.begun.mail o ho)
  | aligned free _ _ =>
    refine .inr (.inr ⟨⟨free, rfl⟩, ?_⟩)
    simp only [List.mem_cons, List.not_mem_nil, or_false] at ho
    rcases ho with rfl | rfl
    · exact .inl rfl
    · exact .inr ⟨_, _, rfl⟩
  | ended => cases ho
  | timed =>
    obtain rfl := List.mem_singleton.mp ho
    exact .inl .buildBlockThread
  | idle _ => cases ho

theorem BlockStep.addresses [Primitives] [Executable B] [Confirmable C] [Serialize T]
    {env : BlockEnv A B C T} {s s' : BlockService} {msg : Msg A B C T}
    {out : List (Output A B C T)} (step : BlockStep env s msg s' out)
    (other : ∀ block txsHashes players, msg ≠ .blockConsolidated block txsHashes players) :
    ∀ o ∈ out, Addresses o := by
  intro o ho
  rcases step.mail ho with mail | ⟨⟨block, txsHashes, players, consolidated⟩, -⟩ | ⟨-, begins⟩
  · cases mail <;> trivial
  · exact absurd consolidated (other block txsHashes players)
  · rcases begins with rfl | ⟨height, trustedPeers, rfl⟩
    · trivial
    · trivial

end Blocks

end BlockService

end Trinci
