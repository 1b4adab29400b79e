import Trinci.ConsensusProposals
import Trinci.ExternalBlocks
import Trinci.PoolContents

/-!
# The traces of a rejected alignment block

A full block is announced to the consensus service and to the transaction service before
it is verified. The two services keep what they are told: nothing takes it back when the
block is rejected. A rejection leaves no trace only if they knew it all before.
-/

namespace Trinci

open FirstMatch StatefulSteps BlockService

/-! ## What is sent by the time of a rejection -/

section Rejections

variable {A B C T : Type} [Executable B] [Confirmable C] [Transactable T]

namespace BlockService

omit [Executable B] [Confirmable C] in
theorem collectMissingTxs_atomic (env : BlockEnv A B C T) (missing : List Hash) (left : Nat) :
    Atomic (collectMissingTxs env missing left) := by
  intro h e he
  have split : after (collectMissingTxs env missing left) h = h ∨
      result (collectMissingTxs env missing left) h = .ok ⟨⟩ := by
    obtain ⟨same, -⟩ | ⟨attempt, txs, -, -, -, accepted⟩ := collectMissingTxs_after left h
    · exact .inl same
    · exact .inr accepted
  obtain same | accepted := split
  · exact same
  · rw [accepted] at he
    cases he

omit [Executable B] [Confirmable C] in
theorem beginExecution_atomic (env : BlockEnv A B C T) (block : B) (txsHashes : List Hash) :
    Atomic (beginExecution env block txsHashes) := by
  unfold beginExecution
  split
  · exact Atomic.throw _
  · exact Atomic.pure _
  · refine Atomic.ite (Atomic.bind_ok (collectMissingTxs_atomic _ _ _) ?_) ?_
    · exact fun _ h => ⟨⟨⟩, rfl⟩
    · exact Atomic.of_ok fun h => ⟨⟨⟩, rfl⟩

theorem verifyExtBlock_atomic (env : BlockEnv A B C T) (block : B) (txsHashes : List Hash)
    (confirmations : List C) : Atomic (verifyExtBlock env block txsHashes confirmations) := by
  rw [verifyExtBlock_eq]
  exact Atomic.quiet_bind (checkExtBlock_quiet env block confirmations)
    fun _ => beginExecution_atomic env block txsHashes

/-- The full block of the first attempt that gets one. -/
def firstFullBlock (env : BlockEnv A B C T) : (left : Nat) → Option (FullBlock B C T)
  | 0 => none
  | left + 1 =>
    match env.getFullBlock (requestAttempts - (left + 1)) with
    | .answer (some fullBlock) => some fullBlock
    | _ => firstFullBlock env left

/-- The signatures of a full block. -/
def Signed (fullBlock : FullBlock B C T) : Prop :=
  Executable.verify fullBlock.block = true ∧
    ∀ confirmation ∈ fullBlock.confirmations, Confirmable.verify confirmation = true

variable [Serialize T]

/-- The entries that the transactions of a full block are announced with. -/
def announcedTxs (fullBlock : FullBlock B C T) : List (T × Nat × Option (List A)) :=
  fullBlock.txs.map fun tx => (tx, (rmpSerialize tx).length, none)

/-- What is sent before a full block is verified. -/
def announced (fullBlock : FullBlock B C T) : List (Output A B C T) :=
  [.msg .consensusService (.proposalFromAlignmentBlock fullBlock.confirmations),
    .msg .transactionService (.addTxs (announcedTxs fullBlock))]

theorem retrieveAlignmentBlock_rejects (env : BlockEnv A B C T) (left : Nat) (s : BlockService)
    {stop : BlockStop} (h : result (retrieveAlignmentBlock env left) ⟨s, []⟩ = .error stop) :
    (∃ fullBlock, firstFullBlock env left = some fullBlock ∧ Signed fullBlock ∧
      (after (retrieveAlignmentBlock env left) ⟨s, []⟩).out = announced fullBlock) ∨
    (¬ (∃ fullBlock, firstFullBlock env left = some fullBlock ∧ Signed fullBlock) ∧
      (after (retrieveAlignmentBlock env left) ⟨s, []⟩).out = []) := by
  induction left with
  | zero =>
    refine .inr ⟨?_, rfl⟩
    rintro ⟨fullBlock, hfirst, -⟩
    cases hfirst
  | succ left ih =>
    revert h
    rw [retrieveAlignmentBlock, firstFullBlock]
    cases env.getFullBlock (requestAttempts - (left + 1)) with
    | wrong => exact ih
    | failed => exact ih
    | answer answered => cases answered with
      | none => exact ih
      | some fullBlock =>
        intro h
        dsimp only at h ⊢
        by_cases signed : (Executable.verify fullBlock.block &&
            fullBlock.confirmations.all Confirmable.verify) = true
        · rw [if_pos signed] at h ⊢
          rw [Bool.and_eq_true, List.all_eq_true] at signed
          refine .inl ⟨fullBlock, rfl, signed, ?_⟩
          have kept := verifyExtBlock_atomic env fullBlock.block
            (fullBlock.txs.map Transactable.getHash) fullBlock.confirmations
            ⟨s, announced fullBlock⟩ stop h
          exact congrArg Handling.out kept
        · rw [if_neg signed] at h ⊢
          refine .inr ⟨?_, rfl⟩
          rintro ⟨other, hother, signed'⟩
          cases hother
          rw [Bool.and_eq_true, List.all_eq_true] at signed
          exact signed signed'

end BlockService

end Rejections

/-! ## What the two services keep -/

section Proposals

variable {B C : Type} [Confirmable C] [DecidableEq C] {confirmations : List C}

omit [Confirmable C] in
theorem absorb_held {proposal : BlockProposal B C} {confirmation : C}
    (held : confirmation ∈ proposal.receivedConfirmations) :
    proposal.absorb none confirmation = proposal := by
  rw [BlockProposal.absorb, if_pos held]
  rfl

omit [Confirmable C] in
theorem absorb_extends (proposal : BlockProposal B C) (confirmation : C) :
    proposal.receivedConfirmations <+:
      (proposal.absorb none confirmation).receivedConfirmations := by
  rw [ConsensusService.absorb_received]
  split
  · exact List.prefix_rfl
  · exact List.prefix_append _ _

omit [Confirmable C] in
theorem mem_absorb (proposal : BlockProposal B C) (confirmation : C) :
    confirmation ∈ (proposal.absorb none confirmation).receivedConfirmations := by
  rw [ConsensusService.absorb_received]
  split
  · next held => exact held
  · exact List.mem_append_right _ List.mem_cons_self

omit [Confirmable C] in
/-- Confirmations are only added. -/
theorem foldl_absorb_extends (proposal : BlockProposal B C) (confirmations : List C) :
    proposal.receivedConfirmations <+:
      (confirmations.foldl (BlockProposal.absorb none) proposal).receivedConfirmations := by
  induction confirmations generalizing proposal with
  | nil => exact List.prefix_rfl
  | cons x later ih => exact (absorb_extends proposal x).trans (ih (proposal.absorb none x))

omit [Confirmable C] in
theorem mem_foldl_absorb (proposal : BlockProposal B C) {confirmation : C}
    (hc : confirmation ∈ confirmations) : confirmation ∈
      (confirmations.foldl (BlockProposal.absorb none) proposal).receivedConfirmations := by
  induction confirmations generalizing proposal with
  | nil => cases hc
  | cons x later ih =>
    rcases List.mem_cons.mp hc with rfl | hc
    · exact (foldl_absorb_extends (proposal.absorb none confirmation) later).mem
        (mem_absorb proposal confirmation)
    · exact ih (proposal.absorb none x) hc

omit [Confirmable C] in
theorem foldl_absorb_eq_self_iff {proposal : BlockProposal B C} :
    confirmations.foldl (BlockProposal.absorb none) proposal = proposal ↔
      ∀ confirmation ∈ confirmations, confirmation ∈ proposal.receivedConfirmations := by
  constructor
  · intro same confirmation hc
    have received := mem_foldl_absorb proposal hc
    rw [same] at received
    exact received
  · intro held
    induction confirmations with
    | nil => rfl
    | cons x later ih =>
      rw [List.foldl_cons, absorb_held (held x List.mem_cons_self)]
      exact ih fun y hy => held y (List.mem_cons_of_mem _ hy)

/-- The proposal of the first confirmation has them all. -/
def ConsensusService.HoldsAll (c : ConsensusService B C) (confirmations : List C) : Prop :=
  ∃ first ∈ confirmations.head?, ∃ proposal,
    c.findProposal (Confirmable.getBlockHash first) (Confirmable.getBlockHeight first)
      (Confirmable.getBlockRound first) = some proposal ∧
    ∀ confirmation ∈ confirmations, confirmation ∈ proposal.receivedConfirmations

theorem updateProposals_same_iff (env : Env) (c : ConsensusService B C) (confirmations : List C) :
    (∃ c', c.updateProposals env confirmations none = .ok c' ∧
      c'.blockProposals = c.blockProposals) ↔ c.HoldsAll confirmations := by
  cases confirmations with
  | nil =>
    refine iff_of_false ?_ ?_
    · rintro ⟨c', h, -⟩
      cases h
    · rintro ⟨first, hfirst, -⟩
      cases hfirst
  | cons first later =>
    rw [ConsensusService.updateProposals]
    constructor
    · rintro ⟨c', h, same⟩
      cases h
      obtain ⟨group, hgroup, unchanged⟩ := upsert_eq_self_iff.mp same
      obtain ⟨proposal, hproposal, absorbed⟩ :=
        upsert_eq_self_iff.mp (congrArg Prod.snd unchanged)
      refine ⟨first, rfl, proposal, ?_, foldl_absorb_eq_self_iff.mp absorbed⟩
      rw [ConsensusService.findProposal, hgroup]
      exact hproposal
    · rintro ⟨first', hfirst, proposal, hfound, held⟩
      cases hfirst
      obtain ⟨group, hgroup, hproposal⟩ := Option.bind_eq_some_iff.mp hfound
      refine ⟨_, rfl, upsert_eq_self_iff.mpr ⟨group, hgroup, ?_⟩⟩
      exact Prod.ext rfl (upsert_eq_self_iff.mpr
        ⟨proposal, hproposal, foldl_absorb_eq_self_iff.mpr held⟩)

end Proposals

section Pools

variable {A B C T : Type} [DecidableEq A] [Transactable T]

namespace TransactionService

/-- The entry is put under the hash. -/
def enters (hash : Hash) (entry : T × Nat × Option (List A)) : Bool :=
  Transactable.verify entry.1 == some true && Transactable.getHash entry.1 == hash

theorem insertInPool_lookup (t : TransactionService A T) {entry : T × Nat × Option (List A)}
    (verified : Transactable.verify entry.1 = some true) (hash : Hash) :
    (t.insertInPool entry.1 entry.2.1 entry.2.2).1.unconfirmedPool.lookup hash =
      if enters hash entry then some entry else t.unconfirmedPool.lookup hash := by
  by_cases own : Transactable.getHash entry.1 = hash
  · subst own
    have entered : enters (Transactable.getHash entry.1) entry = true := by
      simp [enters, verified]
    rw [if_pos entered]
    exact AList.lookup_insert _
  · have kept : ¬ enters hash entry = true := by
      simp [enters, own]
    rw [if_neg kept]
    exact AList.lookup_insert_ne (Ne.symm own)

theorem addTx_lookup {now : UInt64} {entry : T × Nat × Option (List A)}
    {t t' : TransactionService A T} {out : List (Output A B C T)}
    (h : t.addTx now entry.1 entry.2.1 entry.2.2 = .ok (t', out)) (hash : Hash) :
    t'.unconfirmedPool.lookup hash =
      if enters hash entry then some entry else t.unconfirmedPool.lookup hash := by
  cases addTx_addition h with
  | refused unverified =>
    have kept : ¬ enters hash entry = true := by
      simp [enters, unverified]
    rw [if_neg kept]
  | replaced verified held => exact t.insertInPool_lookup verified hash
  | pooled verified absent checked =>
    obtain ⟨same, -, -⟩ := checkWhetherToBuildBlock_ok checked
    rw [same]
    exact t.insertInPool_lookup verified hash

/-- What the pool shows of transactions that are added: the last of those under a hash. -/
theorem addTxs_lookup {now : Nat → UInt64} {txs : List (T × Nat × Option (List A))}
    {t t' : TransactionService A T} {out : List (Output A B C T)}
    (h : t.addTxs now txs = .ok (t', out)) (hash : Hash) :
    t'.unconfirmedPool.lookup hash =
      (txs.filter (enters hash)).getLast?.or (t.unconfirmedPool.lookup hash) := by
  induction txs generalizing now t out with
  | nil =>
    cases h
    rfl
  | cons entry txs ih =>
    obtain ⟨⟨t₁, out₁⟩, hfirst, h⟩ := StepMachines.bind_eq_ok.mp h
    obtain ⟨⟨t₂, out₂⟩, hlater, h⟩ := StepMachines.bind_eq_ok.mp h
    cases h
    rw [ih hlater, addTx_lookup hfirst]
    by_cases own : enters hash entry = true
    · rw [if_pos own, List.filter_cons_of_pos own, List.getLast?_cons]
      cases (txs.filter (enters hash)).getLast? <;> rfl
    · rw [if_neg own, List.filter_cons_of_neg own]

theorem addTx_isOk_iff {now : UInt64} {t : TransactionService A T}
    {entry : T × Nat × Option (List A)} :
    (∃ t' out, (t.addTx now entry.1 entry.2.1 entry.2.2 :
        Except PoolPanic (TransactionService A T × List (Output A B C T))) = .ok (t', out)) ↔
      Transactable.verify entry.1 ≠ none := by
  unfold addTx
  cases Transactable.verify entry.1 with
  | none =>
    refine iff_of_false ?_ fun differs => differs rfl
    rintro ⟨t', out, h⟩
    cases h
  | some verified =>
    refine iff_of_true ?_ (by simp)
    cases verified with
    | false => exact ⟨_, _, rfl⟩
    | true =>
      dsimp only
      split <;> exact ⟨_, _, rfl⟩

theorem addTxs_isOk_iff {now : Nat → UInt64} {txs : List (T × Nat × Option (List A))}
    {t : TransactionService A T} :
    (∃ t' out, (t.addTxs now txs :
        Except PoolPanic (TransactionService A T × List (Output A B C T))) = .ok (t', out)) ↔
      ∀ entry ∈ txs, Transactable.verify entry.1 ≠ none := by
  induction txs generalizing now t with
  | nil =>
    refine iff_of_true ⟨t, [], rfl⟩ ?_
    intro entry hentry
    cases hentry
  | cons entry txs ih =>
    rw [List.forall_mem_cons]
    constructor
    · rintro ⟨t', out, h⟩
      obtain ⟨⟨t₁, out₁⟩, hfirst, h⟩ := StepMachines.bind_eq_ok.mp h
      obtain ⟨⟨t₂, out₂⟩, hlater, -⟩ := StepMachines.bind_eq_ok.mp h
      exact ⟨addTx_isOk_iff.mp ⟨t₁, out₁, hfirst⟩, ih.mp ⟨t₂, out₂, hlater⟩⟩
    · rintro ⟨first, later⟩
      obtain ⟨t₁, out₁, hfirst⟩ := addTx_isOk_iff.mpr first
      obtain ⟨t₂, out₂, hlater⟩ := ih.mpr later
      exact ⟨t₂, out₁ ++ out₂, StepMachines.bind_eq_ok.mpr
        ⟨(t₁, out₁), hfirst, StepMachines.bind_eq_ok.mpr ⟨(t₂, out₂), hlater, rfl⟩⟩⟩

/-- Every transaction that would enter the pool, and that no later one replaces, is in it
already, with the same size and attachments. -/
def Knows (t : TransactionService A T) (txs : List (T × Nat × Option (List A))) : Prop :=
  ∀ hash, ∀ entry ∈ (txs.filter (enters hash)).getLast?,
    t.unconfirmedPool.lookup hash = some entry

theorem addTxs_same_iff (now : Nat → UInt64) (t : TransactionService A T)
    (txs : List (T × Nat × Option (List A))) :
    (∃ t' out, (t.addTxs now txs :
        Except PoolPanic (TransactionService A T × List (Output A B C T))) = .ok (t', out) ∧
      ∀ hash, t'.unconfirmedPool.lookup hash = t.unconfirmedPool.lookup hash) ↔
      (∀ entry ∈ txs, Transactable.verify entry.1 ≠ none) ∧ t.Knows txs := by
  constructor
  · rintro ⟨t', out, h, same⟩
    refine ⟨addTxs_isOk_iff.mp ⟨t', out, h⟩, fun hash entry hentry => ?_⟩
    rw [← same hash, addTxs_lookup h hash, Option.mem_def.mp hentry]
    rfl
  · rintro ⟨checked, known⟩
    obtain ⟨t', out, h⟩ := (addTxs_isOk_iff (B := B) (C := C)).mpr checked
    refine ⟨t', out, h, fun hash => ?_⟩
    rw [addTxs_lookup h hash]
    cases hlast : (txs.filter (enters hash)).getLast? with
    | none => rfl
    | some entry => exact (known hash entry hlast).symm

end TransactionService

end Pools

/-! ## The traces -/

/-- The services that are told of a full block. -/
structure Receivers (A B C T : Type) where
  consensus : ConsensusService B C
  transactions : TransactionService A T

inductive ReceiverPanic
  | consensus (panic : ConsensusPanic)
  | transactions (panic : PoolPanic)

section Traces

variable {A B C T : Type} [Primitives] [Executable B] [Confirmable C] [DecidableEq C]
  [DecidableEq A] [Transactable T]

namespace Receivers

/-- A message is handled by the service it is sent to. What is sent on is left out. -/
def deliver (env : Env) (now : Nat → UInt64) (r : Receivers A B C T) :
    Output A B C T → Except ReceiverPanic (Receivers A B C T)
  | .msg .consensusService msg =>
    match r.consensus.handleMessages env msg with
    | .ok (consensus, _) => .ok { r with consensus := consensus }
    | .error p => .error (.consensus p)
  | .msg .transactionService msg =>
    match r.transactions.handleMessages now msg with
    | .ok (transactions, _) => .ok { r with transactions := transactions }
    | .error p => .error (.transactions p)
  | _ => .ok r

omit [Primitives] [Executable B] [Confirmable C] [DecidableEq C] [DecidableEq A]
  [Transactable T] in
theorem delivered_eq_ok {P S : Type} {handled : Except P (S × List (Output A B C T))}
    {delivered : Except ReceiverPanic (Receivers A B C T)} {f : S → Receivers A B C T}
    {r : Receivers A B C T}
    (hok : ∀ state out, handled = .ok (state, out) → delivered = .ok (f state))
    (herror : ∀ p, handled = .error p → ∃ panic, delivered = .error panic) :
    delivered = .ok r ↔ ∃ state out, handled = .ok (state, out) ∧ r = f state := by
  constructor
  · intro h
    rcases hhandled : handled with p | ⟨state, out⟩
    · obtain ⟨panic, hpanic⟩ := herror p hhandled
      cases hpanic.symm.trans h
    · cases (hok state out hhandled).symm.trans h
      exact ⟨state, out, rfl, rfl⟩
  · rintro ⟨state, out, hhandled, rfl⟩
    exact hok state out hhandled

theorem deliver_consensus {env : Env} {now : Nat → UInt64} {r r' : Receivers A B C T}
    {msg : Msg A B C T} :
    r.deliver env now (.msg .consensusService msg) = .ok r' ↔
      ∃ c out, r.consensus.handleMessages env msg = .ok (c, out) ∧ r' = ⟨c, r.transactions⟩ := by
  apply delivered_eq_ok
  · intro c out h
    rw [deliver, h]
  · intro p h
    exact ⟨.consensus p, by rw [deliver, h]⟩

theorem deliver_transactions {env : Env} {now : Nat → UInt64} {r r' : Receivers A B C T}
    {msg : Msg A B C T} :
    r.deliver env now (.msg .transactionService msg) = .ok r' ↔
      ∃ t out, r.transactions.handleMessages now msg = .ok (t, out) ∧ r' = ⟨r.consensus, t⟩ := by
  apply delivered_eq_ok
  · intro t out h
    rw [deliver, h]
  · intro p h
    exact ⟨.transactions p, by rw [deliver, h]⟩

def deliverAll (env : Env) (now : Nat → UInt64) (r : Receivers A B C T)
    (sent : List (Output A B C T)) : Except ReceiverPanic (Receivers A B C T) :=
  sent.foldlM (deliver env now) r

/-- The round, the proposals and the pool are as they were. -/
structure Same (r r' : Receivers A B C T) : Prop where
  actualRound : r'.consensus.actualRound = r.consensus.actualRound
  blockProposals : r'.consensus.blockProposals = r.consensus.blockProposals
  pool : ∀ hash, r'.transactions.unconfirmedPool.lookup hash =
    r.transactions.unconfirmedPool.lookup hash

/-- Both services handle what was sent, and are as they were. -/
def LeavesNoTrace (env : Env) (now : Nat → UInt64) (r : Receivers A B C T)
    (sent : List (Output A B C T)) : Prop :=
  ∃ r', r.deliverAll env now sent = .ok r' ∧ Same r r'

variable [Serialize T]

/-- The services hold all that a full block says, and are in the round it says. -/
structure Known (r : Receivers A B C T) (fullBlock : FullBlock B C T) : Prop where
  round : ∃ first ∈ fullBlock.confirmations.head?,
    Confirmable.getBlockRound first = r.consensus.actualRound
  confirmations : r.consensus.HoldsAll fullBlock.confirmations
  checked : ∀ tx ∈ fullBlock.txs, Transactable.verify tx ≠ none
  txs : r.transactions.Knows (announcedTxs fullBlock)

end Receivers

omit [DecidableEq A] [Transactable T] in
theorem proposalFromAlignmentBlock_same_iff (env : Env) (c : ConsensusService B C)
    (confirmations : List C) :
    (∃ c' out, (c.handleMessages env (.proposalFromAlignmentBlock confirmations) :
        Except ConsensusPanic (ConsensusService B C × List (Output A B C T))) = .ok (c', out) ∧
      c'.actualRound = c.actualRound ∧ c'.blockProposals = c.blockProposals) ↔
    (∃ first ∈ confirmations.head?, Confirmable.getBlockRound first = c.actualRound) ∧
      c.HoldsAll confirmations := by
  cases confirmations with
  | nil =>
    refine iff_of_false ?_ ?_
    · rintro ⟨c', out, h, -⟩
      cases h
    · rintro ⟨⟨first, hfirst, -⟩, -⟩
      cases hfirst
  | cons first later =>
    have updated := updateProposals_same_iff env
      { c with actualRound := Confirmable.getBlockRound first } (first :: later)
    have held : ({ c with actualRound := Confirmable.getBlockRound first } :
      ConsensusService B C).HoldsAll (first :: later) ↔ c.HoldsAll (first :: later) := Iff.rfl
    rw [held] at updated
    rw [← updated]
    constructor
    · rintro ⟨c', out, h, round, same⟩
      obtain ⟨c₁, hc₁, h⟩ := StepMachines.bind_eq_ok.mp h
      cases h
      refine ⟨⟨first, rfl, ?_⟩, c', hc₁, same⟩
      rw [ConsensusService.updateProposals] at hc₁
      cases hc₁
      exact round
    · rintro ⟨⟨first', hfirst, round⟩, c₁, hc₁, same⟩
      cases hfirst
      refine ⟨c₁, [], StepMachines.bind_eq_ok.mpr ⟨c₁, hc₁, rfl⟩, ?_, same⟩
      rw [ConsensusService.updateProposals] at hc₁
      cases hc₁
      exact round

variable [Serialize T]

theorem deliverAll_announced {env : Env} {now : Nat → UInt64} {r r' : Receivers A B C T}
    {fullBlock : FullBlock B C T} :
    r.deliverAll env now (announced fullBlock) = .ok r' ↔
      ∃ c out t out', (r.consensus.handleMessages env (.proposalFromAlignmentBlock
          fullBlock.confirmations) : Except ConsensusPanic
            (ConsensusService B C × List (Output A B C T))) = .ok (c, out) ∧
        (r.transactions.addTxs now (announcedTxs fullBlock) : Except PoolPanic
            (TransactionService A T × List (Output A B C T))) = .ok (t, out') ∧ r' = ⟨c, t⟩ := by
  constructor
  · intro h
    obtain ⟨r₁, hfirst, h⟩ := StepMachines.bind_eq_ok.mp h
    obtain ⟨r₂, hsecond, h⟩ := StepMachines.bind_eq_ok.mp h
    cases h
    obtain ⟨c, out, hc, rfl⟩ := Receivers.deliver_consensus.mp hfirst
    obtain ⟨t, out', ht, rfl⟩ := Receivers.deliver_transactions.mp hsecond
    exact ⟨c, out, t, out', hc, ht, rfl⟩
  · rintro ⟨c, out, t, out', hc, ht, rfl⟩
    have hfirst : r.deliver env now (.msg .consensusService
        (.proposalFromAlignmentBlock fullBlock.confirmations)) = .ok ⟨c, r.transactions⟩ :=
      Receivers.deliver_consensus.mpr ⟨c, out, hc, rfl⟩
    have hsecond : Receivers.deliver env now ⟨c, r.transactions⟩ (.msg .transactionService
        (.addTxs (announcedTxs fullBlock))) = .ok ⟨c, t⟩ :=
      Receivers.deliver_transactions.mpr ⟨t, out', ht, rfl⟩
    exact StepMachines.bind_eq_ok.mpr ⟨_, hfirst, StepMachines.bind_eq_ok.mpr ⟨_, hsecond, rfl⟩⟩

theorem announced_noTrace_iff (env : Env) (now : Nat → UInt64) (r : Receivers A B C T)
    (fullBlock : FullBlock B C T) :
    r.LeavesNoTrace env now (announced fullBlock) ↔ r.Known fullBlock := by
  have proposed := proposalFromAlignmentBlock_same_iff (A := A) (T := T) env r.consensus
    fullBlock.confirmations
  have added := r.transactions.addTxs_same_iff (B := B) (C := C) now (announcedTxs fullBlock)
  have checks : (∀ entry ∈ (announcedTxs fullBlock : List (T × Nat × Option (List A))),
      Transactable.verify entry.1 ≠ none) ↔ ∀ tx ∈ fullBlock.txs, Transactable.verify tx ≠ none :=
    List.forall_mem_map
  rw [checks] at added
  constructor
  · rintro ⟨r', h, hround, hproposals, hpool⟩
    obtain ⟨c, out, t, out', hc, ht, rfl⟩ := deliverAll_announced.mp h
    obtain ⟨round, confirmations⟩ := proposed.mp ⟨c, out, hc, hround, hproposals⟩
    obtain ⟨checked, txs⟩ := added.mp ⟨t, out', ht, hpool⟩
    exact ⟨round, confirmations, checked, txs⟩
  · rintro ⟨round, confirmations, checked, txs⟩
    obtain ⟨c, out, hc, hround, hproposals⟩ := proposed.mpr ⟨round, confirmations⟩
    obtain ⟨t, out', ht, hpool⟩ := added.mpr ⟨checked, txs⟩
    exact ⟨⟨c, t⟩, deliverAll_announced.mpr ⟨c, out, t, out', hc, ht, rfl⟩,
      hround, hproposals, hpool⟩

/-- A rejected alignment block leaves no trace exactly if no full block with valid signatures
came, or the other services held all that it says before. -/
theorem retrieveAlignmentBlock_noTrace_iff (env : BlockEnv A B C T) (left : Nat)
    (s : BlockService) (stop : BlockStop)
    (rejected : result (retrieveAlignmentBlock env left) ⟨s, []⟩ = .error stop)
    (consensusEnv : Env) (now : Nat → UInt64)
    (r : Receivers A B C T) :
    r.LeavesNoTrace consensusEnv now (after (retrieveAlignmentBlock env left) ⟨s, []⟩).out ↔
      ∀ fullBlock, firstFullBlock env left = some fullBlock → Signed fullBlock →
        r.Known fullBlock := by
  obtain ⟨fullBlock, hfirst, signed, hout⟩ | ⟨unsigned, hout⟩ :=
    retrieveAlignmentBlock_rejects env left s rejected
  · rw [hout, announced_noTrace_iff]
    constructor
    · intro known other hother _
      rw [hfirst] at hother
      cases hother
      exact known
    · exact fun h => h fullBlock hfirst signed
  · rw [hout]
    refine iff_of_true ⟨r, rfl, rfl, rfl, fun _ => rfl⟩ ?_
    intro fullBlock hfirst signed
    exact absurd ⟨fullBlock, hfirst, signed⟩ unsigned

end Traces

namespace Sample

/-- A peer answers with a full block, of which alice's block service is asked for the first. -/
def answersFullBlock (fullBlock : FullBlock Block Confirmation Transaction) :
    BlockEnv Hash Block Confirmation Transaction where
  now := 1
  isLeader := .failed
  builtFrom := .failed
  unconfirmedHashes := .failed
  actualPlayers := .failed
  actualPlayersAgain := .failed
  getTxs _ := .failed
  getFullBlock _ := .answer (some fullBlock)
  getNeighbors := .failed
  getLastBlockInfo _ := .failed
  iterate := id

/-- Bob's block of height five, where the first is missing, with a bulk. -/
def farBlock : FullBlock Block Confirmation Transaction :=
  ⟨block 2 5 0, [confirmation 2 (block 2 5 0) 0], [sharedBulk]⟩

def farBlockWithoutTxs : FullBlock Block Confirmation Transaction :=
  ⟨block 2 5 0, [confirmation 2 (block 2 5 0) 0], []⟩

def aliceBlockService : BlockService := .start (keypair 1) "alice" (none : Option Block)

def aliceReceivers : Receivers Hash Block Confirmation Transaction :=
  ⟨node 1 3, .start "alice"⟩

/-- Alice has heard of the confirmation before. -/
def confirmedReceivers : Receivers Hash Block Confirmation Transaction :=
  ⟨{ node 1 3 with blockProposals := [(5, [.new none (block 2 5 0).getHash 5
    [confirmation 2 (block 2 5 0) 0] 0 0])] }, .start "alice"⟩

theorem confirmed_block_without_trace :
    result (retrieveAlignmentBlock (answersFullBlock farBlockWithoutTxs) requestAttempts)
        ⟨aliceBlockService, []⟩ = .error (.chain (.invalidBlockHeight 1 5)) ∧
      confirmedReceivers.LeavesNoTrace (input .buildBlock).env (fun _ => 0)
        (after (retrieveAlignmentBlock (answersFullBlock farBlockWithoutTxs) requestAttempts)
          ⟨aliceBlockService, []⟩).out := by
  have rejected : result (retrieveAlignmentBlock (answersFullBlock farBlockWithoutTxs)
      requestAttempts) ⟨aliceBlockService, []⟩ = .error (.chain (.invalidBlockHeight 1 5)) := by
    decide +kernel
  refine ⟨rejected, (retrieveAlignmentBlock_noTrace_iff _ _ _ _ rejected _ _ _).mpr ?_⟩
  intro fullBlock hfirst _
  cases hfirst
  refine ⟨⟨_, rfl, rfl⟩, ⟨_, rfl, _, rfl, fun _ => id⟩, ?_, ?_⟩
  · intro tx htx
    cases htx
  · intro hash entry hentry
    cases hentry

/-- The block is rejected for its height, and alice keeps its proposal and its transaction. -/
theorem rejected_block_leaves_traces :
    result (retrieveAlignmentBlock (answersFullBlock farBlock) requestAttempts)
        ⟨aliceBlockService, []⟩ = .error (.chain (.invalidBlockHeight 1 5)) ∧
      ((aliceReceivers.deliverAll (input .buildBlock).env (fun _ => 0)
        (after (retrieveAlignmentBlock (answersFullBlock farBlock) requestAttempts)
          ⟨aliceBlockService, []⟩).out).toOption.map fun r =>
            (r.consensus.blockProposals.length, r.transactions.poolLength)) = some (1, 1) ∧
      ¬ aliceReceivers.LeavesNoTrace (input .buildBlock).env (fun _ => 0)
        (after (retrieveAlignmentBlock (answersFullBlock farBlock) requestAttempts)
          ⟨aliceBlockService, []⟩).out := by
  refine ⟨by decide +kernel, by decide +kernel, ?_⟩
  have sent : (after (retrieveAlignmentBlock (answersFullBlock farBlock) requestAttempts)
      ⟨aliceBlockService, []⟩).out = announced farBlock := rfl
  rw [sent, announced_noTrace_iff]
  rintro ⟨-, ⟨first, -, proposal, hproposal, -⟩, -, -⟩
  cases hproposal

end Sample

end Trinci
