import Trinci.LivePool

/-!
# The transactions of a block that is built

The transaction service has a block built when a new transaction enters its pool, or when
a consolidation leaves some in it. The block service builds later: other messages are
ahead in its channel, or a timer and the elections that follow lead to it. Until then only
a consolidation takes transactions away, and it takes those that were executed, which were in
the pool before any new one. So one is left, as long as the block service is at the
same block. Whether the block is built from it depends on its size.
-/

namespace Trinci

open StepMachines

variable {W : Type}

namespace LiveNode

/-! ## What a consolidation leaves -/

section Stays

/-- The hashes that a message takes from the pool. -/
def removed : NodeMsg → List Hash
  | .blockConsolidated _ txsHashes _ => txsHashes
  | _ => []

/-- A transaction is left in the pool once these messages are taken. -/
def Stays (s : TransactionService Hash Transaction) (queue : List NodeMsg) : Prop :=
  ∃ hash ∈ s.unconfirmedPool, ∀ msg ∈ queue, hash ∉ removed msg

variable {s s' : TransactionService Hash Transaction} {msg : NodeMsg} {queue msgs : List NodeMsg}
  {out : List NodeOutput}

theorem removed_of_none (h : consolidatedBlock msg = none) : removed msg = [] := by
  cases msg <;> first | rfl | cases h

theorem Stays.mono (h : Stays s queue) (sub : msgs ⊆ queue) : Stays s msgs := by
  obtain ⟨hash, pooled, left⟩ := h
  exact ⟨hash, pooled, fun msg hmsg => left msg (sub hmsg)⟩

theorem Stays.append (h : Stays s queue) (quiet : ∀ msg ∈ msgs, consolidatedBlock msg = none) :
    Stays s (queue ++ msgs) := by
  obtain ⟨hash, pooled, left⟩ := h
  refine ⟨hash, pooled, fun msg hmsg => ?_⟩
  rcases List.mem_append.mp hmsg with hmsg | hmsg
  · exact left msg hmsg
  · rw [removed_of_none (quiet msg hmsg)]
    exact List.not_mem_nil

variable [Primitives] [NodeCodec]

theorem Stays.pop (h : Stays s (msg :: queue)) (step : TransactionService.PoolStep s msg s' out) :
    Stays s' queue := by
  obtain ⟨hash, pooled, left⟩ := h
  rw [List.forall_mem_cons] at left
  refine ⟨hash, ?_, left.2⟩
  cases step with
  | added grows => exact grows.keeps hash pooled
  | addedAll grows => exact grows.keeps hash pooled
  | consolidated pool _ _ _ => exact (pool hash).mpr ⟨pooled, left.1⟩
  | collected _ _ => exact pooled
  | rests _ same _ => rwa [same]

/-- A hash in the pool is that of a transaction. -/
theorem exists_getHash (h : s.Keyed) {hash : Hash} (pooled : hash ∈ s.unconfirmedPool) :
    ∃ tx : Transaction, tx.getHash = hash := by
  obtain ⟨entry, hentry⟩ := Option.isSome_iff_exists.mp (AList.lookup_isSome.mpr pooled)
  exact ⟨entry.1, h hash entry hentry⟩

end Stays

/-! ## What leads to a block -/

/-- The messages after which the block service builds or starts a timer. -/
def StartsBuilding : NodeMsg → Prop
  | .startTimerToBuildBlock => True
  | .buildBlock => True
  | _ => False

/-- The height of the block that a timer or an election may have built. -/
def heightToBuild : NodeOutput → Option Nat
  | .msg .nodeInterface (.verifyIfConsolidated height _) => some height.toNat
  | .msg .consensusService (.blockElectionFailed height _) => some height.toNat
  | .msg .consensusService (.confirmBuildBlockInPlaceOfLeader height _) => some height.toNat
  | .msg .blockService (.buildBlockInPlaceOfLeader height) => some height.toNat
  | .electionThread height _ => some height.toNat
  | .msg .blockService (.buildBlockTimeout height) => some (height.toNat + 1)
  | .buildBlockThread height => some (height.toNat + 1)
  | .leaderThread height => some (height.toNat + 1)
  | _ => none

/-- The block that is going to be executed. -/
def blockToExecute : NodeOutput → Option Block
  | .msg .transactionService (.collectBlockTxs block _ _) => some block
  | .msg .nodeInterface (.executeBlock block _ _) => some block
  | _ => none

/-- The height after the block where the block service is. -/
def AtNext (tip : Option Block) (height : Nat) : Prop :=
  ∃ b, tip = some b ∧ height = b.data.height.toNat + 1

/-- A block on top of the one where the block service is may be consolidated. -/
inductive Underway (n : LiveNode W) (tip : Option Block) : Prop
  | pending {o : NodeOutput} {block : Block} :
      n.Pending o → blockToExecute o = some block → AtNext tip block.data.height.toNat →
      Underway n tip
  | taken {taken : TakenBlock} : n.taken = some taken → Underway n tip
  | forked {key : Hash} {forked : ExecutedFork} :
      n.wasm.forksCollector.lookup key = some forked → Underway n tip
  | announced {block : Block} : block ∈ n.announced → Underway n tip

section Late

variable [Primitives] [Serialize BlockData] {tip : Option Block} {next : Block} {o : NodeOutput}

/-- What leads to a block is late once the block service goes on. -/
theorem heightToBuild_late {height : Nat} (h : Timely tip o) (hnext : Next tip next)
    (hheight : heightToBuild o = some height) : ¬ AtNext (some next) height := by
  rintro ⟨b, ⟨⟩, rfl⟩
  have late : ∃ b, tip = some b ∧ next.data.height.toNat + 1 ≤ b.data.height.toNat + 1 := by
    unfold heightToBuild at hheight
    split at hheight
    · rw [← Option.some.inj hheight]
      exact h
    · rw [← Option.some.inj hheight]
      exact h
    · rw [← Option.some.inj hheight]
      exact h
    · rw [← Option.some.inj hheight]
      exact h
    · rw [← Option.some.inj hheight]
      exact h
    · obtain ⟨b, hb, upTo⟩ : UpTo tip _ := h
      exact ⟨b, hb, by have := Option.some.inj hheight; omega⟩
    · obtain ⟨b, hb, upTo⟩ : UpTo tip _ := h
      exact ⟨b, hb, by have := Option.some.inj hheight; omega⟩
    · obtain ⟨b, hb, upTo⟩ : UpTo tip _ := h
      exact ⟨b, hb, by have := Option.some.inj hheight; omega⟩
    · cases hheight
  obtain ⟨b, hb, le⟩ := late
  have := hnext b hb
  omega

theorem blockToExecute_late {block : Block} (h : Timely tip o) (hnext : Next tip next)
    (hblock : blockToExecute o = some block) : ¬ AtNext (some next) block.data.height.toNat := by
  rintro ⟨b, ⟨⟩, height⟩
  obtain ⟨b, hb, follows⟩ : ∃ b, tip = some b ∧ Follows b block := by
    unfold blockToExecute at hblock
    split at hblock
    · cases hblock
      exact h
    · cases hblock
      exact h
    · cases hblock
  have := hnext b hb
  rcases follows.height with le | ⟨same, -⟩ <;> omega

end Late

/-! ## The invariant -/

section Invariant

variable [Primitives] [NodeCodec]

/-- Whatever is removed from the pool later is in it, or belongs to the genesis block; and
where a block may be built, a transaction is left for it. -/
structure Supplied (n : LiveNode W) (tip : Option Block) : Prop where
  keyed : n.transactionService.Keyed
  calm : Underway n tip → ∀ msg ∈ n.toTransactions, consolidatedBlock msg = none
  single : (n.toTransactions.filterMap consolidatedBlock).length ≤ 1
  listed : ∀ msg ∈ n.toTransactions ++ n.toBlock, ∀ hash ∈ removed msg,
    hash ∈ n.transactionService.unconfirmedPool ∨ ∀ tx : Transaction, tx.getHash ≠ hash
  executing : ∀ (block : Block) (round : UInt8) (txs : List Transaction),
    n.Pending (.msg .nodeInterface (.executeBlock block round txs)) →
    AtNext tip block.data.height.toNat →
    ∀ tx ∈ txs, tx.getHash ∈ n.transactionService.unconfirmedPool
  taken : ∀ taken, n.taken = some taken →
    ∀ tx ∈ taken.txs, tx.getHash ∈ n.transactionService.unconfirmedPool
  forks : ∀ key forked, n.wasm.forksCollector.lookup key = some forked →
    ∀ hash ∈ forked.executed, hash ∈ n.transactionService.unconfirmedPool
  started : ∀ before msg after, n.toBlock = before ++ msg :: after → StartsBuilding msg →
    Stays n.transactionService (n.toTransactions ++ before)
  due : ∀ o height, n.Pending o → heightToBuild o = some height → AtNext tip height →
    Stays n.transactionService n.toTransactions

/-- What has to hold of the node when this is sent. -/
def Allowed (n : LiveNode W) (tip : Option Block) : NodeOutput → Prop
  | .msg .blockService (.blockConsolidated _ _ _) => False
  | .msg .transactionService (.blockConsolidated _ _ _) => False
  | .msg .blockService .startTimerToBuildBlock =>
    Stays n.transactionService (n.toTransactions ++ n.toBlock)
  | .msg .blockService .buildBlock =>
    Stays n.transactionService (n.toTransactions ++ n.toBlock)
  | .msg .transactionService (.collectBlockTxs _ _ _) =>
    ∀ msg ∈ n.toTransactions, consolidatedBlock msg = none
  | .msg .nodeInterface (.executeBlock block _ txs) =>
    AtNext tip block.data.height.toNat →
      (∀ msg ∈ n.toTransactions, consolidatedBlock msg = none) ∧
        ∀ tx ∈ txs, tx.getHash ∈ n.transactionService.unconfirmedPool
  | o => ∀ height, heightToBuild o = some height → AtNext tip height →
    Stays n.transactionService n.toTransactions

variable {n n' : LiveNode W} {tip : Option Block} {out : List NodeOutput} {o : NodeOutput}
  {msg : NodeMsg}

theorem Allowed.block (h : Allowed n tip (.msg .blockService msg)) :
    consolidatedBlock msg = none := by
  cases msg <;> first | rfl | exact h.elim

theorem Allowed.transactions (h : Allowed n tip (.msg .transactionService msg)) :
    consolidatedBlock msg = none := by
  cases msg <;> first | rfl | exact h.elim

theorem Allowed.started (h : Allowed n tip (.msg .blockService msg)) (starts : StartsBuilding msg) :
    Stays n.transactionService (n.toTransactions ++ n.toBlock) := by
  cases msg <;> first | exact h | exact starts.elim

theorem Allowed.calm {block : Block} (h : Allowed n tip o) (hblock : blockToExecute o = some block)
    (next : AtNext tip block.data.height.toNat) :
    ∀ msg ∈ n.toTransactions, consolidatedBlock msg = none := by
  unfold blockToExecute at hblock
  split at hblock
  · exact h
  · cases hblock
    exact (h next).1
  · cases hblock

theorem Allowed.due {height : Nat} (h : Allowed n tip o) (hheight : heightToBuild o = some height)
    (next : AtNext tip height) : Stays n.transactionService n.toTransactions := by
  unfold heightToBuild at hheight
  split at hheight <;> first | exact h height hheight next | cases hheight

theorem quiet_block (allowed : ∀ o ∈ out, Allowed n tip o) :
    ∀ msg ∈ out.filterMap (messageTo .blockService), consolidatedBlock msg = none :=
  fun _ hmsg => (allowed _ (mem_messageTo.mp hmsg)).block

theorem quiet_transactions (allowed : ∀ o ∈ out, Allowed n tip o) :
    ∀ msg ∈ out.filterMap (messageTo .transactionService), consolidatedBlock msg = none :=
  fun _ hmsg => (allowed _ (mem_messageTo.mp hmsg)).transactions

theorem underway_post (h : Supplied n tip) (allowed : ∀ o ∈ out, Allowed n tip o)
    (underway : Underway (n.post out) tip) :
    ∀ msg ∈ n.toTransactions, consolidatedBlock msg = none := by
  cases underway with
  | pending ho hblock next =>
    rcases pending_post ho with ho | ho
    · exact h.calm (.pending ho hblock next)
    · exact (allowed _ ho).calm hblock next
  | taken htaken => exact h.calm (.taken htaken)
  | forked hforked => exact h.calm (.forked hforked)
  | announced hblock =>
    obtain ⟨msg, hmsg, same⟩ := List.mem_filterMap.mp hblock
    rcases List.mem_append.mp hmsg with hmsg | hmsg
    · exact h.calm (.announced (List.mem_filterMap.mpr ⟨msg, hmsg, same⟩))
    · cases (quiet_block allowed msg hmsg).symm.trans same

theorem Supplied.post (h : Supplied n tip) (allowed : ∀ o ∈ out, Allowed n tip o) :
    Supplied (n.post out) tip where
  keyed := h.keyed
  calm underway msg hmsg := by
    rcases List.mem_append.mp hmsg with hmsg | hmsg
    · exact underway_post h allowed underway msg hmsg
    · exact quiet_transactions allowed msg hmsg
  single := by
    have none := List.filterMap_eq_nil_iff.mpr (quiet_transactions allowed)
    rw [LiveNode.post, List.filterMap_append, none, List.append_nil]
    exact h.single
  listed msg hmsg hash hhash := by
    have told : msg ∈ n.toTransactions ++ n.toBlock ∨ consolidatedBlock msg = none := by
      rcases List.mem_append.mp hmsg with hmsg | hmsg
      · rcases List.mem_append.mp hmsg with hmsg | hmsg
        · exact .inl (List.mem_append_left _ hmsg)
        · exact .inr (quiet_transactions allowed msg hmsg)
      · rcases List.mem_append.mp hmsg with hmsg | hmsg
        · exact .inl (List.mem_append_right _ hmsg)
        · exact .inr (quiet_block allowed msg hmsg)
    rcases told with hmsg | none
    · exact h.listed msg hmsg hash hhash
    · rw [removed_of_none none] at hhash
      cases hhash
  executing block round txs ho next := by
    rcases pending_post ho with ho | ho
    · exact h.executing block round txs ho next
    · exact (allowed _ ho next).2
  taken := h.taken
  forks := h.forks
  started before msg after hsplit starts := by
    have quiet := quiet_transactions allowed
    rcases split_append hsplit with ⟨rest, hsplit⟩ | ⟨between, rfl, hsent⟩
    · refine ((h.started before msg rest hsplit starts).append quiet).mono ?_
      intro m hm
      simp only [LiveNode.post, List.mem_append] at hm ⊢
      tauto
    · have sent : .msg .blockService msg ∈ out := by
        rw [← mem_messageTo, hsent]
        simp
      have behind : ∀ m ∈ out.filterMap (messageTo .transactionService) ++ between,
          consolidatedBlock m = Option.none := by
        rw [List.forall_mem_append]
        refine ⟨quiet, fun m hm => quiet_block allowed m ?_⟩
        rw [hsent]
        exact List.mem_append_left _ hm
      refine (((allowed _ sent).started starts).append behind).mono ?_
      intro m hm
      simp only [LiveNode.post, List.mem_append] at hm ⊢
      tauto
  due o height ho hheight next := by
    rcases pending_post ho with ho | ho
    · exact (h.due o height ho hheight next).append (quiet_transactions allowed)
    · exact ((allowed _ ho).due hheight next).append (quiet_transactions allowed)

/-- A node that took something besides a transaction. -/
structure Continues (n n' : LiveNode W) (tip : Option Block) : Prop where
  pool : n'.transactionService = n.transactionService
  transactions : n'.toTransactions = n.toTransactions
  block : n'.toBlock <:+ n.toBlock
  pending : ∀ o, n'.Pending o → n.Pending o
  taken : ∀ taken, n'.taken = some taken → Underway n tip ∧
    ∀ tx ∈ taken.txs, tx.getHash ∈ n.transactionService.unconfirmedPool
  forks : ∀ key forked, n'.wasm.forksCollector.lookup key = some forked → Underway n tip ∧
    ∀ hash ∈ forked.executed, hash ∈ n.transactionService.unconfirmedPool

theorem Continues.underway (h : Continues n n' tip) (underway : Underway n' tip) :
    Underway n tip := by
  cases underway with
  | pending ho hblock next => exact .pending (h.pending _ ho) hblock next
  | taken htaken => exact (h.taken _ htaken).1
  | forked hforked => exact (h.forks _ _ hforked).1
  | announced hblock =>
    obtain ⟨msg, hmsg, same⟩ := List.mem_filterMap.mp hblock
    exact .announced (List.mem_filterMap.mpr ⟨msg, h.block.subset hmsg, same⟩)

theorem Supplied.continues (h : Supplied n tip) (c : Continues n n' tip) : Supplied n' tip where
  keyed := c.pool ▸ h.keyed
  calm underway := by
    rw [c.transactions]
    exact h.calm (c.underway underway)
  single := by
    rw [c.transactions]
    exact h.single
  listed msg hmsg := by
    rw [c.pool]
    apply h.listed msg
    rw [c.transactions] at hmsg
    rcases List.mem_append.mp hmsg with hmsg | hmsg
    · exact List.mem_append_left _ hmsg
    · exact List.mem_append_right _ (c.block.subset hmsg)
  executing block round txs ho next := by
    rw [c.pool]
    exact h.executing block round txs (c.pending _ ho) next
  taken taken htaken := by
    rw [c.pool]
    exact (c.taken taken htaken).2
  forks key forked hforked := by
    rw [c.pool]
    exact (c.forks key forked hforked).2
  started before msg after hsplit starts := by
    obtain ⟨front, hfront⟩ := c.block
    rw [hsplit, ← List.append_assoc] at hfront
    rw [c.pool, c.transactions]
    refine (h.started (front ++ before) msg after hfront.symm starts).mono ?_
    intro m hm
    simp only [List.mem_append] at hm ⊢
    tauto
  due o height ho hheight next := by
    rw [c.pool, c.transactions]
    exact h.due o height (c.pending _ ho) hheight next

end Invariant

/-! ## Every step keeps the invariant -/

section Services

variable [Primitives] [NodeCodec] {n n' : LiveNode W} {tip : Option Block}
  {out : List NodeOutput} {o : NodeOutput} {msg : NodeMsg}

theorem consensus_allowed {s : ConsensusService Block Confirmation} (h : s.MaySend msg o)
    (due : ∀ height, heightToBuild (.msg .consensusService msg) = some height →
      AtNext tip height → Stays n.transactionService n.toTransactions) : Allowed n tip o := by
  unfold ConsensusService.MaySend at h
  split at h
  · exact fun _ hheight => nomatch hheight
  · obtain ⟨round, rfl⟩ := h
    exact due
  · exact fun _ hheight => nomatch hheight
  · exact fun _ hheight => nomatch hheight
  · exact fun _ hheight => nomatch hheight
  · exact fun _ hheight => nomatch hheight
  · exact fun _ hheight => nomatch hheight
  · next msg _ => cases msg <;> exact fun _ hheight => nomatch hheight
  · exact fun _ hheight => nomatch hheight
  · exact fun _ hheight => nomatch hheight
  · subst h
    exact due
  · exact fun _ hheight => nomatch hheight
  · exact h.elim

theorem enters_allowed (h : Enters o) : Allowed n tip o := by
  rcases h with h | ⟨txs, rfl⟩
  · unfold arrives at h
    split at h
    · split at h <;> first | contradiction | exact fun _ hheight => nomatch hheight
    · split at h <;> first | contradiction | exact fun _ hheight => nomatch hheight
    · split at h <;> first | contradiction | exact fun _ hheight => nomatch hheight
    · cases h
  · exact fun _ hheight => nomatch hheight

section Transactions

variable {rest : List NodeMsg} {s' : TransactionService Hash Transaction}

/-- While a block is under way the transaction service takes nothing out of the pool. -/
theorem Supplied.keeps (h : Supplied n tip) (heq : n.toTransactions = msg :: rest)
    (step : TransactionService.PoolStep n.transactionService msg s' out)
    (underway : Underway n tip) {hash : Hash}
    (pooled : hash ∈ n.transactionService.unconfirmedPool) : hash ∈ s'.unconfirmedPool :=
  mem_of_poolStep step (h.calm underway msg (heq ▸ List.mem_cons_self)) pooled

/-- No consolidation is on its way behind another one. -/
theorem Supplied.quiet_behind (h : Supplied n tip) (heq : n.toTransactions = msg :: rest)
    (consolidated : consolidatedBlock msg ≠ none) :
    ∀ m ∈ rest ++ n.toBlock, consolidatedBlock m = none := by
  have still : ¬ Underway n tip :=
    fun underway => consolidated (h.calm underway msg (heq ▸ List.mem_cons_self))
  obtain ⟨block, hblock⟩ := Option.ne_none_iff_exists'.mp consolidated
  have single := h.single
  rw [heq, List.filterMap_cons_some hblock, List.length_cons] at single
  have empty : rest.filterMap consolidatedBlock = [] := List.length_eq_zero_iff.mp (by omega)
  rw [List.forall_mem_append]
  refine ⟨List.filterMap_eq_nil_iff.mp empty, fun m hm => ?_⟩
  by_contra some
  obtain ⟨block, hblock⟩ := Option.ne_none_iff_exists'.mp some
  exact still (.announced (List.mem_filterMap.mpr ⟨m, hm, hblock⟩))

theorem Supplied.pop (h : Supplied n tip) (heq : n.toTransactions = msg :: rest)
    (step : TransactionService.PoolStep n.transactionService msg s' out) :
    Supplied { n with
      transactionService := s'
      toTransactions := rest } tip := by
  have sub : rest ⊆ n.toTransactions := fun m hm => heq ▸ List.mem_cons_of_mem _ hm
  have pending : ∀ o, Pending { n with
      transactionService := s'
      toTransactions := rest } o → n.Pending o :=
    fun o ho => ho.mono (fun _ h => h) (fun _ h => h) sub fun _ h => h
  have underway : Underway { n with
      transactionService := s'
      toTransactions := rest } tip → Underway n tip := by
    intro underway
    cases underway with
    | pending ho hblock next => exact .pending (pending _ ho) hblock next
    | taken htaken => exact .taken htaken
    | forked hforked => exact .forked hforked
    | announced hblock => exact .announced hblock
  exact
    { keyed := step.keyed h.keyed
      calm := fun busy m hm => h.calm (underway busy) m (sub hm)
      single := by
        have single := h.single
        rw [heq, List.filterMap_cons] at single
        split at single
        · exact single
        · rw [List.length_cons] at single
          exact Nat.le_of_succ_le single
      listed := fun m hm hash hhash => by
        by_cases other : consolidatedBlock msg = none
        · refine (h.listed m ?_ hash hhash).imp_left (mem_of_poolStep step other)
          rcases List.mem_append.mp hm with hm | hm
          · exact List.mem_append_left _ (sub hm)
          · exact List.mem_append_right _ hm
        · rw [removed_of_none (h.quiet_behind heq other m hm)] at hhash
          cases hhash
      executing := fun block round txs ho next tx htx =>
        h.keeps heq step (.pending (pending _ ho) rfl next)
          (h.executing block round txs (pending _ ho) next tx htx)
      taken := fun taken htaken tx htx =>
        h.keeps heq step (.taken htaken) (h.taken taken htaken tx htx)
      forks := fun key forked hforked hash hhash =>
        h.keeps heq step (.forked hforked) (h.forks key forked hforked hash hhash)
      started := fun before m after hsplit starts => by
        have stays := h.started before m after hsplit starts
        rw [heq, List.cons_append] at stays
        exact stays.pop step
      due := fun o height ho hheight next => by
        have stays := h.due o height (pending o ho) hheight next
        rw [heq] at stays
        exact stays.pop step }

/-- A new transaction of the pool is none of those that are removed later. -/
theorem Supplied.fresh_stays (h : Supplied n tip) (heq : n.toTransactions = msg :: rest)
    (keyed : s'.Keyed)
    (fresh : ∃ hash ∈ s'.unconfirmedPool, hash ∉ n.transactionService.unconfirmedPool) :
    Stays s' (rest ++ n.toBlock) := by
  obtain ⟨hash, pooled, absent⟩ := fresh
  refine ⟨hash, pooled, fun m hm hhash => ?_⟩
  have hmem : m ∈ n.toTransactions ++ n.toBlock := by
    rw [heq]
    exact List.mem_cons_of_mem _ hm
  rcases h.listed m hmem hash hhash with old | foreign
  · exact absent old
  · obtain ⟨tx, htx⟩ := exists_getHash keyed pooled
    exact foreign tx htx

theorem trigger_allowed (h : TransactionService.Triggers o)
    (stays : Stays n.transactionService (n.toTransactions ++ n.toBlock)) : Allowed n tip o := by
  rcases h with rfl | rfl
  · exact stays
  · exact stays

theorem Supplied.takeTransactions (h : Supplied n tip) (heq : n.toTransactions = msg :: rest)
    (step : TransactionService.PoolStep n.transactionService msg s' out) :
    Supplied (({ n with
      transactionService := s'
      toTransactions := rest } : LiveNode W).post out) tip := by
  refine (h.pop heq step).post fun o ho => ?_
  have keyed := step.keyed h.keyed
  cases step with
  | added grows =>
    have fresh := grows.fresh (List.ne_nil_of_mem ho)
    exact trigger_allowed (grows.triggers o ho) (h.fresh_stays heq keyed fresh)
  | addedAll grows =>
    have fresh := grows.fresh (List.ne_nil_of_mem ho)
    exact trigger_allowed (grows.triggers o ho) (h.fresh_stays heq keyed fresh)
  | consolidated _ triggers left _ =>
    obtain ⟨hash, pooled⟩ := left (List.ne_nil_of_mem ho)
    refine trigger_allowed (triggers o ho) ⟨hash, pooled, fun m hm => ?_⟩
    rw [removed_of_none (h.quiet_behind heq (by simp [consolidatedBlock]) m hm)]
    exact List.not_mem_nil
  | @collected block round txsHashes txs held hashes =>
    obtain rfl := List.mem_singleton.mp ho
    intro next
    constructor
    · have calm := h.calm (.pending (.transactions (heq ▸ List.mem_cons_self)) rfl next)
      rw [heq, List.forall_mem_cons] at calm
      exact calm.2
    · intro tx htx
      apply held
      rw [← hashes h.keyed]
      exact List.mem_map_of_mem htx
  | rests _ _ sent =>
    obtain ⟨txs, rfl⟩ := sent o ho
    intro height hheight
    cases hheight

end Transactions

section BlockService

open BlockService

variable [Serialize BlockData] [Serialize ConfirmationData]
  {env : BlockEnv Hash Block Confirmation Transaction} {rest : List NodeMsg}
  {blockService : BlockService} {b : Block}

omit [Serialize ConfirmationData] in
/-- Where the block service builds, a transaction is left. -/
theorem Supplied.builds (h : Supplied n (some b)) (ordered : Ordered n (some b))
    (heq : n.toBlock = msg :: rest) (builds : BuildsOn n.blockService msg) :
    Stays n.transactionService n.toTransactions := by
  have located := ordered.at
  have pending : n.Pending (.msg .blockService msg) := .block (heq ▸ List.mem_cons_self)
  cases msg with
  | buildBlock =>
    have stays := h.started [] _ rest heq trivial
    rwa [List.append_nil] at stays
  | buildBlockTimeout height =>
    obtain rfl : height = n.blockService.height := builds
    exact h.due _ _ pending rfl ⟨b, rfl, by rw [located.height]⟩
  | buildBlockInPlaceOfLeader height =>
    have above : n.blockService.height < height := builds
    obtain ⟨b', hb', upTo⟩ : UpToNext (some b) height := ordered.timely _ pending
    cases hb'
    rw [located.height, UInt64.lt_iff_toNat_lt] at above
    exact h.due _ _ pending rfl ⟨b, rfl, by omega⟩
  | _ => exact builds.elim

omit [Serialize BlockData] [Serialize ConfirmationData] in
theorem begun_allowed {block : Block} {round : UInt8} {hashes : List Hash}
    (h : Begun env block round hashes out)
    (calm : ∀ o ∈ out, collects o = true → ∀ m ∈ n.toTransactions, consolidatedBlock m = none) :
    ∀ o ∈ out, Allowed n tip o := by
  intro o ho
  cases h with
  | held _ _ =>
    obtain rfl := List.mem_singleton.mp ho
    exact calm _ ho rfl
  | supplied _ _ _ =>
    have asks := calm o ho
    simp only [List.mem_cons, List.not_mem_nil, or_false] at ho
    rcases ho with rfl | rfl
    · exact fun _ hheight => nomatch hheight
    · exact asks rfl

theorem block_allowed {s s' : BlockService} (step : BlockStep env s msg s' out)
    (other : consolidatedBlock msg = none)
    (calm : ∀ o ∈ out, collects o = true → ∀ m ∈ n.toTransactions, consolidatedBlock m = none)
    (built : BuildsOn s msg → Stays n.transactionService n.toTransactions)
    (timed : msg = .startTimerToBuildBlock → Stays n.transactionService n.toTransactions) :
    ∀ o ∈ out, Allowed n tip o := by
  cases step with
  | consolidated => cases other
  | refreshed => simp
  | verified sent =>
    rcases sent with rfl | verified
    · simp
    · exact begun_allowed verified.begun calm
  | built builds sent timer =>
    rw [List.forall_mem_append] at calm ⊢
    constructor
    · rcases sent with rfl | ⟨-, begun⟩
      · simp
      · exact begun_allowed begun calm.1
    · rcases timer with rfl | rfl
      · simp
      · intro o ho
        obtain rfl := List.mem_singleton.mp ho
        exact fun _ _ _ => built builds
  | retrieved sent _ =>
    rcases sent with rfl | ⟨-, verified⟩
    · simp
    · simp only [List.forall_mem_cons] at calm ⊢
      refine ⟨fun _ hheight => (nomatch hheight), fun _ hheight => (nomatch hheight), ?_⟩
      rcases verified with rfl | verified
      · simp
      · exact begun_allowed verified.begun calm.2.2
  | aligned _ _ _ =>
    rw [List.forall_mem_cons, List.forall_mem_singleton]
    exact ⟨fun _ hheight => (nomatch hheight), fun _ hheight => (nomatch hheight)⟩
  | ended => simp
  | timed =>
    rw [List.forall_mem_singleton]
    exact fun _ _ _ => timed rfl
  | idle _ => simp

/-- What the block service sends to the transaction service is written after the answers it
waited for. -/
theorem Supplied.takeOther (h : Supplied n (some b)) (ordered : Ordered n (some b))
    (heq : n.toBlock = msg :: rest)
    (hblock : n.blockService.handleMessages env msg = .ok (blockService, out))
    (honest : n.answers msg env out = true) (other : consolidatedBlock msg = none) :
    Supplied (({ n with
      blockService := blockService
      toBlock := rest } : LiveNode W).post out) (some b) := by
  have taken : Continues n { n with
      blockService := blockService
      toBlock := rest } (some b) :=
    { pool := rfl
      transactions := rfl
      block := heq ▸ List.suffix_cons msg rest
      pending := fun o ho => ho.mono (fun _ h => h) (fun _ h => heq ▸ List.mem_cons_of_mem _ h)
        (fun _ h => h) fun _ h => h
      taken := fun taken htaken => ⟨.taken htaken, h.taken taken htaken⟩
      forks := fun key forked hforked => ⟨.forked hforked, h.forks key forked hforked⟩ }
  refine (h.continues taken).post (block_allowed (handleMessages_step hblock) other ?_ ?_ ?_)
  · intro o ho asks
    exact (answers_asked honest (List.any_eq_true.mpr ⟨o, ho, asks⟩)).1
  · exact h.builds ordered heq
  · rintro rfl
    have stays := h.started [] _ rest heq trivial
    rwa [List.append_nil] at stays

/-- The block service goes on to the next block: all that could lead to a block before is
late. -/
theorem Supplied.takeAnnouncement (h : Supplied n tip) (ordered : Ordered n tip) {block : Block}
    {txsHashes : List Hash} {players : Players}
    (heq : n.toBlock = .blockConsolidated block txsHashes players :: rest)
    (hblock : n.blockService.handleMessages env (.blockConsolidated block txsHashes players) =
      .ok (blockService, out)) :
    Supplied (({ n with
      blockService := blockService
      toBlock := rest } : LiveNode W).post out) (some block) := by
  obtain ⟨-, hnext, none, taken, forks⟩ := ordered.announcement heq
  have announced : block ∈ n.announced := by
    simp [LiveNode.announced, heq, consolidatedBlock]
  have calm := h.calm (.announced announced)
  have sent : out.filterMap (messageTo .transactionService) =
        [.blockConsolidated block txsHashes players] ∧
      out.filterMap (messageTo .blockService) = [] ∧
      ∀ o ∈ out, heightToBuild o = Option.none ∧ blockToExecute o = Option.none := by
    obtain ⟨-, rfl⟩ := handleMessages_announced hblock
    refine ⟨?_, ?_, ?_⟩
    · split <;> rfl
    · split <;> rfl
    · split <;> simp [heightToBuild, blockToExecute]
  obtain ⟨toTransactions, toBlock, plain⟩ := sent
  have old : ∀ o, (({ n with
      blockService := blockService
      toBlock := rest } : LiveNode W).post out).Pending o → n.Pending o ∨ o ∈ out :=
    fun o ho => (pending_post ho).imp_left fun ho => ho.mono (fun _ h => h)
      (fun _ h => heq ▸ List.mem_cons_of_mem _ h) (fun _ h => h) fun _ h => h
  have executed : ∀ o block', (({ n with
      blockService := blockService
      toBlock := rest } : LiveNode W).post out).Pending o → blockToExecute o = some block' →
      ¬ AtNext (some block) block'.data.height.toNat := by
    intro o block' ho hblock'
    rcases old o ho with ho | ho
    · exact blockToExecute_late (ordered.timely o ho) hnext hblock'
    · cases (plain o ho).2.symm.trans hblock'
  exact
    { keyed := h.keyed
      calm := fun underway => by
        exfalso
        cases underway with
        | pending ho hblock' next => exact executed _ _ ho hblock' next
        | taken htaken => cases taken.symm.trans htaken
        | @forked key forked hforked =>
          have : n.wasm.forksCollector.lookup key = some forked := hforked
          rw [forks] at this
          cases this
        | announced hblock' =>
          rw [LiveNode.announced, LiveNode.post, toBlock, List.append_nil, none] at hblock'
          cases hblock'
      single := by
        rw [LiveNode.post, toTransactions, List.filterMap_append,
          List.filterMap_eq_nil_iff.mpr calm]
        exact le_rfl
      listed := fun m hm => by
        rw [LiveNode.post, toTransactions, toBlock, List.append_nil] at hm
        apply h.listed m
        rw [heq]
        simpa using hm
      executing := fun block' round txs ho next => absurd next (executed _ _ ho rfl)
      taken := fun _ htaken => by cases taken.symm.trans htaken
      forks := fun key forked hforked => by
        have : n.wasm.forksCollector.lookup key = some forked := hforked
        rw [forks] at this
        cases this
      started := fun before m after hsplit starts => by
        have behind : rest = before ++ m :: after := by
          rw [← hsplit, LiveNode.post, toBlock, List.append_nil]
        have split : n.toBlock =
            (.blockConsolidated block txsHashes players :: before) ++ m :: after := by
          rw [heq, behind, List.cons_append]
        rw [LiveNode.post, toTransactions, List.append_assoc]
        exact h.started _ m after split starts
      due := fun o height ho hheight next => by
        rcases old o ho with ho | ho
        · exact absurd next (heightToBuild_late (ordered.timely o ho) hnext hheight)
        · cases (plain o ho).1.symm.trans hheight }

end BlockService

end Services

/-! ## The wasm service -/

section Wasm

variable [Primitives] [NodeCodec] {n n' : LiveNode W} {tip : Option Block}
  {out : List NodeOutput} {o : NodeOutput} {msg : NodeMsg}

/-- A block is announced while no consolidation is on its way to the transaction service. -/
theorem Supplied.announce (h : Supplied n tip) {block : Block} {txsHashes : List Hash}
    {players : Players} (calm : ∀ msg ∈ n.toTransactions, consolidatedBlock msg = none)
    (listed : ∀ hash ∈ txsHashes, hash ∈ n.transactionService.unconfirmedPool ∨
      ∀ tx : Transaction, tx.getHash ≠ hash) :
    Supplied (n.post [.msg .blockService (.blockConsolidated block txsHashes players)]) tip := by
  have transactions : (n.post
      [.msg .blockService (.blockConsolidated block txsHashes players)]).toTransactions =
      n.toTransactions := List.append_nil _
  have plain : ∀ o ∈ ([.msg .blockService (.blockConsolidated block txsHashes players)] :
      List NodeOutput), heightToBuild o = none ∧ blockToExecute o = none := by
    simp [heightToBuild, blockToExecute]
  exact
    { keyed := h.keyed
      calm := fun _ => by rwa [transactions]
      single := by
        rw [transactions]
        exact h.single
      listed := fun m hm => by
        rw [transactions] at hm
        rcases List.mem_append.mp hm with hm | hm
        · exact h.listed m (List.mem_append_left _ hm)
        · rcases List.mem_append.mp hm with hm | hm
          · exact h.listed m (List.mem_append_right _ hm)
          · obtain rfl := List.mem_singleton.mp hm
            exact listed
      executing := fun block' round txs ho => by
        rcases pending_post ho with ho | ho
        · exact h.executing block' round txs ho
        · cases (plain _ ho).2
      taken := h.taken
      forks := h.forks
      started := fun before m after hsplit starts => by
        rw [transactions]
        rcases split_append hsplit with ⟨rest, hsplit⟩ | ⟨between, -, hsent⟩
        · exact h.started before m rest hsplit starts
        · have sent : m ∈ [Msg.blockConsolidated block txsHashes players] := by
            rw [show [Msg.blockConsolidated block txsHashes players] = between ++ m :: after from
              hsent]
            simp
          obtain rfl := List.mem_singleton.mp sent
          exact starts.elim
      due := fun o height ho hheight next => by
        rw [transactions]
        rcases pending_post ho with ho | ho
        · exact h.due o height ho hheight next
        · cases (plain o ho).1.symm.trans hheight }

/-- A node that has nothing to do and no transactions. -/
theorem supplied_of_empty (pool : n.transactionService.unconfirmedPool = ∅)
    (toTransactions : n.toTransactions = []) (toBlock : n.toBlock = [])
    (pending : ∀ o, ¬ n.Pending o) (taken : n.taken = none)
    (forks : n.wasm.forksCollector = ∅) : Supplied n tip where
  keyed hash entry hentry := by
    rw [pool] at hentry
    cases hentry
  calm _ m hm := by
    rw [toTransactions] at hm
    cases hm
  single := by
    rw [toTransactions]
    exact Nat.zero_le 1
  listed m hm := by
    rw [toTransactions, toBlock] at hm
    cases hm
  executing _ _ _ ho := absurd ho (pending _)
  taken _ htaken := by cases taken.symm.trans htaken
  forks key forked hforked := by
    rw [forks] at hforked
    cases hforked
  started before m after hsplit := by
    rw [toBlock] at hsplit
    simp at hsplit
  due _ _ ho := absurd ho (pending _)

section Executions

variable [Serialize BlockData] {index : Nat} {block : Block} {round : UInt8}
  {txs : List Transaction}

theorem Supplied.begin (h : Supplied n tip) (ordered : Ordered n tip)
    (thread : .msg .nodeInterface (.executeBlock block round txs) ∈ n.threads)
    (absent : n.wasm.db.loadBlock block.data.height = none) :
    Supplied { n with
      threads := n.threads.eraseIdx index
      toConsensus := n.toConsensus ++ [.getLeader]
      taken := some ⟨block, round, txs, none⟩ } tip := by
  obtain ⟨b, hb, follows⟩ : ∃ b, tip = some b ∧ Follows b block :=
    ordered.timely _ (.thread thread)
  have upTo : UpToNext tip block.data.height :=
    ⟨b, hb, by rcases follows.height with h | ⟨h, -⟩ <;> omega⟩
  obtain ⟨b', hb', -, -, -, next, -⟩ := ordered.settled_of_absent upTo absent
  have atNext : AtNext tip block.data.height.toNat := ⟨b', hb', next⟩
  refine h.continues
    { pool := rfl
      transactions := rfl
      block := List.suffix_rfl
      pending := fun o ho => ho.mono (fun _ h => by simpa using h) (fun _ h => h) (fun _ h => h)
        List.eraseIdx_subset
      taken := fun taken htaken => ?_
      forks := fun key forked hforked => ⟨.forked hforked, h.forks key forked hforked⟩ }
  cases htaken
  exact ⟨.pending (.thread thread) rfl atNext, h.executing block round txs (.thread thread) atNext⟩

variable [Merkle] [Wm W]

omit [Serialize BlockData] in
/-- A fork lists the transactions it executed. -/
theorem forkAfter_executed {s : WasmService W} {expectedLeader : Option String} {roots : Roots}
    (h : StatefulSteps.result (s.config.executeInFork block txs expectedLeader) s.begin = .ok roots) :
    (forkAfter s block txs expectedLeader).executed = txs.map Transaction.getHash :=
  (s.config.executeInFork_executes block txs expectedLeader s.begin roots h).executed

theorem Supplied.finish [Pcg32] (h : Supplied n tip) (ordered : Ordered n tip) {leader : String}
    {wasm : WasmService W} (htaken : n.taken = some ⟨block, round, txs, some leader⟩)
    (hwasm : n.wasm.handle (.executeBlock block round txs (some leader)) = .ok (wasm, out)) :
    Supplied (({ n with
      taken := none
      wasm := wasm } : LiveNode W).post out) tip := by
  have positive : 0 < block.data.height := (ordered.taken _ htaken).positive
  have held := h.taken _ htaken
  have forks : ∀ key forked, wasm.forksCollector.lookup key = some forked → Underway n tip ∧
      ∀ hash ∈ forked.executed, hash ∈ n.transactionService.unconfirmedPool := by
    intro key forked hforked
    refine ⟨.taken htaken, ?_⟩
    cases executeBlock_step positive hwasm with
    | dropped _ => exact h.forks key forked hforked
    | @kept _ _ given roots _ _ hroots _ _ _ =>
      by_cases hkey : key = given.getHash
      · subst hkey
        have inserted : (n.wasm.forksCollector.insert given.getHash
            (forkAfter n.wasm block txs (some leader))).lookup given.getHash = some forked := hforked
        rw [AList.lookup_insert] at inserted
        cases inserted
        rw [forkAfter_executed hroots, List.forall_mem_map]
        exact held
      · have inserted : (n.wasm.forksCollector.insert given.getHash
            (forkAfter n.wasm block txs (some leader))).lookup key = some forked := hforked
        rw [AList.lookup_insert_ne hkey] at inserted
        exact h.forks key forked inserted
  have continues : Continues n { n with
      taken := none
      wasm := wasm } tip :=
    { pool := rfl
      transactions := rfl
      block := List.suffix_rfl
      pending := fun o ho => ho.mono (fun _ h => h) (fun _ h => h) (fun _ h => h) fun _ h => h
      taken := fun _ htaken => by cases htaken
      forks := forks }
  refine (h.continues continues).post fun o ho => ?_
  cases executeBlock_step positive hwasm with
  | dropped _ => cases ho
  | kept _ _ _ _ sent =>
    rcases sent with rfl | rfl
    · obtain rfl := List.mem_singleton.mp ho
      intro height hheight
      cases hheight
    · obtain rfl := List.mem_singleton.mp ho
      intro height hheight
      cases hheight

omit [Merkle] [Wm W] in
theorem Supplied.consolidate (h : Supplied n tip) {confirmations : List Confirmation}
    {txsHashes : List Hash} {wasm : WasmService W} (idle : n.taken = none)
    (hwasm : n.wasm.consolidateBlock block confirmations txsHashes = .ok (wasm, out))
    (executed : ∀ forked, n.wasm.forksCollector.lookup block.getHash = some forked →
      txsHashes ⊆ forked.executed) :
    Supplied (({ n with
      threads := n.threads.eraseIdx index
      wasm := wasm } : LiveNode W).post out) tip := by
  obtain ⟨forked, players, hforked, rfl, rfl, -⟩ := WasmService.consolidateBlock_ok hwasm
  have continues : Continues n { n with
      threads := n.threads.eraseIdx index
      wasm :=
        { n.wasm with
          db := forked.fork.working.storeBlock block confirmations
          forksCollector := ∅
          executed := n.wasm.executed ++ forked.executed
          ran := n.wasm.ran ++ forked.ran } } tip :=
    { pool := rfl
      transactions := rfl
      block := List.suffix_rfl
      pending := fun o ho => ho.mono (fun _ h => h) (fun _ h => h) (fun _ h => h)
        List.eraseIdx_subset
      taken := fun _ htaken => by cases idle.symm.trans htaken
      forks := fun _ _ hforked => by cases hforked }
  refine (h.continues continues).announce (h.calm (.forked hforked)) fun hash hhash => ?_
  exact .inl (h.forks _ _ hforked hash (executed forked hforked hhash))

end Executions

end Wasm

/-! ## Every run -/

section Runs

variable [Primitives] [Serialize BlockData] [Serialize ConfirmationData] [NodeCodec] [Merkle]
  [Pcg32] [Wm W] {n n' : LiveNode W} {tip : Option Block} {input : LiveInput W}
  {out : List NodeOutput}

/-- The hashes under which the genesis block lists its transactions are no hashes of
transactions. -/
def ListedApart : Prop :=
  ∀ tx tx' : Transaction, Hash.primary (rmpSerialize tx) ≠ tx'.getHash

/-- A consolidation takes from the pool what was executed for the block. -/
def RemovesExecuted (e : LiveEvent W) : Prop :=
  ∀ index block confirmations txsHashes forked, e.input = .pass index →
    e.before.threads[index]? =
      some (.msg .nodeInterface (.startBlockConsolidation block confirmations txsHashes)) →
    e.before.wasm.forksCollector.lookup block.getHash = some forked →
    txsHashes ⊆ forked.executed

/-- The transaction that the pool lists last fits into a block that is built. -/
def LastFits (e : LiveEvent W) : Prop :=
  ∀ env msg listed last, e.input = .block env → takenByBlock e = some msg →
    BlockService.BuildsOn e.before.blockService msg → env.builtFrom = .answer listed →
    listed.getLast? = some last → last.2 < blockMaxSizeBytes - blockBaseSizeBytes

/-- A block that is built is handed on with at least one transaction. -/
def BuildsTxs (e : LiveEvent W) : Prop :=
  ∀ msg block round hashes, takenByBlock e = some msg →
    BlockService.BuildsOn e.before.blockService msg →
    .msg .transactionService (.collectBlockTxs block round hashes) ∈ e.out → hashes ≠ []

/-- Every step keeps the invariant. -/
theorem Supplied.step (h : Supplied n tip) (ordered : Ordered n tip)
    (step : LiveStep n input out n') (executed : RemovesExecuted ⟨n, input, out, n'⟩) :
    Supplied n' (tipAfter tip ⟨n, input, out, n'⟩) := by
  have heldTaken : ∀ taken, n.taken = some taken → Underway n tip ∧
      ∀ tx ∈ taken.txs, tx.getHash ∈ n.transactionService.unconfirmedPool :=
    fun taken htaken => ⟨.taken htaken, h.taken taken htaken⟩
  have heldForks : ∀ key forked, n.wasm.forksCollector.lookup key = some forked →
      Underway n tip ∧ ∀ hash ∈ forked.executed, hash ∈ n.transactionService.unconfirmedPool :=
    fun key forked hforked => ⟨.forked hforked, h.forks key forked hforked⟩
  have thin : ∀ index, Supplied { n with threads := n.threads.eraseIdx index } tip := by
    intro index
    refine h.continues ⟨rfl, rfl, List.suffix_rfl, fun o ho => ?_, heldTaken, heldForks⟩
    exact ho.mono (fun _ h => h) (fun _ h => h) (fun _ h => h) List.eraseIdx_subset
  cases step with
  | @consensus env msg rest core out heq hcore =>
    have taken : Supplied { n with
        consensus := core.consensus
        wasm := { n.wasm with drand := core.seed }
        toConsensus := rest } tip := by
      refine h.continues ⟨rfl, rfl, List.suffix_rfl, fun o ho => ?_, heldTaken, heldForks⟩
      exact ho.mono (fun _ h => heq ▸ List.mem_cons_of_mem _ h) (fun _ h => h) (fun _ h => h)
        fun _ h => h
    have sends := ConsensusService.handleMessages_sends (Drawing.handleMessages_ok hcore).1
    exact taken.post fun o ho => consensus_allowed (sends o ho) fun height =>
      h.due _ height (.consensus (heq ▸ List.mem_cons_self))
  | leader heq =>
    refine h.continues ⟨rfl, rfl, List.suffix_rfl, fun o ho => ?_, ?_, heldForks⟩
    · exact ho.mono (fun _ h => heq ▸ List.mem_cons_of_mem _ h) (fun _ h => h) (fun _ h => h)
        fun _ h => h
    · intro taken htaken
      obtain ⟨asked, hasked, rfl⟩ := Option.map_eq_some_iff.mp htaken
      exact heldTaken asked hasked
  | @block env msg rest blockService out heq hblock honest =>
    cases hmsg : consolidatedBlock msg with
    | none =>
      obtain ⟨b, rfl⟩ := ordered.exists_tip heq hmsg
      simp only [tipAfter, isRestart, takenByBlock, heq, Option.bind_some, hmsg]
      exact h.takeOther ordered heq hblock honest hmsg
    | some b =>
      simp only [tipAfter, isRestart, takenByBlock, heq, Option.bind_some, hmsg]
      cases msg <;> cases hmsg
      exact h.takeAnnouncement ordered heq hblock
  | transactions heq hpool =>
    exact h.takeTransactions heq (TransactionService.handleMessages_pool hpool)
  | begins thread _ absent => exact h.begin ordered thread absent
  | consolidates thread idle hwasm =>
    exact h.consolidate idle hwasm fun forked => executed _ _ _ _ forked rfl thread
  | @verifies index _ _ thread _ =>
    have due := fun height => h.due _ height (.thread thread)
    refine (thin index).post fun o ho => ?_
    obtain rfl := List.mem_singleton.mp ho
    exact due
  | @elects index _ _ thread =>
    have due := fun height => h.due _ height (.thread thread)
    refine (thin index).post ?_
    rw [List.forall_mem_cons, List.forall_mem_singleton]
    exact ⟨due, due⟩
  | @waits index height thread =>
    refine (thin index).post fun o ho => ?_
    obtain rfl := List.mem_singleton.mp ho
    rintro next hnext ⟨b, hb, rfl⟩
    refine h.due _ _ (.thread thread) rfl ⟨b, hb, ?_⟩
    -- past the largest height the sum is zero, and no block is at zero
    have sum : (height.toNat + 1) % 2 ^ 64 = b.data.height.toNat + 1 := by
      rw [← Option.some.inj hnext]
      exact (UInt64.toNat_add height 1).symm
    have bound := height.toNat_lt
    omega
  | @times index _ thread =>
    have due := fun height => h.due _ height (.thread thread)
    refine (thin index).post fun o ho => ?_
    obtain rfl := List.mem_singleton.mp ho
    exact due
  | passes => exact thin _
  | finishes htaken hwasm => exact h.finish ordered htaken hwasm
  | enters entry entering =>
    have same : tipAfter tip ⟨n, input, out, n.post out⟩ = tip := by
      cases input <;> first | rfl | cases entry
    rw [same]
    exact h.post fun o ho => enters_allowed (entering o ho)
  | restarts hrestart =>
    obtain ⟨block, core, config, -, -, rfl⟩ := restart_ok hrestart
    refine supplied_of_empty rfl rfl rfl (fun o ho => ?_) rfl rfl
    cases ho with
    | consensus ho => cases ho
    | block ho => cases ho
    | transactions ho => cases ho
    | thread ho => cases ho

omit [Serialize ConfirmationData] in
theorem supplied_of_started (apart : ListedApart) (h : Started n) : Supplied n none := by
  obtain ⟨hstart⟩ := h
  obtain ⟨core, wasm, out, named, -, -, hwasm, sent, rfl⟩ := bootstrap_ok hstart
  obtain ⟨given, players, -, -, forks, -, rfl⟩ :=
    executeGenesisBlock_ok rfl (UInt64.lt_irrefl 0) named hwasm sent
  refine (supplied_of_empty rfl rfl rfl (fun o ho => ?_) rfl forks).announce
    (fun _ hm => nomatch hm) fun hash hhash => .inr fun tx => ?_
  · cases ho with
    | consensus ho => cases ho
    | block ho => cases ho
    | transactions ho => cases ho
    | thread ho => cases ho
  · obtain ⟨listed, -, rfl⟩ := List.mem_map.mp hhash
    exact (apart listed tx).symm

omit [Serialize BlockData] [Serialize ConfirmationData] [Merkle] [Pcg32] [Wm W] in
/-- The transaction that is left is listed in the answer that a block is built from. -/
theorem listed_of_stays {env : BlockEnv Hash Block Confirmation Transaction} {msg : NodeMsg}
    {listed : List (Hash × Nat)} (stays : Stays n.transactionService n.toTransactions)
    (honest : n.answers msg env out = true) (asked : out.any collects = true)
    (hlisted : env.builtFrom = .answer listed) : listed ≠ [] := by
  obtain ⟨hash, pooled, -⟩ := stays
  simp only [answers, asked, hlisted, Bool.not_true, Bool.false_or, Bool.and_eq_true,
    decide_eq_true_eq] at honest
  have perm : listed.Perm n.poolList := honest.1.2
  rintro rfl
  have empty : n.poolList = [] := perm.nil_eq.symm
  obtain ⟨entry, hentry, -⟩ := List.mem_map.mp (AList.mem_keys.mp pooled)
  have : (entry.1, entry.2.2.1) ∈ n.poolList := List.mem_map_of_mem hentry
  rw [empty] at this
  cases this

theorem Supplied.buildsTxs (h : Supplied n tip) (ordered : Ordered n tip)
    (step : LiveStep n input out n') (fits : LastFits ⟨n, input, out, n'⟩) :
    BuildsTxs ⟨n, input, out, n'⟩ := by
  intro msg block round hashes taken builds asked
  cases step with
  | @block env msg' rest blockService out heq hblock honest =>
    obtain rfl : msg' = msg := by simpa [takenByBlock, heq] using taken
    have other : consolidatedBlock msg' = none := by
      cases msg' <;> first | rfl | exact builds.elim
    obtain ⟨b, rfl⟩ := ordered.exists_tip heq other
    have stays := h.builds ordered heq builds
    have collects : out.any collects = true := List.any_eq_true.mpr ⟨_, asked, rfl⟩
    obtain ⟨listed, hlisted, rfl, -⟩ := BlockService.built_collects
      (BlockService.handleMessages_step hblock) builds asked
    have some := listed_of_stays stays honest collects hlisted
    exact BlockService.chosen_ne_nil (List.getLast?_eq_some_getLast some)
      (fits env msg' listed _ rfl taken builds hlisted (List.getLast?_eq_some_getLast some))
  | enters entry _ => cases input <;> first | cases taken | cases entry
  | _ => cases taken

/-- Over every run in which the last transaction of the pool fits whenever a block is built, and
consolidations remove what was executed, every block that is built has a transaction. -/
theorem run_buildsTxs {start : LiveNode W} {trace : List (LiveEvent W)} (hashed : HeightsHashed)
    (apart : ListedApart) (started : Started start) (run : Run (Computes handle) start trace n)
    (executed : Along (fun _ e => RemovesExecuted e) trace)
    (fits : Along (fun _ e => LastFits e) trace) : Along (fun _ e => BuildsTxs e) trace := by
  refine run.along (fun _ n => ∃ tip, Ordered n tip ∧ Supplied n tip)
    ⟨none, ordered_of_started started, supplied_of_started apart started⟩ ?_ ?_ (executed.and fits)
  · rintro _ n input out n' ⟨tip, ordered, supplied⟩ hstep ⟨executed, -⟩
    have step := handle_step hstep
    exact ⟨_, ordered.step hashed step, supplied.step ordered step executed⟩
  · rintro _ n input out n' ⟨tip, ordered, supplied⟩ hstep ⟨-, fits⟩
    exact supplied.buildsTxs ordered (handle_step hstep) fits

end Runs

end LiveNode

namespace Sample.Duo

open LiveNode

/-- The digest of the examples begins with the first byte of what it is made of. -/
theorem primary_head (first : UInt8) (rest : Bytes) :
    (Hash.primary (first :: rest)).bytes[2]? = some first := rfl

/-- The encodings of a transaction and of its data begin with different bytes. -/
theorem listedApart : ListedApart := by
  intro tx tx' h
  have head : ∃ first ≥ (6 : UInt8), (Hash.primary (rmpSerialize tx)).bytes[2]? = some first := by
    cases tx with
    | unitTransaction tx => exact ⟨6, by decide, rfl⟩
    | bulkTransaction tx => exact ⟨7, by decide, rfl⟩
  have head' : ∃ first ≤ (5 : UInt8), tx'.getHash.bytes[2]? = some first := by
    rw [Transaction.getHash]
    generalize tx'.data = data
    cases data with
    | v1 txData => exact ⟨1, by decide, rfl⟩
    | bulkNodeV1 txData => exact ⟨2, by decide, rfl⟩
    | bulkRootV1 txData => exact ⟨3, by decide, rfl⟩
    | bulkV1 txData =>
      obtain ⟨⟨⟨root⟩, nodes⟩⟩ := txData
      refine ⟨4, by decide, ?_⟩
      exact primary_head 4 _
    | bulkEmptyRoot txData => exact ⟨5, by decide, rfl⟩
  obtain ⟨first, large, hfirst⟩ := head
  obtain ⟨first', small, hfirst'⟩ := head'
  rw [h, hfirst'] at hfirst
  cases hfirst
  exact absurd (UInt8.le_trans large small : (6 : UInt8) ≤ 5) (by decide)

/-- A call whose arguments fill a block. -/
def bigTx : Transaction :=
  .unitTransaction (signed (keypair 1)
    (.v1 { request 2 (keypair 1).publicKey with args := List.replicate 1048461 0 }))

theorem addTx_bigTx : Node.addTx bigTx = .msg .transactionService (.addTx bigTx 1048465 none) := by
  have size : (rmpSerialize bigTx).length = 1048461 + 4 := by
    change (6 :: 1 :: 1 :: [2] ++ List.replicate 1048461 (0 : UInt8)).length = _
    rw [List.length_append, List.length_replicate]
    rfl
  rw [Node.addTx, size]
  rfl

/-- The answers to a leader whose pool lists the large transaction. -/
def bigEnv : BlockEnv Hash Block Confirmation Transaction :=
  { leaderEnv [] with
    builtFrom := .answer [(bigTx.getHash, 1048465)]
    unconfirmedHashes := .answer [(bigTx.getHash, 1048465)] }

/-- The large transaction arrives, and bob builds a block once its timer has run out. -/
def buildsFrom (arrival : NodeOutput) : List (LiveInput Willing) :=
  takeGenesis ++ [.arrive arrival, .transactions fun _ => 0, .block blockEnv, .pass 0, .block bigEnv]

/-- Whether a block is built at the time for one and handed on, with transactions or without. -/
def buildsAtTimeout (empty : Bool) (e : LiveEvent Willing) : Bool :=
  match takenByBlock e with
  | some (.buildBlockTimeout height) =>
    decide (height = e.before.blockService.height) && e.out.any fun o =>
      match o with
      | .msg .transactionService (.collectBlockTxs _ _ hashes) => hashes.isEmpty == empty
      | _ => false
  | _ => false

/-- One large transaction is enough for an empty block. -/
theorem large_tx_empties_block : ∃ start trace n, Started start ∧
    Run (Computes handle) start trace (n : LiveNode Willing) ∧
    trace.map Event.input = buildsFrom (Node.addTx bigTx) ∧
    ¬ Along (fun _ e => BuildsTxs e) trace := by
  obtain ⟨start, trace, n, started, run, check, inputs⟩ := exists_run 2
    (buildsFrom (.msg .transactionService (.addTx bigTx 1048465 none)))
    (fun trace _ => trace.any (buildsAtTimeout true)) (by decide +kernel)
  refine ⟨start, trace, n, started, run, by rw [inputs, addTx_bigTx], fun builds => ?_⟩
  obtain ⟨e, he, hbuilds⟩ := List.any_eq_true.mp check
  unfold buildsAtTimeout at hbuilds
  split at hbuilds
  · next height taken =>
    rw [Bool.and_eq_true, decide_eq_true_eq, List.any_eq_true] at hbuilds
    obtain ⟨current, o, ho, empty⟩ := hbuilds
    split at empty
    · next block round hashes =>
      have some := along_iff_forall.mp builds e he _ block round hashes taken current ho
      exact some (List.isEmpty_iff.mp (by simpa using empty))
    · cases empty
  · cases hbuilds

/-- Whether no consolidation starts with the step. -/
def consolidatesNone (e : LiveEvent Willing) : Bool :=
  match e.input with
  | .pass index =>
    match e.before.threads[index]? with
    | some (.msg .nodeInterface (.startBlockConsolidation _ _ _)) => false
    | _ => true
  | _ => true

theorem removesExecuted_of_none {e : LiveEvent Willing} (h : consolidatesNone e = true) :
    RemovesExecuted e := by
  intro index block confirmations txsHashes forked hinput hthread
  rw [consolidatesNone, hinput] at h
  simp only [hthread] at h
  cases h

/-- A transaction of the usual size arrives, and bob builds a block from it. -/
def buildsSmall : List (LiveInput Willing) :=
  takeGenesis ++ enterPool 2 ++ [.block blockEnv, .pass 0, .block (leaderEnv [2])]

theorem lastFits_small {e : LiveEvent Willing} (hinput : e.input ∈ buildsSmall) : LastFits e := by
  intro env msg listed last henv _ _ hlisted hlast
  rw [henv] at hinput
  have answered : env = blockEnv ∨ env = leaderEnv [2] := by
    simpa [buildsSmall, takeGenesis, enterPool] using hinput
  rcases answered with rfl | rfl
  · cases hlisted
    cases hlast
  · cases hlisted
    cases hlast
    decide

/-- Bob builds blocks with transactions, and one is handed on. -/
theorem small_tx_built : ∃ start trace n, Started start ∧
    Run (Computes handle) start trace (n : LiveNode Willing) ∧
    Along (fun _ e => BuildsTxs e) trace ∧ trace.any (buildsAtTimeout false) = true := by
  obtain ⟨start, trace, n, started, run, check, inputs⟩ := exists_run 2 buildsSmall
    (fun trace _ => trace.all consolidatesNone && trace.any (buildsAtTimeout false))
    (by decide +kernel)
  rw [Bool.and_eq_true] at check
  have executed : Along (fun _ (e : LiveEvent Willing) => RemovesExecuted e) trace :=
    (along_of_all check.1).imp fun _ _ h => removesExecuted_of_none h
  have fits : Along (fun _ (e : LiveEvent Willing) => LastFits e) trace := by
    refine along_iff_forall.mpr fun e he => lastFits_small ?_
    rw [← inputs]
    exact List.mem_map_of_mem he
  exact ⟨start, trace, n, started, run,
    run_buildsTxs heightsHashed listedApart started run executed fits, check.2⟩

end Sample.Duo

end Trinci
