import Trinci.ExecutionFrames
import Trinci.LiveNode

/-!
# The heights of a running node

The height is kept by the database, by the block service and by the consensus service,
which learn of a new block one after the other. The invariant follows the block that the
block service is at: the database is at the same block, or one ahead with the
announcement on its way. Whatever a timer or a request carries was written when the
block service was at that block or before it. The consensus service is where the block
service is once it took the announcements in its channel.
-/

namespace Trinci

open StepMachines

variable {W : Type}

/-- The announced block, if any. -/
def consolidatedBlock : NodeMsg → Option Block
  | .blockConsolidated block _ _ => some block
  | _ => none

def ConsensusEntry.block? : ConsensusEntry → Option Block
  | .msg m => consolidatedBlock m
  | .getLeader => none

/-- Where the consensus service is once it took an entry. -/
def ConsensusEntry.heightFrom (height : UInt64) (entry : ConsensusEntry) : UInt64 :=
  match entry.block? with
  | some block => block.data.height
  | none => height

namespace LiveNode

/-! ## What may be on its way -/

section Timely

variable [Primitives] [Serialize BlockData]

/-- A block to execute on top of this one, or one that is too late. -/
structure Follows (tip block : Block) : Prop where
  positive : 0 < block.data.height
  height : block.data.height.toNat ≤ tip.data.height.toNat ∨
    block.data.height.toNat = tip.data.height.toNat + 1 ∧ block.data.prevHash = tip.getHash

def UpTo (tip : Option Block) (height : UInt64) : Prop :=
  ∃ b, tip = some b ∧ height.toNat ≤ b.data.height.toNat

def UpToNext (tip : Option Block) (height : UInt64) : Prop :=
  ∃ b, tip = some b ∧ height.toNat ≤ b.data.height.toNat + 1

/-- What may be on its way while the block service is at this block, or before the
genesis block. -/
def Timely (tip : Option Block) : NodeOutput → Prop
  | .msg .transactionService (.collectBlockTxs block _ _) => ∃ b, tip = some b ∧ Follows b block
  | .msg .nodeInterface (.executeBlock block _ _) => ∃ b, tip = some b ∧ Follows b block
  | .msg .nodeInterface (.verifyIfConsolidated height _) => UpToNext tip height
  | .msg .consensusService (.blockElectionFailed height _) => UpToNext tip height
  | .msg .consensusService (.confirmBuildBlockInPlaceOfLeader height _) => UpToNext tip height
  | .msg .blockService (.buildBlockInPlaceOfLeader height) => UpToNext tip height
  | .electionThread height _ => UpToNext tip height
  | .msg .blockService (.buildBlockTimeout height) => UpTo tip height
  | .buildBlockThread height => UpTo tip height
  | .leaderThread height => UpTo tip height
  | _ => True

/-- The block service goes on to the next block. -/
def Next (tip : Option Block) (next : Block) : Prop :=
  ∀ b, tip = some b → next.data.height.toNat = b.data.height.toNat + 1

variable {tip : Option Block} {next : Block} {o : NodeOutput} {height : UInt64}

omit [Primitives] [Serialize BlockData] in
theorem UpTo.advance (h : UpTo tip height) (hnext : Next tip next) : UpTo (some next) height := by
  obtain ⟨b, hb, hle⟩ := h
  have := hnext b hb
  exact ⟨next, rfl, by omega⟩

omit [Primitives] [Serialize BlockData] in
theorem UpToNext.advance (h : UpToNext tip height) (hnext : Next tip next) :
    UpToNext (some next) height := by
  obtain ⟨b, hb, hle⟩ := h
  have := hnext b hb
  exact ⟨next, rfl, by omega⟩

theorem follows_advance {block : Block} (h : ∃ b, tip = some b ∧ Follows b block)
    (hnext : Next tip next) : ∃ b, some next = some b ∧ Follows b block := by
  obtain ⟨b, hb, follows⟩ := h
  have later := hnext b hb
  refine ⟨next, rfl, follows.positive, .inl ?_⟩
  rcases follows.height with h | ⟨h, -⟩ <;> omega

theorem Timely.advance (h : Timely tip o) (hnext : Next tip next) : Timely (some next) o := by
  unfold Timely at h ⊢
  split
  · exact follows_advance h hnext
  · exact follows_advance h hnext
  · exact UpToNext.advance h hnext
  · exact UpToNext.advance h hnext
  · exact UpToNext.advance h hnext
  · exact UpToNext.advance h hnext
  · exact UpToNext.advance h hnext
  · exact UpTo.advance h hnext
  · exact UpTo.advance h hnext
  · exact UpTo.advance h hnext
  · trivial

end Timely

/-! ## The announcements -/

/-- The blocks that the block service has still to take. -/
def announced (n : LiveNode W) : List Block := n.toBlock.filterMap consolidatedBlock

def heightAfter (height : UInt64) (entries : List ConsensusEntry) : UInt64 :=
  entries.foldl ConsensusEntry.heightFrom height

/-- Every failed election in the channel is about the height after the one where the
consensus service is when it takes the message. -/
def Dated : UInt64 → List ConsensusEntry → Prop
  | _, [] => True
  | height, entry :: rest =>
    (∀ heightToBuild round, entry = .msg (.blockElectionFailed heightToBuild round) →
      heightToBuild = height + 1) ∧ Dated (entry.heightFrom height) rest

/-- Neither an announcement nor a failed election. -/
def Routine : NodeOutput → Prop
  | .msg .blockService (.blockConsolidated _ _ _) => False
  | .msg .consensusService (.blockConsolidated _ _ _) => False
  | .msg .consensusService (.blockElectionFailed _ _) => False
  | _ => True

section Announcements

variable {n : LiveNode W} {out : List NodeOutput} {height : UInt64}

theorem routine_entries (routine : ∀ o ∈ out, Routine o) :
    ∀ entry ∈ out.filterMap consensusEntry, ConsensusEntry.block? entry = none ∧
      ∀ height round, entry ≠ .msg (.blockElectionFailed height round) := by
  intro entry hentry
  cases entry with
  | getLeader => exact ⟨rfl, by simp⟩
  | msg msg =>
    have h := routine _ (mem_consensusEntry.mp hentry)
    constructor
    · cases msg <;> first | rfl | exact absurd h id
    · rintro height round ⟨⟩
      exact h

theorem announced_post (routine : ∀ o ∈ out, Routine o) : (n.post out).announced = n.announced := by
  have quiet : (out.filterMap (messageTo .blockService)).filterMap consolidatedBlock = [] := by
    rw [List.filterMap_eq_nil_iff]
    intro msg hmsg
    have h := routine _ (mem_messageTo.mp hmsg)
    cases msg <;> first | rfl | exact absurd h id
  rw [announced, post, List.filterMap_append, quiet, List.append_nil]
  rfl

theorem dated_append {xs ys : List ConsensusEntry} :
    Dated height (xs ++ ys) ↔ Dated height xs ∧ Dated (heightAfter height xs) ys := by
  induction xs generalizing height with
  | nil => simp [Dated, heightAfter]
  | cons entry xs ih => simp [Dated, heightAfter, ih, and_assoc]

theorem heightAfter_routine (routine : ∀ o ∈ out, Routine o) :
    heightAfter height (out.filterMap consensusEntry) = height := by
  have quiet := routine_entries routine
  generalize out.filterMap consensusEntry = entries at quiet ⊢
  induction entries with
  | nil => rfl
  | cons entry rest ih =>
    rw [List.forall_mem_cons] at quiet
    have same : entry.heightFrom height = height := by
      rw [ConsensusEntry.heightFrom, quiet.1.1]
    rw [heightAfter, List.foldl_cons, same]
    exact ih quiet.2

theorem dated_routine (routine : ∀ o ∈ out, Routine o) :
    Dated height (out.filterMap consensusEntry) := by
  have quiet := routine_entries routine
  generalize out.filterMap consensusEntry = entries at quiet ⊢
  induction entries generalizing height with
  | nil => trivial
  | cons entry rest ih =>
    rw [List.forall_mem_cons] at quiet
    exact ⟨fun _ _ failed => absurd failed (quiet.1.2 _ _), ih quiet.2⟩

end Announcements

/-! ## The invariant -/

section Invariant

variable [Primitives] [Serialize BlockData]

/-- The heights of blocks can be told from their hashes. -/
def HeightsHashed : Prop :=
  ∀ b b' : Block, b.getHash = b'.getHash → b.data.height = b'.data.height

/-- A block to execute on the last one of the database. -/
structure Extends (db : Db) (block : Block) : Prop where
  positive : 0 < block.data.height
  height : block.data.height.toNat = db.blocks.length
  room : block.data.height.toNat + 1 < 2 ^ 64
  prevHash : ∀ last, db.blocks.getLast? = some last → block.data.prevHash = last.getHash

/-- How far the database is ahead of the block service. -/
inductive Stage (n : LiveNode W) : Option Block → Prop
  | settled {tip : Block} :
      n.wasm.db.blocks.getLast? = some tip → n.announced = [] → Stage n (some tip)
  | due {before : List Block} {last : Block} :
      n.wasm.db.blocks = before ++ [last] → n.announced = [last] → n.taken = none →
      n.wasm.forksCollector = ∅ →
      (before = [] → n.toBlock.head?.bind consolidatedBlock = some last) →
      Stage n before.getLast?

omit [Primitives] [Serialize BlockData] in
/-- The entries of a list that grew by one. -/
theorem getElem?_concat_cases {α : Type} {xs : List α} {x y : α} {i : Nat}
    (h : (xs ++ [x])[i]? = some y) :
    i < xs.length ∧ xs[i]? = some y ∨ i = xs.length ∧ y = x := by
  rw [List.getElem?_append] at h
  split at h
  · next below => exact .inl ⟨below, h⟩
  · next above =>
    have last : i = xs.length := by
      have inside := (List.getElem?_eq_some_iff.mp h).1
      rw [List.length_singleton] at inside
      omega
    rw [last, Nat.sub_self, List.getElem?_cons_zero] at h
    exact .inr ⟨last, (Option.some.inj h).symm⟩

/-- The node while its block service is at this block, or before the first. -/
structure Ordered (n : LiveNode W) (tip : Option Block) : Prop where
  heights : ∀ (i : Nat) (b : Block), n.wasm.db.blocks[i]? = some b → b.data.height.toNat = i
  room : n.wasm.db.blocks.length < 2 ^ 64
  stage : Stage n tip
  located : ∀ b : Block, tip = some b → n.blockService.height = b.data.height ∧
    n.blockService.lastBlockHash = b.getHash
  timely : ∀ o, n.Pending o → Timely tip o
  taken : ∀ taken, n.taken = some taken → Extends n.wasm.db taken.block
  forks : ∀ key forked, n.wasm.forksCollector.lookup key = some forked →
    forked.fork.working.blocks = n.wasm.db.blocks ∧
      ∃ block : Block, block.getHash = key ∧ Extends n.wasm.db block
  dated : Dated n.consensus.height n.toConsensus
  reaches : ∀ b : Block, tip = some b →
    heightAfter n.consensus.height n.toConsensus = b.data.height

variable {n : LiveNode W} {tip : Option Block} {out : List NodeOutput}

/-- Whatever is sent besides the announcements and the failed elections keeps the order. -/
theorem Ordered.post (h : Ordered n tip) (sent : ∀ o ∈ out, Routine o ∧ Timely tip o) :
    Ordered (n.post out) tip where
  heights := h.heights
  room := h.room
  stage := by
    have same : (n.post out).announced = n.announced := announced_post fun o ho => (sent o ho).1
    cases h.stage with
    | settled last none => exact .settled last (same.trans none)
    | due blocks one taken forks first =>
      refine .due blocks (same.trans one) taken forks fun hbefore => ?_
      have hhead := first hbefore
      cases htoBlock : n.toBlock with
      | nil => simp [htoBlock] at hhead
      | cons msg rest =>
        rw [htoBlock] at hhead
        rw [LiveNode.post, htoBlock]
        exact hhead
  located := h.located
  timely o ho := (pending_post ho).elim (h.timely o) fun ho => (sent o ho).2
  taken := h.taken
  forks := h.forks
  dated := dated_append.mpr ⟨h.dated, dated_routine fun o ho => (sent o ho).1⟩
  reaches b hb := by
    have same : heightAfter n.consensus.height (n.post out).toConsensus =
        heightAfter n.consensus.height n.toConsensus := by
      rw [LiveNode.post, heightAfter, List.foldl_append]
      exact heightAfter_routine fun o ho => (sent o ho).1
    exact same.trans (h.reaches b hb)

omit [Primitives] [Serialize BlockData] in
/-- The stage depends on what is stored, announced and under way. -/
theorem Stage.congr {n' : LiveNode W} (h : Stage n tip) (db : n'.wasm.db = n.wasm.db)
    (forks : n'.wasm.forksCollector = n.wasm.forksCollector) (toBlock : n'.toBlock = n.toBlock)
    (taken : n'.taken = n.taken) : Stage n' tip := by
  have announced : n'.announced = n.announced :=
    congrArg (List.filterMap consolidatedBlock) toBlock
  cases h with
  | settled last none => exact .settled (db ▸ last) (announced.trans none)
  | due blocks one idle empty first =>
    exact .due (db ▸ blocks) (announced.trans one) (taken.trans idle) (forks.trans empty)
      (toBlock ▸ first)

theorem Ordered.takeTransactions (h : Ordered n tip) {msg : NodeMsg} {rest : List NodeMsg}
    {transactionService : TransactionService Hash Transaction}
    (heq : n.toTransactions = msg :: rest) : Ordered { n with
      transactionService := transactionService
      toTransactions := rest } tip where
  heights := h.heights
  room := h.room
  stage := h.stage.congr rfl rfl rfl rfl
  located := h.located
  timely o ho := h.timely o (ho.mono (fun _ h => h) (fun _ h => h)
    (fun _ h => heq ▸ List.mem_cons_of_mem _ h) fun _ h => h)
  taken := h.taken
  forks := h.forks
  dated := h.dated
  reaches := h.reaches

/-- A thread that is gone. -/
theorem Ordered.thin (h : Ordered n tip) (index : Nat) :
    Ordered { n with threads := n.threads.eraseIdx index } tip where
  heights := h.heights
  room := h.room
  stage := h.stage.congr rfl rfl rfl rfl
  located := h.located
  timely o ho := h.timely o
    (ho.mono (fun _ h => h) (fun _ h => h) (fun _ h => h) List.eraseIdx_subset)
  taken := h.taken
  forks := h.forks
  dated := h.dated
  reaches := h.reaches

end Invariant

/-! ## What the services send -/

section Sends

variable [Primitives] [Serialize BlockData] {tip : Option Block} {msg : NodeMsg} {o : NodeOutput}

theorem consensus_sends {s : ConsensusService Block Confirmation}
    (timely : Timely tip (.msg .consensusService msg)) (h : s.MaySend msg o) :
    Routine o ∧ Timely tip o := by
  unfold ConsensusService.MaySend at h
  split at h
  · exact ⟨trivial, trivial⟩
  · obtain ⟨round, rfl⟩ := h
    exact ⟨trivial, timely⟩
  · exact ⟨trivial, trivial⟩
  · exact ⟨trivial, trivial⟩
  · exact ⟨trivial, trivial⟩
  · exact ⟨trivial, trivial⟩
  · exact ⟨trivial, trivial⟩
  · exact ⟨trivial, by unfold Timely; split <;> first | trivial | simp_all⟩
  · exact ⟨trivial, trivial⟩
  · exact ⟨trivial, trivial⟩
  · subst h
    exact ⟨trivial, timely⟩
  · exact ⟨trivial, trivial⟩
  · exact h.elim

theorem transactions_send [NodeCodec] {s s' : TransactionService Hash Transaction}
    {out : List NodeOutput} (timely : Timely tip (.msg .transactionService msg))
    (h : TransactionService.PoolStep s msg s' out) (ho : o ∈ out) : Routine o ∧ Timely tip o := by
  rcases h.sends ho with (rfl | rfl) | ⟨_, _, _, _, rfl, rfl⟩ | ⟨_, rfl⟩
  · exact ⟨trivial, trivial⟩
  · exact ⟨trivial, trivial⟩
  · exact ⟨trivial, timely⟩
  · exact ⟨trivial, trivial⟩

theorem enters_send (h : Enters o) : Routine o ∧ Timely tip o := by
  rcases h with h | ⟨txs, rfl⟩
  · unfold arrives at h
    split at h
    · split at h <;> first | exact ⟨trivial, trivial⟩ | cases h
    · split at h <;> first | exact ⟨trivial, trivial⟩ | cases h
    · split at h <;> first | exact ⟨trivial, trivial⟩ | cases h
    · cases h
  · exact ⟨trivial, trivial⟩

section BlockService

open BlockService

variable [Serialize ConfirmationData] [NodeCodec] {s s' : BlockService}
  {env : BlockEnv Hash Block Confirmation Transaction} {out : List NodeOutput}

/-- The place of the block service. -/
structure At (s : BlockService) (tip : Block) : Prop where
  height : s.height = tip.data.height
  lastBlockHash : s.lastBlockHash = tip.getHash
  room : tip.data.height.toNat + 1 < 2 ^ 64

omit [Serialize ConfirmationData] [NodeCodec] in
theorem At.follows {block tip : Block} (located : At s tip) (height : block.data.height = s.height + 1)
    (prevHash : block.data.prevHash = s.lastBlockHash) : Follows tip block := by
  have room := located.room
  have next : block.data.height.toNat = tip.data.height.toNat + 1 := by
    rw [height, located.height, UInt64.toNat_add]
    exact Nat.mod_eq_of_lt room
  refine ⟨?_, .inr ⟨next, prevHash.trans located.lastBlockHash⟩⟩
  rw [UInt64.lt_iff_toNat_lt, next]
  exact Nat.succ_pos _

omit [Serialize ConfirmationData] in
theorem begun_sends {block tip : Block} {round : UInt8} {txsHashes : List Hash}
    (follows : Follows tip block) (h : Begun env block round txsHashes out) (ho : o ∈ out) :
    Routine o ∧ Timely (some tip) o := by
  have collect : Timely (some tip)
      (.msg .transactionService (.collectBlockTxs block round txsHashes)) :=
    ⟨tip, rfl, follows⟩
  cases h with
  | held _ _ =>
    obtain rfl := List.mem_singleton.mp ho
    exact ⟨trivial, collect⟩
  | supplied _ _ _ =>
    simp only [List.mem_cons, List.not_mem_nil, or_false] at ho
    rcases ho with rfl | rfl
    · exact ⟨trivial, trivial⟩
    · exact ⟨trivial, collect⟩

omit [Serialize ConfirmationData] in
theorem verified_sends {block tip : Block} {txsHashes : List Hash} (located : At s tip)
    (h : out = [] ∨ Verified env block txsHashes s out) (ho : o ∈ out) :
    Routine o ∧ Timely (some tip) o := by
  rcases h with rfl | h
  · cases ho
  · exact begun_sends (located.follows h.height h.prevHash) h.begun ho

/-- What the block service sends besides the announcement of a block. -/
theorem block_sends {tip : Block} (located : At s tip) (other : consolidatedBlock msg = none)
    (step : BlockStep env s msg s' out) (ho : o ∈ out) : Routine o ∧ Timely (some tip) o := by
  have upTo : UpTo (some tip) s.height := ⟨tip, rfl, by rw [located.height]⟩
  cases step with
  | consolidated => cases other
  | refreshed => cases ho
  | verified sent => exact verified_sends located sent ho
  | built _ sent timer =>
    rcases List.mem_append.mp ho with ho | ho
    · rcases sent with rfl | ⟨-, begun⟩
      · cases ho
      · exact begun_sends (located.follows rfl rfl) begun ho
    · rcases timer with rfl | rfl
      · cases ho
      · obtain rfl := List.mem_singleton.mp ho
        exact ⟨trivial, upTo⟩
  | retrieved sent _ =>
    rcases sent with rfl | ⟨-, verified⟩
    · cases ho
    · rcases List.mem_cons.mp ho with rfl | ho
      · exact ⟨trivial, trivial⟩
      · rcases List.mem_cons.mp ho with rfl | ho
        · exact ⟨trivial, trivial⟩
        · exact verified_sends located verified ho
  | aligned _ _ _ =>
    simp only [List.mem_cons, List.not_mem_nil, or_false] at ho
    rcases ho with rfl | rfl
    · exact ⟨trivial, trivial⟩
    · exact ⟨trivial, trivial⟩
  | ended => cases ho
  | timed =>
    obtain rfl := List.mem_singleton.mp ho
    exact ⟨trivial, upTo⟩
  | idle _ => cases ho

/-- The place of the block service changes with an announced block only. -/
theorem block_keeps (other : consolidatedBlock msg = none) (step : BlockStep env s msg s' out) :
    s'.height = s.height ∧ s'.lastBlockHash = s.lastBlockHash := by
  cases step with
  | consolidated => cases other
  | _ => exact ⟨rfl, rfl⟩

end BlockService

end Sends

/-! ## Every step keeps the order -/

section Steps

theorem getLast_height {blocks before rest : List Block} {b : Block}
    (heights : ∀ (i : Nat) (b : Block), blocks[i]? = some b → b.data.height.toNat = i)
    (split : blocks = before ++ rest) (last : before.getLast? = some b) :
    b.data.height.toNat + 1 = before.length := by
  obtain ⟨init, rfl⟩ := List.getLast?_eq_some_iff.mp last
  have here : blocks[init.length]? = some b := by
    rw [split]
    simp
  rw [heights _ _ here]
  simp

/-- A height without a block is at least the number of blocks. -/
theorem length_le_of_loadBlock {db : Db} {height : UInt64} (some : db.blocks ≠ [])
    (h : db.loadBlock height = none) :
    db.blocks.length ≤ height.toNat ∧ height.toNat + 1 < 2 ^ 64 := by
  unfold Db.loadBlock at h
  split at h
  · exact absurd (List.getLast?_eq_none_iff.mp h) some
  · next below =>
    refine ⟨List.getElem?_eq_none_iff.mp h, ?_⟩
    have bound := height.toNat_lt
    have other : height.toNat ≠ 2 ^ 64 - 1 := fun same => below (UInt64.toNat_inj.mp same)
    omega

variable [Primitives] [Serialize BlockData] {n n' : LiveNode W} {tip : Option Block}

theorem Ordered.at {b : Block} (h : Ordered n (some b)) : At n.blockService b := by
  obtain ⟨height, lastBlockHash⟩ := h.located b rfl
  refine ⟨height, lastBlockHash, ?_⟩
  have room := h.room
  generalize htip : some b = tip at h
  cases h.stage with
  | settled last _ =>
    cases htip
    have := getLast_height h.heights (List.append_nil _).symm last
    omega
  | due blocks _ _ _ _ =>
    have := getLast_height h.heights blocks htip.symm
    rw [blocks, List.length_append] at room
    omega

/-- What extends the database while the block service is at a block. -/
theorem Ordered.settled_of_absent (h : Ordered n tip) {height : UInt64} (upTo : UpToNext tip height)
    (absent : n.wasm.db.loadBlock height = none) :
    ∃ b, tip = some b ∧ n.wasm.db.blocks.getLast? = some b ∧ n.announced = [] ∧
      height.toNat = n.wasm.db.blocks.length ∧ height.toNat = b.data.height.toNat + 1 ∧
      height.toNat + 1 < 2 ^ 64 := by
  obtain ⟨b, rfl, upTo⟩ := upTo
  generalize htip : some b = tip at h
  cases h.stage with
  | settled last none =>
    cases htip
    have some : n.wasm.db.blocks ≠ [] := by
      intro empty
      simp [empty] at last
    have := getLast_height h.heights (List.append_nil _).symm last
    obtain ⟨above, room⟩ := length_le_of_loadBlock some absent
    exact ⟨b, rfl, last, none, by omega, by omega, room⟩
  | due blocks _ _ _ _ =>
    have := getLast_height h.heights blocks htip.symm
    obtain ⟨above, -⟩ := length_le_of_loadBlock (by simp [blocks]) absent
    rw [blocks, List.length_append, List.length_singleton] at above
    omega

section Consensus

variable [Serialize ConfirmationData] [Pcg32] {core : Drawing Block Confirmation} {env : Env}
  {msg : NodeMsg} {rest : List ConsensusEntry} {out : List NodeOutput}

theorem consensus_height {d : Drawing Block Confirmation}
    (h : Drawing.handleMessages env d msg = .ok (core, out)) :
    core.consensus.height = (ConsensusEntry.msg msg).heightFrom d.consensus.height := by
  obtain ⟨taken, -⟩ := Drawing.handleMessages_ok h
  by_cases consolidated : ∃ block txsHashes players, msg = .blockConsolidated block txsHashes players
  · obtain ⟨block, txsHashes, players, rfl⟩ := consolidated
    exact (ConsensusService.handleMessages_consolidated taken).1
  · have other : ∀ block txsHashes players, msg ≠ .blockConsolidated block txsHashes players :=
      fun block txsHashes players same => consolidated ⟨block, txsHashes, players, same⟩
    have none : (ConsensusEntry.msg msg).block? = none := by
      cases msg <;> first | rfl | exact absurd rfl (other _ _ _)
    rw [ConsensusEntry.heightFrom, none]
    exact (ConsensusService.handleMessages_keeps other taken).1

theorem Ordered.takeConsensus (h : Ordered n tip) (heq : n.toConsensus = .msg msg :: rest)
    (hcore : Drawing.handleMessages env ⟨n.consensus, n.wasm.drand⟩ msg = .ok (core, out)) :
    Ordered (({ n with
      consensus := core.consensus
      wasm := { n.wasm with drand := core.seed }
      toConsensus := rest } : LiveNode W).post out) tip := by
  have height := consensus_height hcore
  have dated := h.dated
  have reaches := h.reaches
  rw [heq] at dated reaches
  have taken : Ordered { n with
      consensus := core.consensus
      wasm := { n.wasm with drand := core.seed }
      toConsensus := rest } tip :=
    { heights := h.heights
      room := h.room
      stage := h.stage.congr rfl rfl rfl rfl
      located := h.located
      timely := fun o ho => h.timely o (ho.mono
        (fun _ h => heq ▸ List.mem_cons_of_mem _ h) (fun _ h => h) (fun _ h => h) fun _ h => h)
      taken := h.taken
      forks := h.forks
      dated := by
        rw [height]
        exact dated.2
      reaches := fun b hb => by
        rw [height]
        exact reaches b hb }
  have timely : Timely tip (.msg .consensusService msg) :=
    h.timely _ (.consensus (heq ▸ List.mem_cons_self))
  have sends := ConsensusService.handleMessages_sends (Drawing.handleMessages_ok hcore).1
  exact taken.post fun o ho => consensus_sends timely (sends o ho)

omit [Serialize ConfirmationData] [Pcg32] in
theorem Ordered.answerLeader (h : Ordered n tip) (heq : n.toConsensus = .getLeader :: rest) :
    Ordered { n with
      toConsensus := rest
      taken := n.taken.map fun taken => { taken with leader := some n.consensus.leader } } tip := by
  have dated := h.dated
  have reaches := h.reaches
  rw [heq] at dated reaches
  exact
    { heights := h.heights
      room := h.room
      stage := by
        cases h.stage with
        | settled last none => exact .settled last none
        | due blocks one taken forks first =>
          exact .due blocks one (by simp only [taken, Option.map_none]) forks first
      located := h.located
      timely := fun o ho => h.timely o (ho.mono
        (fun _ h => heq ▸ List.mem_cons_of_mem _ h) (fun _ h => h) (fun _ h => h) fun _ h => h)
      taken := fun taken htaken => by
        obtain ⟨before, hbefore, rfl⟩ := Option.map_eq_some_iff.mp htaken
        exact h.taken before hbefore
      forks := h.forks
      dated := dated.2
      reaches := reaches }

end Consensus

section Wasm

variable {index : Nat} {block : Block} {round : UInt8} {txs : List Transaction}

theorem Ordered.begin (h : Ordered n tip)
    (thread : .msg .nodeInterface (.executeBlock block round txs) ∈ n.threads)
    (absent : n.wasm.db.loadBlock block.data.height = none) :
    Ordered { n with
      threads := n.threads.eraseIdx index
      toConsensus := n.toConsensus ++ [.getLeader]
      taken := some ⟨block, round, txs, none⟩ } tip := by
  obtain ⟨b, hb, follows⟩ : ∃ b, tip = some b ∧ Follows b block := h.timely _ (.thread thread)
  have upTo : UpToNext tip block.data.height :=
    ⟨b, hb, by rcases follows.height with h | ⟨h, -⟩ <;> omega⟩
  obtain ⟨b', hb', last, none, length, next, room⟩ := h.settled_of_absent upTo absent
  obtain rfl : b' = b := Option.some.inj (hb'.symm.trans hb)
  have onTop : Extends n.wasm.db block :=
    { positive := follows.positive
      height := length
      room := room
      prevHash := fun last' hlast' => by
        obtain rfl : last' = b' := Option.some.inj (hlast'.symm.trans last)
        rcases follows.height with h | ⟨-, prevHash⟩
        · omega
        · exact prevHash }
  exact
    { heights := h.heights
      room := h.room
      stage := hb ▸ .settled last none
      located := h.located
      timely := fun o ho => h.timely o (ho.mono (fun _ h => by simpa using h) (fun _ h => h)
        (fun _ h => h) List.eraseIdx_subset)
      taken := fun taken htaken => by
        cases htaken
        exact onTop
      forks := h.forks
      dated := dated_append.mpr ⟨h.dated, by simp [Dated]⟩
      reaches := fun b hb => by
        rw [heightAfter, List.foldl_append]
        exact h.reaches b hb }

theorem Ordered.consolidate (hashed : HeightsHashed) (h : Ordered n tip)
    {confirmations : List Confirmation} {txsHashes : List Hash} {wasm : WasmService W}
    [NodeCodec] {out : List NodeOutput} (idle : n.taken = none)
    (hwasm : n.wasm.consolidateBlock block confirmations txsHashes = .ok (wasm, out)) :
    Ordered (({ n with
      threads := n.threads.eraseIdx index
      wasm := wasm } : LiveNode W).post out) tip := by
  obtain ⟨forked, players, hforked, rfl, rfl, -⟩ := WasmService.consolidateBlock_ok hwasm
  obtain ⟨blocks, given, same, onTop⟩ := h.forks _ _ hforked
  have height : block.data.height.toNat = n.wasm.db.blocks.length := by
    rw [← hashed _ _ same]
    exact onTop.height
  have room := onTop.room
  rw [onTop.height] at room
  have written : forked.fork.working.blocks ++ [block] = n.wasm.db.blocks ++ [block] := by
    rw [blocks]
  have heights : ∀ (i : Nat) (b : Block), (n.wasm.db.blocks ++ [block])[i]? = some b →
      b.data.height.toNat = i := by
    intro i b hb
    rcases getElem?_concat_cases hb with ⟨-, hb⟩ | ⟨rfl, rfl⟩
    · exact h.heights i b hb
    · exact height
  obtain ⟨b, hb, last, none⟩ : ∃ b, tip = some b ∧ n.wasm.db.blocks.getLast? = some b ∧
      n.announced = [] := by
    cases h.stage with
    | settled last none => exact ⟨_, rfl, last, none⟩
    | due _ _ _ forks _ =>
      rw [forks] at hforked
      cases hforked
  exact
    { heights := fun i b hb => heights i b (written ▸ hb)
      room := by
        change (forked.fork.working.blocks ++ [block]).length < 2 ^ 64
        rw [written, List.length_append]
        exact room
      stage := by
        have stage : Stage (({ n with
            threads := n.threads.eraseIdx index
            wasm := { n.wasm with
              db := forked.fork.working.storeBlock block confirmations
              forksCollector := ∅
              executed := n.wasm.executed ++ forked.executed
              ran := n.wasm.ran ++ forked.ran } } : LiveNode W).post
              [.msg .blockService (.blockConsolidated block txsHashes players)])
            n.wasm.db.blocks.getLast? := by
          refine .due written ?_ idle rfl fun empty => ?_
          · change (n.toBlock ++ _).filterMap consolidatedBlock = _
            rw [List.filterMap_append]
            change n.announced ++ [block] = [block]
            rw [none]
            rfl
          · rw [empty] at last
            cases last
        rwa [last, ← hb] at stage
      located := h.located
      timely := fun o ho => by
        rcases pending_post ho with ho | ho
        · exact h.timely o (ho.mono (fun _ h => h) (fun _ h => h) (fun _ h => h)
            List.eraseIdx_subset)
        · obtain rfl := List.mem_singleton.mp ho
          trivial
      taken := fun taken htaken => by
        have : n.taken = some taken := htaken
        rw [idle] at this
        cases this
      forks := fun key forked hforked => by
        cases hforked
      dated := by
        rw [LiveNode.post]
        exact dated_append.mpr ⟨h.dated, trivial⟩
      reaches := fun b hb => by
        rw [LiveNode.post]
        simp only [heightAfter, List.foldl_append]
        exact h.reaches b hb }

/-- An election fails for the height after the last one. -/
theorem Ordered.failElection (h : Ordered n tip) {height : UInt64} {round : UInt8}
    (thread : .msg .nodeInterface (.verifyIfConsolidated height round) ∈ n.threads)
    (absent : n.wasm.db.loadBlock height = none) :
    Ordered (({ n with threads := n.threads.eraseIdx index } : LiveNode W).post
      [.msg .consensusService (.blockElectionFailed height (round + 1))]) tip := by
  have upTo : UpToNext tip height := h.timely _ (.thread thread)
  obtain ⟨b, hb, last, none, -, next, room⟩ := h.settled_of_absent upTo absent
  have after : height = b.data.height + 1 := by
    rw [← UInt64.toNat_inj, UInt64.toNat_add, next]
    exact (Nat.mod_eq_of_lt (by rw [next] at room; exact Nat.lt_of_succ_lt room)).symm
  have thin := h.thin index
  exact
    { heights := h.heights
      room := h.room
      stage := by
        rw [hb]
        refine .settled last ?_
        change (n.toBlock ++ _).filterMap consolidatedBlock = []
        rw [List.filterMap_append]
        change n.announced ++ [] = []
        rw [none]
        rfl
      located := h.located
      timely := fun o ho => by
        rcases pending_post ho with ho | ho
        · exact thin.timely o ho
        · obtain rfl := List.mem_singleton.mp ho
          exact upTo
      taken := h.taken
      forks := h.forks
      dated := by
        refine dated_append.mpr ⟨h.dated, ?_, trivial⟩
        rintro heightToBuild round ⟨⟩
        change height = heightAfter n.consensus.height n.toConsensus + 1
        rw [h.reaches b hb, after]
      reaches := fun b hb => by
        rw [LiveNode.post]
        simp only [heightAfter, List.foldl_append]
        exact h.reaches b hb }

theorem Ordered.finish [NodeCodec] [Merkle] [Wm W] [Pcg32] (h : Ordered n tip) {leader : String}
    {wasm : WasmService W} {out : List NodeOutput}
    (htaken : n.taken = some ⟨block, round, txs, some leader⟩)
    (hwasm : n.wasm.handle (.executeBlock block round txs (some leader)) = .ok (wasm, out)) :
    Ordered (({ n with
      taken := none
      wasm := wasm } : LiveNode W).post out) tip := by
  have onTop : Extends n.wasm.db block := h.taken _ htaken
  obtain ⟨b, hb, last, announced⟩ : ∃ b, tip = some b ∧ n.wasm.db.blocks.getLast? = some b ∧
      n.announced = [] := by
    cases h.stage with
    | settled last none => exact ⟨_, rfl, last, none⟩
    | due _ _ taken _ _ =>
      rw [taken] at htaken
      cases htaken
  have executed : Ordered { n with
      taken := none
      wasm := wasm } tip ∧ ∀ o ∈ out, Routine o ∧ Timely tip o := by
    cases executeBlock_step onTop.positive hwasm with
    | dropped _ =>
      refine ⟨?_, by simp⟩
      exact
        { heights := h.heights
          room := h.room
          stage := hb ▸ .settled last announced
          located := h.located
          timely := fun o ho => h.timely o
            (ho.mono (fun _ h => h) (fun _ h => h) (fun _ h => h) fun _ h => h)
          taken := fun _ htaken => by cases htaken
          forks := h.forks
          dated := h.dated
          reaches := h.reaches }
    | @kept _ _ given roots _ _ _ height prevHash sent =>
      refine ⟨?_, ?_⟩
      · exact
          { heights := h.heights
            room := h.room
            stage := hb ▸ .settled last announced
            located := h.located
            timely := fun o ho => h.timely o
              (ho.mono (fun _ h => h) (fun _ h => h) (fun _ h => h) fun _ h => h)
            taken := fun _ htaken => by cases htaken
            forks := fun key forked hforked => by
              by_cases hkey : key = given.getHash
              · subst hkey
                have inserted : (n.wasm.forksCollector.insert given.getHash
                    (forkAfter n.wasm block txs (some leader))).lookup given.getHash =
                      some forked := hforked
                rw [AList.lookup_insert] at inserted
                cases inserted
                exact ⟨forkAfter_blocks, given, rfl, height ▸ onTop.positive,
                  by rw [height]; exact onTop.height, by rw [height]; exact onTop.room,
                  fun last hlast => prevHash.trans (onTop.prevHash last hlast)⟩
              · have inserted : (n.wasm.forksCollector.insert given.getHash
                    (forkAfter n.wasm block txs (some leader))).lookup key = some forked := hforked
                rw [AList.lookup_insert_ne hkey] at inserted
                exact h.forks key forked inserted
            dated := h.dated
            reaches := h.reaches }
      · rcases sent with rfl | rfl <;> simp [Routine, Timely]
  exact executed.1.post executed.2

end Wasm

section BlockService

variable [Serialize ConfirmationData] [NodeCodec] {env : BlockEnv Hash Block Confirmation Transaction}
  {msg : NodeMsg} {rest : List NodeMsg} {blockService : BlockService} {out : List NodeOutput}

omit [Serialize ConfirmationData] [NodeCodec] in
/-- The node when its block service comes to an announcement. -/
theorem Ordered.announcement (h : Ordered n tip) {block : Block} {txsHashes : List Hash}
    {players : Players} (heq : n.toBlock = .blockConsolidated block txsHashes players :: rest) :
    n.wasm.db.blocks.getLast? = some block ∧ Next tip block ∧
      rest.filterMap consolidatedBlock = [] ∧ n.taken = none ∧ n.wasm.forksCollector = ∅ := by
  have announced : n.announced = block :: rest.filterMap consolidatedBlock := by
    rw [LiveNode.announced, heq]
    rfl
  cases h.stage with
  | settled _ none =>
    rw [none] at announced
    cases announced
  | @due before last blocks one taken forks _ =>
    rw [one] at announced
    obtain ⟨rfl, none⟩ := List.cons.inj announced
    have newest : n.wasm.db.blocks.getLast? = some last := by
      rw [blocks, List.getLast?_concat]
    refine ⟨newest, fun b hb => ?_, none.symm, taken, forks⟩
    have lower := getLast_height h.heights blocks hb
    have upper := getLast_height h.heights (List.append_nil _).symm newest
    rw [blocks, List.length_append, List.length_singleton] at upper
    omega

/-- The block service takes an announcement: it goes on to that block. -/
theorem Ordered.takeAnnouncement (h : Ordered n tip) {block : Block} {txsHashes : List Hash}
    {players : Players} (heq : n.toBlock = .blockConsolidated block txsHashes players :: rest)
    (hblock : n.blockService.handleMessages env (.blockConsolidated block txsHashes players) =
      .ok (blockService, out)) :
    Ordered (({ n with
      blockService := blockService
      toBlock := rest } : LiveNode W).post out) (some block) := by
  obtain ⟨last, hnext, none, taken, forks⟩ := h.announcement heq
  obtain ⟨rfl, rfl⟩ := BlockService.handleMessages_announced hblock
  have entries : (((if n.blockService.alignmentSender then
        [.alignmentStep (Executable.getHeight block)] else []) ++
      [.msg .consensusService (.blockConsolidated block txsHashes players),
        .msg .transactionService (.blockConsolidated block txsHashes players)]) :
      List NodeOutput).filterMap consensusEntry =
      [.msg (.blockConsolidated block txsHashes players)] := by
    split <;> rfl
  exact
    { heights := h.heights
      room := h.room
      stage := by
        refine .settled last ?_
        change (rest ++ _).filterMap consolidatedBlock = []
        rw [List.filterMap_append, none, List.nil_append]
        split <;> rfl
      located := fun b hb => by
        cases hb
        exact ⟨rfl, rfl⟩
      timely := fun o ho => by
        rcases pending_post ho with ho | ho
        · exact (h.timely o (ho.mono (fun _ h => h) (fun _ h => heq ▸ List.mem_cons_of_mem _ h)
            (fun _ h => h) fun _ h => h)).advance hnext
        · rcases List.mem_append.mp ho with ho | ho
          · split at ho
            · obtain rfl := List.mem_singleton.mp ho
              trivial
            · cases ho
          · simp only [List.mem_cons, List.not_mem_nil, or_false] at ho
            rcases ho with rfl | rfl
            · trivial
            · trivial
      taken := fun t ht => by
        have : n.taken = some t := ht
        rw [taken] at this
        cases this
      forks := fun key forked hforked => by
        have : n.wasm.forksCollector.lookup key = some forked := hforked
        rw [forks] at this
        cases this
      dated := by
        refine dated_append.mpr ⟨h.dated, ?_⟩
        rw [entries]
        simp [Dated]
      reaches := fun b hb => by
        cases hb
        simp only [LiveNode.post, heightAfter, List.foldl_append, entries]
        rfl }

omit [Serialize ConfirmationData] [NodeCodec] in
/-- The block service takes the genesis block before anything else. -/
theorem Ordered.exists_tip (h : Ordered n tip) (heq : n.toBlock = msg :: rest)
    (other : consolidatedBlock msg = none) : ∃ b, tip = some b := by
  cases h.stage with
  | settled _ _ => exact ⟨_, rfl⟩
  | @due before last _ _ _ _ first =>
    cases hlast : before.getLast? with
    | some b => exact ⟨b, rfl⟩
    | none =>
      have head := first (List.getLast?_eq_none_iff.mp hlast)
      rw [heq, List.head?_cons, Option.bind_some, other] at head
      cases head

theorem Ordered.takeOther (h : Ordered n tip) (heq : n.toBlock = msg :: rest)
    (hblock : n.blockService.handleMessages env msg = .ok (blockService, out))
    (other : consolidatedBlock msg = none) :
    Ordered (({ n with
      blockService := blockService
      toBlock := rest } : LiveNode W).post out) tip := by
  have step := BlockService.handleMessages_step hblock
  have announced : n.announced =
      ({ n with
        blockService := blockService
        toBlock := rest } : LiveNode W).announced := by
    rw [LiveNode.announced, heq, List.filterMap_cons_none other]
    rfl
  obtain ⟨tip, rfl⟩ := h.exists_tip heq other
  have located := h.at
  have taken : Ordered { n with
      blockService := blockService
      toBlock := rest } (some tip) :=
    { heights := h.heights
      room := h.room
      stage := by
        generalize htip : some tip = at_ at h ⊢
        cases h.stage with
        | settled last none => exact .settled last (announced ▸ none)
        | due blocks one taken forks _ =>
          refine .due blocks (announced ▸ one) taken forks fun empty => ?_
          rw [empty] at htip
          cases htip
      located := fun b hb => by
        obtain ⟨height, lastBlockHash⟩ := block_keeps other step
        rw [height, lastBlockHash]
        exact h.located b hb
      timely := fun o ho => h.timely o (ho.mono (fun _ h => h)
        (fun _ h => heq ▸ List.mem_cons_of_mem _ h) (fun _ h => h) fun _ h => h)
      taken := h.taken
      forks := h.forks
      dated := h.dated
      reaches := h.reaches }
  exact taken.post fun o ho => block_sends located other step ho

end BlockService

section Runs

variable [Serialize ConfirmationData] [NodeCodec] [Merkle] [Pcg32] [Wm W]
  {input : LiveInput W} {out : List NodeOutput}

omit [Serialize ConfirmationData] [Merkle] [Wm W] in
theorem Ordered.restart (h : Ordered n tip) {wm : W} {env : Env}
    (hrestart : n.restart wm env = .ok n') : Ordered n' n.wasm.db.lastBlock? := by
  obtain ⟨block, core, config, hblock, hcore, rfl⟩ := restart_ok hrestart
  have last : n.wasm.db.blocks.getLast? = some block := hblock
  rw [hblock]
  exact
    { heights := h.heights
      room := h.room
      stage := .settled last rfl
      located := fun b hb => by
        cases hb
        exact ⟨rfl, rfl⟩
      timely := fun o ho => by
        cases ho with
        | consensus ho => cases ho
        | block ho => cases ho
        | transactions ho => cases ho
        | thread ho => cases ho
      taken := fun _ htaken => by cases htaken
      forks := fun _ _ hforked => by cases hforked
      dated := trivial
      reaches := fun b hb => by
        cases hb
        exact (Drawing.initCoreFromDb_height hcore).1 }

/-- Where the block service is after a step. -/
def tipAfter (tip : Option Block) (e : LiveEvent W) : Option Block :=
  if isRestart e.input then e.before.wasm.db.lastBlock?
  else ((takenByBlock e).bind consolidatedBlock).or tip

/-- Every step keeps the order. -/
theorem Ordered.step (hashed : HeightsHashed) (h : Ordered n tip)
    (step : LiveStep n input out n') : Ordered n' (tipAfter tip ⟨n, input, out, n'⟩) := by
  cases step with
  | consensus heq hcore => exact h.takeConsensus heq hcore
  | leader heq => exact h.answerLeader heq
  | @block env msg rest blockService out heq hblock _ =>
    cases hmsg : consolidatedBlock msg with
    | none =>
      simp only [tipAfter, isRestart, takenByBlock, heq, Option.bind_some, hmsg]
      exact h.takeOther heq hblock hmsg
    | some b =>
      simp only [tipAfter, isRestart, takenByBlock, heq, Option.bind_some, hmsg]
      cases msg <;> cases hmsg
      exact h.takeAnnouncement heq hblock
  | transactions heq hpool =>
    have sends := TransactionService.handleMessages_pool hpool
    have timely := h.timely _ (.transactions (heq ▸ List.mem_cons_self))
    exact (h.takeTransactions heq).post fun o ho => transactions_send timely sends ho
  | begins thread _ absent => exact h.begin thread absent
  | consolidates _ idle hwasm => exact h.consolidate hashed idle hwasm
  | verifies thread absent => exact h.failElection thread absent
  | elects thread =>
    have upTo : UpToNext tip _ := h.timely _ (.thread thread)
    refine (h.thin _).post ?_
    simp only [List.mem_cons, List.not_mem_nil, or_false]
    rintro o (rfl | rfl)
    · exact ⟨trivial, upTo⟩
    · exact ⟨trivial, upTo⟩
  | waits thread =>
    obtain ⟨b, hb, upTo⟩ : UpTo tip _ := h.timely _ (.thread thread)
    refine (h.thin _).post fun o ho => ?_
    obtain rfl := List.mem_singleton.mp ho
    refine ⟨trivial, b, hb, ?_⟩
    rw [UInt64.toNat_add]
    exact (Nat.mod_le _ _).trans (Nat.succ_le_succ upTo)
  | times thread =>
    have upTo : UpTo tip _ := h.timely _ (.thread thread)
    refine (h.thin _).post fun o ho => ?_
    obtain rfl := List.mem_singleton.mp ho
    exact ⟨trivial, upTo⟩
  | passes => exact h.thin _
  | finishes htaken hwasm => exact h.finish htaken hwasm
  | enters entry entering =>
    have same : tipAfter tip ⟨n, input, out, n.post out⟩ = tip := by
      cases input <;> first | rfl | cases entry
    rw [same]
    exact h.post fun o ho => enters_send (entering o ho)
  | restarts hrestart => exact h.restart hrestart

omit [Serialize ConfirmationData] in
/-- The first start, with the announcement of the genesis block on its way. -/
theorem ordered_of_started (h : Started n) : Ordered n none := by
  obtain ⟨hstart⟩ := h
  obtain ⟨core, wasm, out, named, -, -, hwasm, sent, rfl⟩ := bootstrap_ok hstart
  obtain ⟨given, players, height, blocks, forks, -, rfl⟩ :=
    executeGenesisBlock_ok rfl (UInt64.lt_irrefl 0) named hwasm sent
  have only : wasm.db.blocks = [given] := blocks
  exact
    { heights := fun i b hb => by
        have hb : [given][i]? = some b := only ▸ hb
        obtain ⟨hi, rfl⟩ := List.getElem?_eq_some_iff.mp hb
        obtain rfl : i = 0 := by simpa using hi
        change given.data.height.toNat = 0
        rw [height]
        rfl
      room := by
        change wasm.db.blocks.length < 2 ^ 64
        rw [only, List.length_singleton]
        decide
      stage :=
        show Stage _ ([] : List Block).getLast? from .due only rfl rfl forks fun _ => rfl
      located := fun _ hb => by cases hb
      timely := fun o ho => by
        cases ho with
        | consensus ho => cases ho
        | block ho =>
          obtain rfl := List.mem_singleton.mp ho
          trivial
        | transactions ho => cases ho
        | thread ho => cases ho
      taken := fun _ htaken => by cases htaken
      forks := fun key forked hforked => by
        have : wasm.forksCollector.lookup key = some forked := hforked
        rw [forks] at this
        cases this
      dated := trivial
      reaches := fun _ hb => by cases hb }

/-- Over every run the database, the block service and the consensus service follow each
other. -/
theorem run_ordered {start : LiveNode W}
    {trace : List (Event (LiveNode W) (LiveInput W) NodeOutput)} (hashed : HeightsHashed)
    (started : Started start) (run : Run (Computes handle) start trace n) :
    ∃ tip, Ordered n tip := by
  refine run.preserves (fun n => ∃ tip, Ordered n tip) ⟨none, ordered_of_started started⟩ ?_
  rintro n input out n' ⟨tip, ordered⟩ hstep
  exact ⟨_, ordered.step hashed (handle_step hstep)⟩

end Runs

end Steps

end LiveNode

namespace Sample.Duo

theorem length_digits (k n : Nat) : (digits k n).length = k := by
  induction k generalizing n with
  | zero => rfl
  | succ k ih => simp [digits, ih]

theorem digits_injective {k n n' : Nat} (small : n < 256 ^ k) (small' : n' < 256 ^ k)
    (h : digits k n = digits k n') : n = n' := by
  induction k generalizing n n' with
  | zero => omega
  | succ k ih =>
    obtain ⟨last, rest⟩ := List.cons.inj h
    have rest : n / 256 = n' / 256 := by
      apply ih _ _ rest
      · exact Nat.div_lt_of_lt_mul (by rwa [← Nat.pow_succ'])
      · exact Nat.div_lt_of_lt_mul (by rwa [← Nat.pow_succ'])
    have last : n % 256 = n' % 256 := by simpa [← UInt8.toNat_inj] using last
    omega

theorem getHash_digits (block : Block) :
    (block.getHash.bytes.drop 2).take 8 = digits 8 block.data.height.toNat := by
  have short : (digits 8 block.data.height.toNat).length = 8 := length_digits 8 _
  simp only [Block.getHash, Hash.primary, Hash.pack, Primitives.sha256, Serialize.rmpSerialize,
    List.drop_succ_cons, List.drop_zero]
  rw [List.append_assoc, List.take_append_of_le_length, List.take_take]
  · rw [List.append_assoc, List.append_assoc, ← short]
    simp [short]
  · simp [short]

theorem heightsHashed : LiveNode.HeightsHashed := by
  intro b b' h
  apply UInt64.toNat_inj.mp
  apply digits_injective (k := 8) b.data.height.toNat_lt b'.data.height.toNat_lt
  rw [← getHash_digits, ← getHash_digits, h]

end Sample.Duo

end Trinci
