import Trinci.ConsensusRequests
import Trinci.LiveBlocks
import Trinci.LiveLeaders

/-!
# The votes of a node

The services of a node give the consensus service its blocks in order of height: what is
built is for the next height at most, and what is consolidated is above what was before.
So the service signs once for a height and a round. Before the genesis block only peers
write to it.
-/

namespace Trinci

open StepMachines
open ConsensusService (Fair Sound Backed Untouched)

variable {W : Type}

namespace LiveNode

/-! ## The order of the blocks in the channel -/

/-- Where each entry is taken, a built block is of the next height at most, and a block that
is consolidated is above. -/
def InTurn : UInt64 → List ConsensusEntry → Prop
  | _, [] => True
  | height, entry :: rest =>
    (∀ block round txsHashes, entry = .msg (.proposalAfterBuild block round txsHashes) →
      block.data.height ≤ height + 1) ∧
    (∀ block, entry.block? = some block → height < block.data.height) ∧
    InTurn (entry.heightFrom height) rest

def foreignEntry : ConsensusEntry → Bool
  | .msg msg => ConsensusService.foreign msg
  | .getLeader => false

/-- What is written to the channel while the block service is at this block. -/
inductive Writes (tip : Option Block) (entries : List ConsensusEntry) : Prop
  | foreign : (∀ entry ∈ entries, foreignEntry entry = true) → Writes tip entries
  | inTurn {b : Block} : tip = some b → InTurn b.data.height entries → Writes tip entries
  | first {block : Block} {txsHashes : List Hash} {players : Players} :
      tip = none → entries = [.msg (.blockConsolidated block txsHashes players)] →
      block.data.height = 0 → Writes tip entries

section Turns

variable {height : UInt64} {xs ys : List ConsensusEntry} {out : List NodeOutput}

theorem inTurn_append :
    InTurn height (xs ++ ys) ↔ InTurn height xs ∧ InTurn (heightAfter height xs) ys := by
  induction xs generalizing height with
  | nil => simp [InTurn, heightAfter]
  | cons entry xs ih => simp [InTurn, heightAfter, ih, and_assoc]

/-- Neither a built block nor one that is consolidated. -/
def Plain : NodeOutput → Prop
  | .msg .consensusService (.blockConsolidated _ _ _) => False
  | .msg .consensusService (.proposalAfterBuild _ _ _) => False
  | _ => True

theorem inTurn_plain (plain : ∀ o ∈ out, Plain o) :
    InTurn height (out.filterMap consensusEntry) := by
  induction out with
  | nil => trivial
  | cons o out ih =>
    rw [List.forall_mem_cons] at plain
    cases hentry : consensusEntry o with
    | none =>
      rw [List.filterMap_cons_none hentry]
      exact ih plain.2
    | some entry =>
      rw [List.filterMap_cons_some hentry]
      obtain ⟨msg, rfl, rfl⟩ : ∃ msg, o = .msg .consensusService msg ∧ entry = .msg msg := by
        unfold consensusEntry at hentry
        split at hentry
        · exact ⟨_, rfl, (Option.some.inj hentry).symm⟩
        · cases hentry
      have unannounced : ConsensusEntry.block? (.msg msg) = none := by
        cases msg <;> first | rfl | exact plain.1.elim
      refine ⟨?_, ?_, ?_⟩
      · rintro block round txsHashes same
        cases same
        exact plain.1.elim
      · intro block consolidated
        rw [unannounced] at consolidated
        cases consolidated
      · rw [ConsensusEntry.heightFrom, unannounced]
        exact ih plain.2

theorem inTurn_foreign (foreign : ∀ entry ∈ xs, foreignEntry entry = true) : InTurn height xs := by
  induction xs with
  | nil => trivial
  | cons entry xs ih =>
    rw [List.forall_mem_cons] at foreign
    have unannounced : entry.block? = none := by
      cases entry with
      | getLeader => rfl
      | msg msg => cases msg <;> first | rfl | exact absurd foreign.1 Bool.false_ne_true
    refine ⟨?_, ?_, ?_⟩
    · rintro block round txsHashes rfl
      exact absurd foreign.1 Bool.false_ne_true
    · intro block consolidated
      rw [unannounced] at consolidated
      cases consolidated
    · rw [ConsensusEntry.heightFrom, unannounced]
      exact ih foreign.2

end Turns

section Written

variable [Primitives] [Serialize BlockData] [Serialize ConfirmationData] [NodeCodec] [Merkle]
  [Pcg32] [Wm W] {n n' : LiveNode W} {input : LiveInput W} {out : List NodeOutput}
  {tip : Option Block}

omit [Primitives] [Serialize BlockData] [Serialize ConfirmationData] [NodeCodec] [Merkle]
  [Pcg32] [Wm W] in
theorem plain_of_addresses {o : NodeOutput} (h : BlockService.Addresses o) : Plain o := by
  unfold BlockService.Addresses at h
  split at h <;> first | exact trivial | exact h.elim

omit [Primitives] [Serialize BlockData] [Serialize ConfirmationData] [NodeCodec] [Merkle]
  [Pcg32] [Wm W] in
theorem foreign_of_enters {o : NodeOutput} (h : Enters o) :
    ∀ msg, o = .msg .consensusService msg → ConsensusService.foreign msg = true := by
  rintro msg rfl
  obtain h | ⟨txs, same⟩ := h
  · cases msg <;> first | rfl | cases h
  · cases same

omit [Serialize ConfirmationData] [NodeCodec] [Merkle] [Pcg32] [Wm W] in
/-- The block service is at the last block of the database while a block is executed. -/
theorem Ordered.at_of_taken (h : Ordered n tip) {taken : TakenBlock}
    (executing : n.taken = some taken) :
    ∃ b, tip = some b ∧ taken.block.data.height.toNat = b.data.height.toNat + 1 := by
  have onTop := (h.taken taken executing).height
  cases h.stage with
  | @settled tip last none =>
    have located := getLast_height h.heights (List.append_nil _).symm last
    exact ⟨tip, rfl, onTop.trans located.symm⟩
  | due _ _ idle _ _ =>
    rw [idle] at executing
    cases executing

omit [Serialize ConfirmationData] [NodeCodec] [Merkle] [Pcg32] [Wm W] in
/-- Until the block service takes it, there is the genesis block only. -/
theorem Ordered.first_height (h : Ordered n none) {block : Block}
    (last : n.wasm.db.blocks.getLast? = some block) : block.data.height = 0 := by
  generalize htip : (none : Option Block) = tip at h
  cases h.stage with
  | settled _ _ => cases htip
  | @due before newest blocks _ _ _ _ =>
    obtain rfl := List.getLast?_eq_none_iff.mp htip.symm
    rw [blocks, List.getLast?_concat] at last
    obtain rfl := Option.some.inj last
    have located := h.heights 0 newest (by rw [blocks]; rfl)
    exact UInt64.toNat_inj.mp located

/-- What each step writes to the channel of the consensus service. -/
theorem LiveStep.writes (step : LiveStep n input out n') (ordered : Ordered n tip) :
    Writes tip (out.filterMap consensusEntry) := by
  -- before the genesis block nothing of this is on its way
  have timed : ∀ {height : UInt64}, UpToNext tip height → ∃ b, tip = some b :=
    fun ⟨b, hb, _⟩ => ⟨b, hb⟩
  cases step with
  | consensus heq hcore =>
    have sends := ConsensusService.handleMessages_sends (Drawing.handleMessages_ok hcore).1
    rw [maySend_entries sends]
    exact .foreign (by simp)
  | @block env msg rest blockService out heq hblock _ =>
    cases hmsg : consolidatedBlock msg with
    | some block =>
      cases msg with
      | blockConsolidated block' txsHashes players =>
        obtain rfl := Option.some.inj hmsg
        obtain ⟨last, next, -⟩ := ordered.announcement heq
        obtain ⟨-, rfl⟩ := BlockService.handleMessages_announced hblock
        have entries : (((if n.blockService.alignmentSender then
              [.alignmentStep (Executable.getHeight block')] else []) ++
            [.msg .consensusService (.blockConsolidated block' txsHashes players),
              .msg .transactionService (.blockConsolidated block' txsHashes players)]) :
            List NodeOutput).filterMap consensusEntry =
            [.msg (.blockConsolidated block' txsHashes players)] := by
          split <;> rfl
        rw [entries]
        cases htip : tip with
        | none =>
          exact .first rfl rfl (Ordered.first_height (htip ▸ ordered) last)
        | some b =>
          have above := next b htip
          refine .inTurn rfl ⟨by simp, fun block same => ?_, trivial⟩
          obtain rfl := Option.some.inj same
          rw [UInt64.lt_iff_toNat_lt]
          omega
      | _ => cases hmsg
    | none =>
      obtain ⟨b, rfl⟩ := ordered.exists_tip heq hmsg
      refine .inTurn rfl (inTurn_plain fun o ho => ?_)
      refine plain_of_addresses ((BlockService.handleMessages_step hblock).addresses ?_ o ho)
      rintro block txsHashes players rfl
      cases hmsg
  | transactions heq hpool =>
    have quiet : out.filterMap consensusEntry = [] := by
      rw [List.filterMap_eq_nil_iff]
      intro o ho
      obtain (rfl | rfl) | ⟨_, _, _, _, -, rfl⟩ | ⟨_, rfl⟩ :=
        (TransactionService.handleMessages_pool hpool).sends ho <;> rfl
    rw [quiet]
    exact .foreign (by simp)
  | consolidates _ _ hwasm =>
    obtain ⟨forked, players, -, rfl, -⟩ := WasmService.consolidateBlock_ok hwasm
    exact .foreign (by simp [consensusEntry])
  | verifies thread _ =>
    obtain ⟨b, hb⟩ := timed (ordered.timely _ (.thread thread))
    exact .inTurn hb (inTurn_plain (by simp [Plain]))
  | elects thread =>
    obtain ⟨b, hb⟩ := timed (ordered.timely _ (.thread thread))
    exact .inTurn hb (inTurn_plain (by simp [Plain]))
  | finishes htaken hwasm =>
    obtain ⟨b, hb, next⟩ := ordered.at_of_taken htaken
    refine .inTurn hb ?_
    cases executeBlock_step (ordered.taken _ htaken).positive hwasm with
    | dropped _ => trivial
    | @kept _ _ given _ _ _ _ height _ sent =>
      obtain rfl | rfl := sent
      · refine ⟨?_, by simp [ConsensusEntry.block?, consolidatedBlock], trivial⟩
        rintro _ _ _ ⟨⟩
        have small := UInt64.toNat_lt given.data.height
        rw [height] at small
        rw [height, UInt64.le_iff_toNat_le, next, UInt64.toNat_add]
        rw [next] at small
        simp
        omega
      · exact inTurn_plain (by simp [Plain])
  | enters _ entering =>
    refine .foreign fun entry hentry => ?_
    obtain ⟨o, ho, hmsg⟩ := List.mem_filterMap.mp hentry
    unfold consensusEntry at hmsg
    split at hmsg
    · obtain rfl := Option.some.inj hmsg
      exact foreign_of_enters (entering _ ho) _ rfl
    · cases hmsg
  | _ => exact .foreign (by simp [consensusEntry])

end Written

/-! ## What stands behind a node -/

section Standing

variable [Primitives] [Serialize BlockData] [Serialize ConfirmationData]
  {Entered Entered' : Confirmation → Prop} {Told Told' : Hash → Players → Prop}

/-- The players that were announced with the block below stand behind this one. -/
inductive Founded (Entered : Confirmation → Prop) (Told : Hash → Players → Prop) (db : Db)
    (block : Block) (confirmations : List Confirmation) : Prop
  | mk {k : Nat} {last : Block} {players : Players} {txsHashes : List Hash} :
      block.data.height.toNat = k + 1 → db.blocks[k]? = some last → Told last.getHash players →
      Backed Entered players (block, confirmations, txsHashes) →
      Founded Entered Told db block confirmations

/-- The players that are announced are told of the block that the database has there. -/
structure Announcement (Told : Hash → Players → Prop) (db : Db) (block : Block)
    (players : Players) : Prop where
  told : Told block.getHash players
  held : db.blocks[block.data.height.toNat]? = some block

/-- What is known of a message on its way. -/
def Grounded (Entered : Confirmation → Prop) (Told : Hash → Players → Prop) (db : Db) :
    NodeOutput → Prop
  | .msg .blockService (.blockConsolidated block _ players) => Announcement Told db block players
  | .msg .consensusService msg => Fair Entered msg ∧ ∀ block txsHashes players,
    msg = .blockConsolidated block txsHashes players → Announcement Told db block players
  | .msg .nodeInterface (.startBlockConsolidation block confirmations _) =>
    Founded Entered Told db block confirmations
  | _ => True

/-- What is known of the proposals of a node, of its messages and of its database. -/
structure Standing (Entered : Confirmation → Prop) (Told : Hash → Players → Prop)
    (n : LiveNode W) : Prop where
  sound : Sound Entered n.consensus
  pending : ∀ o, n.Pending o → Grounded Entered Told n.wasm.db o
  genesis : n.wasm.db.confirmations[0]? = some []
  stored : ∀ k block confirmations, n.wasm.db.blocks[k + 1]? = some block →
    n.wasm.db.confirmations[k + 1]? = some confirmations →
    Founded Entered Told n.wasm.db block confirmations

/-- The consensus service is at a block of the database, with the players that were
announced with it. -/
structure Based (Told : Hash → Players → Prop) (n : LiveNode W) : Prop where
  held : ∃ last, n.wasm.db.blocks[n.consensus.height.toNat]? = some last ∧
    last.getHash = n.consensus.lastBlockHash
  told : Told n.consensus.lastBlockHash n.consensus.players

/-- Where the consensus service is, by where the block service is. -/
inductive Phase (Told : Hash → Players → Prop) (n : LiveNode W) : Option Block → Prop
  | waiting : Untouched n.consensus → (∀ entry ∈ n.toConsensus, foreignEntry entry = true) →
      Phase Told n none
  | queued {tip block : Block} {txsHashes : List Hash} {players : Players}
      {before after : List ConsensusEntry} : Untouched n.consensus →
      n.toConsensus = before ++ .msg (.blockConsolidated block txsHashes players) :: after →
      (∀ entry ∈ before, foreignEntry entry = true) → InTurn block.data.height after →
      Phase Told n (some tip)
  | based {tip : Block} : Based Told n → InTurn n.consensus.height n.toConsensus →
      Phase Told n (some tip)

variable {db db' : Db} {block : Block} {confirmations : List Confirmation}

theorem Founded.mono (h : Founded Entered Told db block confirmations)
    (later : ∀ c, Entered c → Entered' c) (told : ∀ hash players, Told hash players →
      Told' hash players) {new : List Block} (grows : db'.blocks = db.blocks ++ new) :
    Founded Entered' Told' db' block confirmations := by
  obtain ⟨height, below, announced, backed⟩ := h
  refine .mk height ?_ (told _ _ announced) (backed.mono later)
  rw [grows, List.getElem?_append_left (List.getElem?_eq_some_iff.mp below).1]
  exact below

omit [Serialize ConfirmationData] in
theorem Announcement.mono {players : Players} (h : Announcement Told db block players)
    (told : ∀ hash players, Told hash players → Told' hash players) {new : List Block}
    (grows : db'.blocks = db.blocks ++ new) : Announcement Told' db' block players := by
  refine ⟨told _ _ h.told, ?_⟩
  rw [grows, List.getElem?_append_left (List.getElem?_eq_some_iff.mp h.held).1]
  exact h.held

theorem Grounded.mono {o : NodeOutput} (h : Grounded Entered Told db o)
    (later : ∀ c, Entered c → Entered' c) (told : ∀ hash players, Told hash players →
      Told' hash players) {new : List Block} (grows : db'.blocks = db.blocks ++ new) :
    Grounded Entered' Told' db' o := by
  unfold Grounded at h ⊢
  split
  · exact Announcement.mono h told grows
  · exact ⟨h.1.mono later, fun block txsHashes players same =>
      (h.2 block txsHashes players same).mono told grows⟩
  · exact Founded.mono h later told grows
  · trivial

theorem Standing.mono {n : LiveNode W} (h : Standing Entered Told n)
    (later : ∀ c, Entered c → Entered' c) (told : ∀ hash players, Told hash players →
      Told' hash players) : Standing Entered' Told' n where
  sound := h.sound.mono later
  pending o ho := (h.pending o ho).mono later told (List.append_nil _).symm
  genesis := h.genesis
  stored k block confirmations hblock hconfirmations :=
    (h.stored k block confirmations hblock hconfirmations).mono later told
      (List.append_nil _).symm

omit [Serialize ConfirmationData] in
theorem Based.congr {n n' : LiveNode W} (h : Based Told n)
    (told : ∀ hash players, Told hash players → Told' hash players) {new : List Block}
    (grows : n'.wasm.db.blocks = n.wasm.db.blocks ++ new)
    (consensus : n'.consensus = n.consensus) : Based Told' n' := by
  obtain ⟨last, held, same⟩ := h.held
  rw [← consensus] at held same
  refine ⟨⟨last, ?_, same⟩, ?_⟩
  · rw [grows, List.getElem?_append_left (List.getElem?_eq_some_iff.mp held).1]
    exact held
  · rw [consensus]
    exact told _ _ h.told

omit [Serialize ConfirmationData] in
/-- What is written is in turn behind what is in the channel. -/
theorem Writes.inTurn_after {n : LiveNode W} {tip : Block} {entries : List ConsensusEntry}
    (writes : Writes (some tip) entries) (ordered : Ordered n (some tip)) :
    InTurn (heightAfter n.consensus.height n.toConsensus) entries := by
  cases writes with
  | foreign foreign => exact inTurn_foreign foreign
  | inTurn same turn =>
    obtain rfl := Option.some.inj same
    rw [ordered.reaches tip rfl]
    exact turn
  | first none _ _ => cases none

omit [Serialize ConfirmationData] in
/-- What is written to the channel keeps the phase, up to the genesis block. -/
theorem Phase.post {n n' : LiveNode W} {tip tip' : Option Block} {entries : List ConsensusEntry}
    (h : Phase Told n tip) (ordered : Ordered n tip) (writes : Writes tip entries)
    (told : ∀ hash players, Told hash players → Told' hash players) {new : List Block}
    (grows : n'.wasm.db.blocks = n.wasm.db.blocks ++ new)
    (consensus : n'.consensus = n.consensus)
    (channel : n'.toConsensus = n.toConsensus ++ entries)
    (moves : tip' = tip ∧ (∀ entry ∈ entries, entry.block? = none) ∨
      ∃ block, tip' = some block ∧ ∃ entry ∈ entries, entry.block? = some block) :
    Phase Told' n' tip' := by
  have queues : ∀ b, tip = some b → ∃ b', tip' = some b' := by
    rintro b rfl
    obtain ⟨rfl, -⟩ | ⟨block, rfl, -⟩ := moves
    · exact ⟨b, rfl⟩
    · exact ⟨block, rfl⟩
  cases h with
  | waiting untouched foreign =>
    rw [← consensus] at untouched
    cases writes with
    | foreign more =>
      have unannounced : ∀ entry ∈ entries, entry.block? = none := by
        intro entry hentry
        have peers := more entry hentry
        cases entry with
        | getLeader => rfl
        | msg msg => cases msg <;> first | rfl | exact absurd peers Bool.false_ne_true
      obtain ⟨rfl, -⟩ | ⟨block, -, entry, hentry, announced⟩ := moves
      · refine .waiting untouched fun entry hentry => ?_
        rw [channel, List.mem_append] at hentry
        exact hentry.elim (foreign entry) (more entry)
      · rw [unannounced entry hentry] at announced
        cases announced
    | inTurn same _ => cases same
    | @first block txsHashes players _ written _ =>
      obtain ⟨-, unannounced⟩ | ⟨block', rfl, -⟩ := moves
      · rw [written] at unannounced
        cases unannounced _ List.mem_cons_self
      · exact .queued untouched (channel.trans (congrArg _ written)) foreign trivial
  | @queued tip block txsHashes players before after untouched queue foreign turn =>
    have later := writes.inTurn_after ordered
    rw [queue, heightAfter, List.foldl_append, List.foldl_cons] at later
    rw [← consensus] at untouched
    obtain ⟨b', rfl⟩ := queues tip rfl
    have queue' : n'.toConsensus =
        before ++ .msg (.blockConsolidated block txsHashes players) :: (after ++ entries) := by
      rw [channel, queue, List.append_assoc]
      rfl
    exact .queued untouched queue' foreign (inTurn_append.mpr ⟨turn, later⟩)
  | @based tip based turn =>
    have later := writes.inTurn_after ordered
    obtain ⟨b', rfl⟩ := queues tip rfl
    refine .based (based.congr told grows consensus) ?_
    rw [consensus, channel]
    exact inTurn_append.mpr ⟨turn, later⟩

section Takes

variable [Pcg32] {n n' : LiveNode W} {tip : Option Block} {env : Env} {msg : NodeMsg}
  {rest : List ConsensusEntry} {core : Drawing Block Confirmation} {out : List NodeOutput}

omit [Serialize ConfirmationData] [Pcg32] in
theorem votesInOrder_foreign {s : ConsensusService Block Confirmation}
    (foreign : ConsensusService.foreign msg = true) : s.votesInOrder msg = true := by
  cases msg <;> first | rfl | exact absurd foreign Bool.false_ne_true

omit [Pcg32] in
/-- A service that takes an announced block is based on it. -/
theorem Announcement.based {txsHashes : List Hash} {players : Players}
    (h : Announcement Told n.wasm.db block players) {s : ConsensusService Block Confirmation}
    (hstep : s.handleMessages env (.blockConsolidated block txsHashes players) =
      .ok (n'.consensus, out)) (same : n'.wasm.db.blocks = n.wasm.db.blocks) :
    Based Told n' ∧ n'.consensus.height = block.data.height := by
  obtain ⟨height, hplayers⟩ := ConsensusService.handleMessages_consolidated hstep
  have last := (ConsensusService.handleMessages_consolidated_quiet hstep).2
  refine ⟨⟨⟨block, ?_, last.symm⟩, ?_⟩, height⟩
  · rw [height, same]
    exact h.held
  · rw [last, hplayers]
    exact h.told

/-- The consensus service takes a message: it votes in order, and asks for a consolidation
only if it is based on a block. -/
theorem Phase.take (h : Phase Told n tip) (standing : Standing Entered Told n)
    (alone : n.consensus.proposalExitPoll = [] →
      ∀ c, Entered c → Confirmable.getPlayerId c ≠ n.consensus.nodeId)
    (heq : n.toConsensus = .msg msg :: n'.toConsensus)
    (hcore : Drawing.handleMessages env ⟨n.consensus, n.wasm.drand⟩ msg = .ok (core, out))
    (consensus : n'.consensus = core.consensus)
    (same : n'.wasm.db.blocks = n.wasm.db.blocks) :
    Phase Told n' tip ∧ n.consensus.votesInOrder msg = true ∧
      (startedIn out = [] ∨ Based Told n ∧ ∀ block txsHashes players,
        msg ≠ .blockConsolidated block txsHashes players) := by
  have hstep := (Drawing.handleMessages_ok hcore).1
  rw [← consensus] at hstep
  have grounded : Grounded Entered Told n.wasm.db (.msg .consensusService msg) :=
    standing.pending _ (.consensus (heq ▸ List.mem_cons_self))
  have headed := standing.sound.headed
  cases h with
  | waiting untouched foreign =>
    rw [heq, List.forall_mem_cons] at foreign
    obtain ⟨untouched', -, unstarted⟩ := untouched.foreign headed grounded.1
      (alone untouched.poll) foreign.1 hstep
    exact ⟨.waiting untouched' foreign.2, votesInOrder_foreign foreign.1, .inl unstarted⟩
  | @queued tip block txsHashes players before after untouched queue foreign turn =>
    rw [heq] at queue
    cases before with
    | nil =>
      obtain ⟨hmsg, hafter⟩ := List.cons.inj queue
      obtain rfl := ConsensusEntry.msg.inj hmsg
      obtain ⟨based, height⟩ := (grounded.2 _ _ _ rfl).based hstep same
      refine ⟨.based based ?_, ?_,
        .inl (ConsensusService.handleMessages_consolidated_quiet hstep).1⟩
      · rw [height, hafter]
        exact turn
      · simp [ConsensusService.votesInOrder, untouched.poll]
    | cons entry before =>
      obtain ⟨rfl, rest⟩ := List.cons.inj queue
      rw [List.forall_mem_cons] at foreign
      obtain ⟨untouched', -, unstarted⟩ := untouched.foreign headed grounded.1
        (alone untouched.poll) foreign.1 hstep
      exact ⟨.queued untouched' rest foreign.2 turn, votesInOrder_foreign foreign.1,
        .inl unstarted⟩
  | @based tip based turn =>
    rw [heq] at turn
    obtain ⟨built, above, turn⟩ := turn
    by_cases consolidated : ∃ block txsHashes players,
        msg = .blockConsolidated block txsHashes players
    · obtain ⟨block, txsHashes, players, rfl⟩ := consolidated
      obtain ⟨based', height⟩ := (grounded.2 _ _ _ rfl).based hstep same
      refine ⟨.based based' ?_, ?_,
        .inl (ConsensusService.handleMessages_consolidated_quiet hstep).1⟩
      · rw [height]
        exact turn
      · have higher := above block rfl
        exact (Bool.or_eq_true _ _).mpr (.inl (decide_eq_true higher))
    · have other : ∀ block txsHashes players,
          msg ≠ .blockConsolidated block txsHashes players :=
        fun block txsHashes players same => consolidated ⟨block, txsHashes, players, same⟩
      obtain ⟨height, -, players⟩ := ConsensusService.handleMessages_keeps other hstep
      have last := ConsensusService.handleMessages_keeps_last other hstep
      have unannounced : ConsensusEntry.block? (.msg msg) = none := by
        cases msg <;> first | rfl | exact absurd rfl (other _ _ _)
      rw [ConsensusEntry.heightFrom, unannounced] at turn
      refine ⟨.based ⟨?_, ?_⟩ ?_, ?_, .inr ⟨based, other⟩⟩
      · rw [height, last, same]
        exact based.held
      · rw [last, players]
        exact based.told
      · rw [height]
        exact turn
      · cases msg with
        | proposalAfterBuild block round txsHashes =>
          exact decide_eq_true (built block round txsHashes rfl)
        | blockConsolidated block txsHashes players => exact absurd rfl (other _ _ _)
        | _ => rfl

end Takes

end Standing

/-! ## The steps -/

section Steps

variable [Primitives] [Serialize BlockData] [Serialize ConfirmationData] [NodeCodec] [Merkle]
  [Pcg32] [Wm W] {n n' : LiveNode W} {input : LiveInput W} {out : List NodeOutput}
  {tip : Option Block} {c : Chronicle}

/-- What a step does to the blocks of the database. -/
inductive Stores (n : LiveNode W) (out : List NodeOutput) (n' : LiveNode W) : Prop
  | keeps : n'.wasm.db.blocks = n.wasm.db.blocks →
      n'.wasm.db.confirmations = n.wasm.db.confirmations →
      (∀ block txsHashes players,
        .msg .blockService (.blockConsolidated block txsHashes players) ∉ out) → Stores n out n'
  | adds {block : Block} {confirmations : List Confirmation} {txsHashes : List Hash}
      {players : Players} :
      .msg .nodeInterface (.startBlockConsolidation block confirmations txsHashes) ∈ n.threads →
      n'.wasm.db.blocks = n.wasm.db.blocks ++ [block] →
      n'.wasm.db.confirmations = n.wasm.db.confirmations ++ [confirmations] →
      block.data.height.toNat = n.wasm.db.blocks.length →
      out = [.msg .blockService (.blockConsolidated block txsHashes players)] → Stores n out n'

theorem LiveStep.stores (hashed : HeightsHashed) (step : LiveStep n input out n')
    (ordered : Ordered n tip) (recorded : Recorded c n) : Stores n out n' := by
  cases step with
  | consensus heq hcore =>
    refine .keeps rfl rfl fun block txsHashes players hmem => ?_
    have sends := ConsensusService.handleMessages_sends (Drawing.handleMessages_ok hcore).1
    exact sends _ hmem
  | @block env msg rest blockService out heq hblock _ =>
    refine .keeps rfl rfl fun block txsHashes players hmem => ?_
    cases hmsg : consolidatedBlock msg with
    | some block' =>
      cases msg <;> cases hmsg
      obtain ⟨-, rfl⟩ := BlockService.handleMessages_announced hblock
      split at hmem <;> simp at hmem
    | none =>
      refine (BlockService.handleMessages_step hblock).addresses ?_ _ hmem
      rintro block txsHashes players rfl
      cases hmsg
  | transactions heq hpool =>
    refine .keeps rfl rfl fun block txsHashes players hmem => ?_
    obtain (same | same) | ⟨_, _, _, _, -, same⟩ | ⟨_, same⟩ :=
      (TransactionService.handleMessages_pool hpool).sends hmem <;> cases same
  | consolidates hthread _ hwasm =>
    obtain ⟨forked, players, hforked, rfl, rfl, -⟩ := WasmService.consolidateBlock_ok hwasm
    obtain ⟨blocks, given, same, onTop⟩ := ordered.forks _ _ hforked
    obtain ⟨txs, -, forkOf⟩ := recorded.forks _ _ hforked
    refine .adds (List.mem_of_getElem? hthread) ?_ ?_ ?_ rfl
    · exact congrArg (· ++ _) blocks
    · exact congrArg (· ++ _) forkOf.confirmations
    · rw [← hashed _ _ same]
      exact onTop.height
  | finishes htaken hwasm =>
    cases executeBlock_step (ordered.taken _ htaken).positive hwasm with
    | dropped _ => exact .keeps rfl rfl (by simp)
    | kept _ _ _ _ sent =>
      refine .keeps rfl rfl fun block txsHashes players hmem => ?_
      obtain rfl | rfl := sent <;> cases List.mem_singleton.mp hmem
  | enters _ entering =>
    refine .keeps rfl rfl fun block txsHashes players hmem => ?_
    obtain same | ⟨_, same⟩ := entering _ hmem <;> cases same
  | restarts hrestart =>
    obtain ⟨block, core, config, -, -, rfl⟩ := restart_ok hrestart
    exact .keeps rfl rfl (by simp)
  | _ => exact .keeps rfl rfl (by simp)

omit [Primitives] [Serialize BlockData] [Serialize ConfirmationData] [NodeCodec] [Merkle]
  [Pcg32] [Wm W] in
theorem Stores.grows (h : Stores n out n') :
    ∃ new, n'.wasm.db.blocks = n.wasm.db.blocks ++ new := by
  cases h with
  | keeps same _ _ => exact ⟨[], same.trans (List.append_nil _).symm⟩
  | adds _ blocks _ _ _ => exact ⟨_, blocks⟩

variable {Entered Entered' : Confirmation → Prop} {Told Told' : Hash → Players → Prop}

omit [Serialize ConfirmationData] [NodeCodec] [Merkle] [Pcg32] [Wm W] in
theorem Phase.mono (h : Phase Told n tip)
    (told : ∀ hash players, Told hash players → Told' hash players) : Phase Told' n tip := by
  cases h with
  | waiting untouched foreign => exact .waiting untouched foreign
  | queued untouched queue foreign turn => exact .queued untouched queue foreign turn
  | based based turn => exact .based ⟨based.held, told _ _ based.told⟩ turn

omit [Serialize ConfirmationData] [NodeCodec] [Merkle] [Pcg32] [Wm W] in
/-- The leader is not asked for before the genesis block is taken. -/
theorem Phase.answer (h : Phase Told n tip)
    (heq : n.toConsensus = .getLeader :: n'.toConsensus) {new : List Block}
    (grows : n'.wasm.db.blocks = n.wasm.db.blocks ++ new)
    (consensus : n'.consensus = n.consensus) : Phase Told n' tip := by
  cases h with
  | waiting _ foreign =>
    rw [heq, List.forall_mem_cons] at foreign
    exact absurd foreign.1 Bool.false_ne_true
  | @queued _ _ _ _ before _ _ queue foreign _ =>
    rw [heq] at queue
    cases before with
    | nil => cases (List.cons.inj queue).1
    | cons entry before =>
      obtain ⟨rfl, -⟩ := List.cons.inj queue
      exact absurd (foreign _ List.mem_cons_self) Bool.false_ne_true
  | based based turn =>
    rw [heq] at turn
    refine .based (based.congr (fun _ _ told => told) grows consensus) ?_
    rw [consensus]
    exact turn.2.2

/-- Every step keeps the phase, and lets the consensus service vote in order. -/
theorem Phase.step (h : Phase Told n tip) (hashed : HeightsHashed)
    (standing : Standing Entered Told n) (ordered : Ordered n tip) (recorded : Recorded c n)
    (hstep : LiveStep n input out n') (lasting : isRestart input = false)
    (told : ∀ hash players, Told hash players → Told' hash players)
    (alone : n.consensus.proposalExitPoll = [] →
      ∀ c, Entered c → Confirmable.getPlayerId c ≠ n.consensus.nodeId) :
    Phase Told' n' (tipAfter tip ⟨n, input, out, n'⟩) := by
  obtain ⟨new, grows⟩ := (hstep.stores hashed ordered recorded).grows
  have writes := hstep.writes ordered
  have ordered' := ordered.step hashed hstep
  cases hstep.channel with
  | takes hinput heq hcore consensus _ =>
    obtain rfl := hinput
    have same : n'.wasm.db.blocks = n.wasm.db.blocks := by
      cases hstep with
      | enters entry _ => cases entry
      | _ => rfl
    exact (h.take standing alone heq hcore consensus same).1.mono told
  | answers hinput heq consensus _ =>
    obtain rfl := hinput
    exact (h.answer heq grows consensus).mono told
  | asks hinput _ executing _ channel consensus =>
    obtain rfl := hinput
    obtain ⟨b, hb, -⟩ := ordered'.at_of_taken executing
    have waits : InTurn b.data.height [.getLeader] :=
      ⟨by simp, by simp [ConsensusEntry.block?], trivial⟩
    exact h.post ordered (.inTurn hb waits) told grows consensus channel
      (.inl ⟨rfl, by simp [ConsensusEntry.block?]⟩)
  | @announces block txsHashes players env rest hinput heq channel consensus _ =>
    obtain rfl := hinput
    change n.toBlock = _ at heq
    have moved : tipAfter tip ⟨n, .block env, out, n'⟩ = some block := by
      simp only [tipAfter, isRestart, takenByBlock, heq]
      rfl
    cases hstep with
    | enters entry _ => cases entry
    | block heq' hblock _ =>
      have written := List.append_cancel_left channel
      rw [written] at writes
      exact h.post ordered writes told grows consensus channel
        (.inr ⟨block, moved, _, List.mem_cons_self, rfl⟩)
  | writes _ same quiet channel consensus _ =>
    rw [same]
    refine h.post ordered writes told grows consensus channel (.inl ⟨rfl, fun entry hentry => ?_⟩)
    cases entry with
    | getLeader => rfl
    | msg msg =>
      have noRound := quiet _ (mem_consensusEntry.mp hentry)
      cases msg <;> first | rfl | exact noRound.elim
  | restarts hinput _ =>
    cases hinput
    cases lasting

/-- Only the consensus service signs and asks for consolidations. -/
inductive Speaks (n : LiveNode W) (input : LiveInput W) (out : List NodeOutput)
    (n' : LiveNode W) : Prop
  | takes {env : Env} {msg : NodeMsg} {core : Drawing Block Confirmation} :
      input = .consensus env → n.toConsensus = .msg msg :: n'.toConsensus →
      Drawing.handleMessages env ⟨n.consensus, n.wasm.drand⟩ msg = .ok (core, out) →
      n'.consensus = core.consensus → n'.wasm.db = n.wasm.db → Speaks n input out n'
  | silent : (∀ o ∈ out, Output.Quiet o) → n'.consensus = n.consensus → Speaks n input out n'

omit [Primitives] [Serialize BlockData] [Serialize ConfirmationData] [NodeCodec] [Merkle]
  [Pcg32] [Wm W] in
theorem quiet_of_enters {o : NodeOutput} (h : Enters o) : Output.Quiet o := by
  obtain h | ⟨txs, rfl⟩ := h
  · unfold arrives at h
    split at h
    · split at h <;> first | exact ⟨rfl, rfl⟩ | cases h
    · split at h <;> first | exact ⟨rfl, rfl⟩ | cases h
    · split at h <;> first | exact ⟨rfl, rfl⟩ | cases h
    · cases h
  · exact ⟨rfl, rfl⟩

theorem LiveStep.speaks (step : LiveStep n input out n') (lasting : isRestart input = false) :
    Speaks n input out n' := by
  cases step with
  | consensus heq hcore =>
    have sends := ConsensusService.handleMessages_sends (Drawing.handleMessages_ok hcore).1
    refine .takes rfl ?_ hcore rfl rfl
    change n.toConsensus = _ :: (_ ++ _)
    rw [maySend_entries sends, List.append_nil]
    exact heq
  | @block env msg rest blockService out heq hblock _ =>
    refine .silent (fun o ho => ?_) rfl
    obtain mail | ⟨-, announces⟩ | ⟨-, begins⟩ :=
      (BlockService.handleMessages_step hblock).mail ho
    · cases mail <;> exact ⟨rfl, rfl⟩
    · obtain ⟨_, rfl⟩ | ⟨_, _, _, _, rfl⟩ := announces <;> exact ⟨rfl, rfl⟩
    · obtain rfl | ⟨_, _, rfl⟩ := begins <;> exact ⟨rfl, rfl⟩
  | transactions heq hpool =>
    refine .silent (fun o ho => ?_) rfl
    obtain (rfl | rfl) | ⟨_, _, _, _, -, rfl⟩ | ⟨_, rfl⟩ :=
      (TransactionService.handleMessages_pool hpool).sends ho <;> exact ⟨rfl, rfl⟩
  | consolidates _ _ hwasm =>
    obtain ⟨forked, players, -, rfl, -⟩ := WasmService.consolidateBlock_ok hwasm
    refine .silent (fun o ho => ?_) rfl
    obtain rfl := List.mem_singleton.mp ho
    exact ⟨rfl, rfl⟩
  | finishes _ hwasm =>
    refine .silent (fun o ho => ?_) rfl
    obtain ⟨_, _, rfl⟩ | ⟨_, _, rfl⟩ | ⟨_, _, _, rfl⟩ := executeBlock_sends hwasm o ho <;>
      exact ⟨rfl, rfl⟩
  | enters _ entering => exact .silent (fun o ho => quiet_of_enters (entering o ho)) rfl
  | restarts hrestart => cases lasting
  | _ => exact .silent (by simp [Output.Quiet, Output.signed, Output.started]) rfl

/-- Where a message to the consensus service comes from. -/
inductive Brings (n : LiveNode W) (input : LiveInput W) : NodeMsg → Prop
  | own {msg : NodeMsg} :
      (∀ s : ConsensusService Block Confirmation, s.incoming msg = ([], none)) →
      consolidatedBlock msg = none → Brings n input msg
  | announced {block : Block} {txsHashes : List Hash} {players : Players} {rest : List NodeMsg} :
      n.toBlock = .blockConsolidated block txsHashes players :: rest →
      Brings n input (.blockConsolidated block txsHashes players)
  | aligned {env : BlockEnv Hash Block Confirmation Transaction} {attempt : Nat}
      {fullBlock : FullBlock Block Confirmation Transaction} : input = .block env →
      env.getFullBlock attempt = .answer (some fullBlock) →
      Brings n input (.proposalFromAlignmentBlock fullBlock.confirmations)
  | arrived {msg : NodeMsg} : input = .arrive (.msg .consensusService msg) →
      consolidatedBlock msg = none → Brings n input msg

omit [Serialize BlockData] [Serialize ConfirmationData] [Merkle] [Pcg32] [Wm W] in
/-- An execution begins with messages to the transaction service. -/
theorem begun_pool {env : BlockEnv Hash Block Confirmation Transaction} {block : Block}
    {round : UInt8} {txsHashes : List Hash} (h : BlockService.Begun env block round txsHashes out)
    {dest : Service} {msg : NodeMsg} (ho : .msg dest msg ∈ out) : dest = .transactionService := by
  cases h with
  | held _ _ =>
    cases List.mem_singleton.mp ho
    rfl
  | supplied _ _ _ =>
    simp only [List.mem_cons, List.not_mem_nil, or_false] at ho
    obtain same | same := ho
    · cases same
      rfl
    · cases same
      rfl

/-- What enters comes from a peer, a timer or a thread, or is for the pool. -/
theorem handle_entry (h : n.handle input = .ok (n', out)) (entry : isEntry input = true)
    {o : NodeOutput} (ho : o ∈ out) :
    input = .arrive o ∨ ∃ msg, o = .msg .transactionService msg := by
  cases input with
  | arrive o' =>
    simp only [handle] at h
    split at h
    · cases h
      obtain rfl := List.mem_singleton.mp ho
      exact .inl rfl
    · cases h
  | submit tx =>
    simp only [handle] at h
    split at h
    · cases h
      cases ho
    · split at h
      · cases h
        cases ho
      · cases h
        exact .inr ⟨_, List.mem_singleton.mp ho⟩
  | oldTransactions txs =>
    cases h
    exact .inr ⟨_, List.mem_singleton.mp ho⟩
  | _ => cases entry

/-- Every message to the consensus service comes from one of these. -/
theorem handle_brings (h : n.handle input = .ok (n', out)) {msg : NodeMsg}
    (ho : .msg .consensusService msg ∈ out) : Brings n input msg := by
  cases handle_step h with
  | consensus _ hcore =>
    have sends := ConsensusService.handleMessages_sends (Drawing.handleMessages_ok hcore).1
    exact (sends _ ho).elim
  | @block env taken rest blockService out heq hblock _ =>
    have step := BlockService.handleMessages_step hblock
    cases step with
    | consolidated =>
      split at ho
      · simp at ho
        obtain rfl := ho
        exact .announced heq
      · simp at ho
        obtain rfl := ho
        exact .announced heq
    | retrieved sent _ =>
      obtain rfl | ⟨answer, verified⟩ := sent
      · cases ho
      · rw [List.mem_cons, List.mem_cons] at ho
        obtain same | same | ho := ho
        · cases same
          exact .aligned rfl answer
        · cases same
        · obtain rfl | verified := verified
          · cases ho
          · cases begun_pool verified.begun ho
    | verified sent =>
      obtain rfl | verified := sent
      · cases ho
      · cases begun_pool verified.begun ho
    | built _ sent timer =>
      obtain ho | ho := List.mem_append.mp ho
      · obtain rfl | ⟨-, begun⟩ := sent
        · cases ho
        · cases begun_pool begun ho
      · obtain rfl | rfl := timer
        · cases ho
        · cases List.mem_singleton.mp ho
    | aligned _ _ _ => simp at ho
    | timed => cases List.mem_singleton.mp ho
    | _ => cases ho
  | transactions _ hpool =>
    obtain (same | same) | ⟨_, _, _, _, -, same⟩ | ⟨_, same⟩ :=
      (TransactionService.handleMessages_pool hpool).sends ho <;> cases same
  | consolidates _ _ hwasm =>
    obtain ⟨forked, players, -, rfl, -⟩ := WasmService.consolidateBlock_ok hwasm
    cases List.mem_singleton.mp ho
  | finishes _ hwasm =>
    obtain ⟨_, _, same⟩ | ⟨_, _, same⟩ | ⟨_, _, _, same⟩ := executeBlock_sends hwasm _ ho <;>
      cases same <;> exact .own (fun _ => rfl) rfl
  | verifies _ _ =>
    cases List.mem_singleton.mp ho
    exact .own (fun _ => rfl) rfl
  | elects _ =>
    simp only [List.mem_cons, List.not_mem_nil, or_false] at ho
    obtain same | same := ho
    · cases same
      exact .own (fun _ => rfl) rfl
    · cases same
  | waits _ => cases List.mem_singleton.mp ho
  | times _ => cases List.mem_singleton.mp ho
  | enters entry entering =>
    obtain arrived | ⟨_, same⟩ := entering _ ho
    · have unannounced : consolidatedBlock msg = none := by
        cases msg <;> first | rfl | cases arrived
      obtain rfl | ⟨_, same⟩ := handle_entry h entry ho
      · exact .arrived rfl unannounced
      · cases same
    · cases same
  | _ => cases ho

/-- What reaches the node from its peers is fair. -/
structure FairInput (Entered : Confirmation → Prop) (input : LiveInput W) : Prop where
  arrived : ∀ msg, input = .arrive (.msg .consensusService msg) → Fair Entered msg
  aligned : ∀ env attempt fullBlock, input = .block env →
    env.getFullBlock attempt = .answer (some fullBlock) →
    Fair Entered (.proposalFromAlignmentBlock fullBlock.confirmations : NodeMsg)

omit [NodeCodec] [Merkle] [Pcg32] [Wm W] in
theorem FairInput.mono (h : FairInput Entered input) (later : ∀ c, Entered c → Entered' c) :
    FairInput Entered' input where
  arrived msg same := (h.arrived msg same).mono later
  aligned env attempt fullBlock same answered :=
    (h.aligned env attempt fullBlock same answered).mono later

omit [NodeCodec] [Merkle] [Wm W] in
/-- A consolidation that is asked for is founded on the block below. -/
theorem Standing.requests (h : Standing Entered Told n) (phase : Phase Told n tip)
    (ordered : Ordered n tip) (speaks : Speaks n input out n')
    (later : ∀ c, Entered c → Entered' c) (signs : ∀ c ∈ signedIn out, Entered' c)
    (alone : n.consensus.proposalExitPoll = [] →
      ∀ c, Entered c → Confirmable.getPlayerId c ≠ n.consensus.nodeId) :
    ∀ request ∈ startedIn out, Founded Entered' Told n'.wasm.db request.1 request.2.1 := by
  rintro ⟨block, confirmations, txsHashes⟩ hrequest
  cases speaks with
  | silent quiet _ =>
    rw [startedIn, List.filterMap_eq_nil_iff.mpr fun o ho => (quiet o ho).2] at hrequest
    cases hrequest
  | takes _ heq hcore consensus same =>
    obtain ⟨-, -, none | ⟨based, other⟩⟩ :=
      phase.take h alone heq hcore consensus (congrArg Db.blocks same)
    · rw [none] at hrequest
      cases hrequest
    · have grounded := h.pending _ (.consensus (heq ▸ List.mem_cons_self))
      have requesting := ConsensusService.handleMessages_requesting other
        (grounded.1.mono later) signs (h.sound.mono later) (Drawing.handleMessages_ok hcore).1
      obtain ⟨last, held, same_hash⟩ := based.held
      have inside := (List.getElem?_eq_some_iff.mp held).1
      have room := ordered.room
      have next : block.data.height = n.consensus.height + 1 := requesting.next _ hrequest
      refine .mk ?_ (same ▸ held) (same_hash ▸ based.told) (requesting.requests _ hrequest)
      rw [next, UInt64.toNat_add]
      simp
      omega

/-- What is sent keeps what is known of the messages. -/
theorem Standing.sends (h : Standing Entered Told n) (phase : Phase Told n tip)
    (hashed : HeightsHashed) (ordered : Ordered n tip) (recorded : Recorded c n)
    (hstep : n.handle input = .ok (n', out)) (lasting : isRestart input = false)
    (fair : FairInput Entered' input) (later : ∀ c, Entered c → Entered' c)
    (told : ∀ hash players, Told hash players → Told' hash players)
    (signs : ∀ c ∈ signedIn out, Entered' c)
    (tells : ∀ block txsHashes players,
      .msg .blockService (.blockConsolidated block txsHashes players) ∈ out →
        Told' block.getHash players)
    (alone : n.consensus.proposalExitPoll = [] →
      ∀ c, Entered c → Confirmable.getPlayerId c ≠ n.consensus.nodeId) :
    ∀ o ∈ out, Grounded Entered' Told' n'.wasm.db o := by
  have step := handle_step hstep
  have stores := step.stores hashed ordered recorded
  obtain ⟨new, grows⟩ := stores.grows
  intro o ho
  unfold Grounded
  split
  · next block txsHashes players =>
    refine ⟨tells block txsHashes players ho, ?_⟩
    cases stores with
    | keeps _ _ quiet => exact absurd ho (quiet _ _ _)
    | adds _ blocks _ height sent =>
      rw [sent] at ho
      cases List.mem_singleton.mp ho
      rw [blocks, height, List.getElem?_append_right (Nat.le_refl _), Nat.sub_self]
      rfl
  · next msg =>
    cases handle_brings hstep ho with
    | own nothing other =>
      refine ⟨.inl nothing, ?_⟩
      rintro block txsHashes players rfl
      cases other
    | announced heq =>
      refine ⟨.inl fun _ => rfl, ?_⟩
      rintro block txsHashes players ⟨⟩
      have waiting := h.pending _ (.block (heq ▸ List.mem_cons_self))
      exact Announcement.mono waiting told grows
    | aligned hinput answer =>
      refine ⟨fair.aligned _ _ _ hinput answer, ?_⟩
      rintro block txsHashes players ⟨⟩
    | arrived hinput other =>
      refine ⟨fair.arrived _ hinput, ?_⟩
      rintro block txsHashes players rfl
      cases other
  · next block confirmations txsHashes =>
    have asked : (block, confirmations, txsHashes) ∈ startedIn out :=
      List.mem_filterMap.mpr ⟨_, ho, rfl⟩
    have founded := h.requests phase ordered (step.speaks lasting) later signs alone _ asked
    exact founded.mono (fun _ entered => entered) told (List.append_nil _).symm
  · trivial

/-- A fair step keeps what is known of the node. -/
theorem Standing.step (h : Standing Entered Told n) (phase : Phase Told n tip)
    (hashed : HeightsHashed) (ordered : Ordered n tip) (recorded : Recorded c n)
    (hstep : n.handle input = .ok (n', out)) (lasting : isRestart input = false)
    (fair : FairInput Entered' input) (later : ∀ c, Entered c → Entered' c)
    (told : ∀ hash players, Told hash players → Told' hash players)
    (signs : ∀ c ∈ signedIn out, Entered' c)
    (tells : ∀ block txsHashes players,
      .msg .blockService (.blockConsolidated block txsHashes players) ∈ out →
        Told' block.getHash players)
    (alone : n.consensus.proposalExitPoll = [] →
      ∀ c, Entered c → Confirmable.getPlayerId c ≠ n.consensus.nodeId) :
    Standing Entered' Told' n' := by
  have step := handle_step hstep
  have stores := step.stores hashed ordered recorded
  obtain ⟨new, grows⟩ := stores.grows
  have aligned : n.wasm.db.confirmations.length = n.wasm.db.blocks.length := by
    rw [recorded.blocks, recorded.confirmations, List.length_map, List.length_map]
  refine ⟨?_, ?_, ?_, ?_⟩
  · cases step.speaks lasting with
    | silent _ same =>
      rw [same]
      exact h.sound.mono later
    | takes _ heq hcore consensus _ =>
      have grounded := h.pending _ (.consensus (heq ▸ List.mem_cons_self))
      obtain ⟨uniform, matching, entered⟩ := (grounded.1.mono later).enters n.consensus
      have handled : n.consensus.handle ⟨_, _⟩ = .ok (_, out) := (Drawing.handleMessages_ok hcore).1
      rw [consensus]
      exact (ConsensusService.handle_quorate uniform matching entered signs
        (h.sound.mono later) handled).toSound
  · intro o ho
    obtain ho | ho := step.pending ho
    · exact (h.pending o ho).mono later told grows
    · exact h.sends phase hashed ordered recorded hstep lasting fair later told signs tells alone
        o ho
  · cases stores with
    | keeps _ same _ =>
      rw [same]
      exact h.genesis
    | adds _ _ confirmations _ _ =>
      rw [confirmations, List.getElem?_append_left (List.getElem?_eq_some_iff.mp h.genesis).1]
      exact h.genesis
  · intro k block confirmations hblock hconfirmations
    cases stores with
    | keeps blocks same _ =>
      rw [blocks] at hblock
      rw [same] at hconfirmations
      exact (h.stored k block confirmations hblock hconfirmations).mono later told grows
    | adds thread blocks same _ _ =>
      rw [blocks] at hblock
      rw [same] at hconfirmations
      obtain ⟨_, hblock⟩ | ⟨last, rfl⟩ := getElem?_concat_cases hblock
      · obtain ⟨_, hconfirmations⟩ | ⟨beyond, -⟩ := getElem?_concat_cases hconfirmations
        · exact (h.stored k block confirmations hblock hconfirmations).mono later told grows
        · omega
      · obtain ⟨inside, -⟩ | ⟨-, rfl⟩ := getElem?_concat_cases hconfirmations
        · omega
        · exact Founded.mono (h.pending _ (.thread thread)) later told grows

/-! ### What a node serves -/

/-- The database has this block with these confirmations. -/
def Keeps (db : Db) (block : Block) (confirmations : List Confirmation) : Prop :=
  ∃ k : Nat, db.blocks[k]? = some block ∧ db.confirmations[k]? = some confirmations

omit [Primitives] [Serialize BlockData] [Serialize ConfirmationData] [NodeCodec] [Merkle]
  [Pcg32] [Wm W] in
/-- What is loaded under one height is of one place. -/
theorem keeps_of_loads {db : Db} {height : UInt64} {block : Block}
    {confirmations : List Confirmation} (paired : db.confirmations.length = db.blocks.length)
    (hblock : db.loadBlock height = some block)
    (hconfirmations : db.loadConfirmations height = some confirmations) :
    Keeps db block confirmations := by
  unfold Db.loadBlock at hblock
  unfold Db.loadConfirmations at hconfirmations
  split at hblock
  · next last =>
    rw [if_pos last, List.getLast?_eq_getElem?] at hconfirmations
    rw [List.getLast?_eq_getElem?] at hblock
    exact ⟨_, hblock, paired ▸ hconfirmations⟩
  · next inner =>
    rw [if_neg inner] at hconfirmations
    exact ⟨_, hblock, hconfirmations⟩

omit [Serialize BlockData] [Serialize ConfirmationData] [Merkle] [Pcg32] [Wm W] in
theorem keeps_of_loadFullBlock {db : Db} {height : UInt64}
    {fullBlock : FullBlock Block Confirmation Transaction}
    (paired : db.confirmations.length = db.blocks.length)
    (h : db.loadFullBlock height = some fullBlock) :
    Keeps db fullBlock.block fullBlock.confirmations := by
  unfold Db.loadFullBlock at h
  simp only [Option.bind_eq_bind, Option.bind_eq_some_iff] at h
  obtain ⟨block, hblock, confirmations, hconfirmations, hashes, -, h⟩ := h
  split at h
  · cases h
  · cases h
    exact keeps_of_loads paired hblock hconfirmations

omit [Serialize ConfirmationData] [NodeCodec] [Merkle] [Pcg32] [Wm W] in
theorem keeps_of_getConfirmations {db : Db} {height : UInt64} {hash : Hash} {ask : Bool}
    {confirmations : List Confirmation} {answer : Option (Block × List Hash)}
    (paired : db.confirmations.length = db.blocks.length)
    (h : DbService.getConfirmations db height hash ask = .ok (some confirmations, answer)) :
    ∃ block, Keeps db block confirmations ∧ ∀ entry ∈ answer, entry.1 = block := by
  have sends : ∀ {block : Block} {sent : Option (Block × List Hash)},
      DbService.blockToPeer db block height = .ok sent → ∀ entry ∈ sent, entry.1 = block := by
    intro block sent hsent entry hentry
    unfold DbService.blockToPeer at hsent
    split at hsent
    · cases hsent
    · cases hsent
      cases hentry
      rfl
  unfold DbService.getConfirmations at h
  split at h
  · next block hblock =>
    refine ⟨block, ?_⟩
    simp only at h
    split at h
    · split at h
      · obtain ⟨sent, hsent, h⟩ := bind_eq_ok.mp h
        obtain ⟨hconfirmations, rfl⟩ := Prod.mk.inj (Except.ok.inj h)
        exact ⟨keeps_of_loads paired hblock hconfirmations, sends hsent⟩
      · obtain ⟨hconfirmations, rfl⟩ := Prod.mk.inj (Except.ok.inj h)
        exact ⟨keeps_of_loads paired hblock hconfirmations, by simp⟩
    · obtain ⟨sent, hsent, h⟩ := bind_eq_ok.mp h
      obtain ⟨hconfirmations, rfl⟩ := Prod.mk.inj (Except.ok.inj h)
      exact ⟨keeps_of_loads paired hblock hconfirmations, sends hsent⟩
  · cases h

omit [NodeCodec] [Merkle] [Pcg32] [Wm W] in
/-- What is kept with a block is fair. -/
theorem Standing.fair (h : Standing Entered Told n) {block : Block}
    {confirmations : List Confirmation} (keeps : Keeps n.wasm.db block confirmations) :
    Fair Entered (.proposalFromAlignmentBlock confirmations : NodeMsg) ∧
      ∀ answer : Option (Block × List Hash), (∀ entry ∈ answer, entry.1 = block) →
        Fair Entered (.verifyConfirmations answer confirmations : NodeMsg) := by
  obtain ⟨k, hblock, hconfirmations⟩ := keeps
  cases k with
  | zero =>
    cases h.genesis.symm.trans hconfirmations
    exact ⟨.inl fun _ => rfl, fun _ _ => .inl fun _ => rfl⟩
  | succ k =>
    obtain ⟨-, -, -, backed⟩ := h.stored k block confirmations hblock hconfirmations
    exact ⟨ConsensusService.fair_alignment backed,
      fun answer same => ConsensusService.fair_answer backed same⟩

/-! ### What a node signs -/

/-- What a node signed is of its own key, and recorded in the poll once for each height and
round. -/
structure Ballots (keypair : TrinciKeyPair) (nodeId : String) (done : List NodeOutput)
    (s : ConsensusService Block Confirmation) : Prop where
  key : s.keypair = keypair
  nodeId : s.nodeId = nodeId
  signed : ∀ c ∈ signedIn done, ConsensusService.SignedBy keypair c
  recorded : ConsensusService.VotesRecorded ((signedIn done).map ConsensusService.voteKey) s

theorem Ballots.step {keypair : TrinciKeyPair} {nodeId : String} {done : List NodeOutput}
    (h : Ballots keypair nodeId done n.consensus) (standing : Standing Entered Told n)
    (phase : Phase Told n tip) (hstep : n.handle input = .ok (n', out))
    (lasting : isRestart input = false)
    (alone : n.consensus.proposalExitPoll = [] →
      ∀ c, Entered c → Confirmable.getPlayerId c ≠ n.consensus.nodeId) :
    Ballots keypair nodeId (done ++ out) n'.consensus := by
  cases (handle_step hstep).speaks lasting with
  | silent quiet same =>
    have unsigned : signedIn out = [] :=
      List.filterMap_eq_nil_iff.mpr fun o ho => (quiet o ho).1
    refine ⟨?_, ?_, ?_, ?_⟩
    · rw [same, h.key]
    · rw [same, h.nodeId]
    · rw [signedIn_append, unsigned, List.append_nil]
      exact h.signed
    · rw [signedIn_append, unsigned, List.append_nil, same]
      exact h.recorded
  | @takes env msg core _ heq hcore consensus same =>
    obtain ⟨-, ordered, -⟩ :=
      phase.take standing alone heq hcore consensus (congrArg Db.blocks same)
    have handled : n.consensus.handle ⟨Drawing.answeredFor n.wasm.drand env msg, msg⟩ =
        .ok (n'.consensus, out) := consensus ▸ (Drawing.handleMessages_ok hcore).1
    obtain ⟨key, signed⟩ := ConsensusService.handle_signedBy handled
    refine ⟨key.trans h.key, ?_, fun c hc => ?_, ?_⟩
    · exact (ConsensusService.handleMessages_nodeId handled).trans h.nodeId
    · rw [signedIn_append, List.mem_append] at hc
      exact hc.elim (h.signed c) (h.key ▸ signed c)
    · exact ConsensusService.handle_votesRecorded ordered h.recorded handled

/-! ## The first start -/

section Starts

variable {env : Env} {keypair : TrinciKeyPair} {nodeId : String} {wm : W} {accounts : Accounts}
  {bootstrapTxs : List Transaction} {networkName : String}

theorem ballots_of_bootstrap
    (h : bootstrap env keypair nodeId wm accounts bootstrapTxs networkName = .ok n) :
    Ballots keypair nodeId [] n.consensus := by
  obtain ⟨core, wasm, out, -, -, hcore, -, -, rfl⟩ := bootstrap_ok h
  cases hcore
  exact ⟨rfl, rfl, by simp [signedIn], .nil _⟩

omit [Serialize ConfirmationData] in
theorem phase_of_bootstrap
    (h : bootstrap env keypair nodeId wm accounts bootstrapTxs networkName = .ok n) :
    Phase Told n none := by
  obtain ⟨core, wasm, out, named, -, hcore, hwasm, sent, rfl⟩ := bootstrap_ok h
  obtain ⟨given, players, height, blocks, forks, -, rfl⟩ :=
    executeGenesisBlock_ok rfl (UInt64.lt_irrefl 0) named hwasm sent
  cases hcore
  exact .waiting ⟨rfl, rfl, ConsensusService.every_of_empty rfl⟩ (by simp [post, consensusEntry])

/-- The genesis block is in the database with no confirmations, and it is announced. -/
theorem standing_of_bootstrap
    (h : bootstrap env keypair nodeId wm accounts bootstrapTxs networkName = .ok n)
    (tells : ∀ block txsHashes players, .blockConsolidated block txsHashes players ∈ n.toBlock →
      Told block.getHash players) : Standing Entered Told n := by
  have recorded := (recorded_of_bootstrap h).1
  obtain ⟨core, wasm, out, named, -, hcore, hwasm, sent, rfl⟩ := bootstrap_ok h
  obtain ⟨given, players, height, blocks, forks, -, rfl⟩ :=
    executeGenesisBlock_ok rfl (UInt64.lt_irrefl 0) named hwasm sent
  cases hcore
  have only : wasm.db.blocks = [given] := blocks
  have unconfirmed : wasm.db.confirmations = [[]] := recorded.confirmations
  refine ⟨ConsensusService.sound_of_empty rfl, ?_, ?_, ?_⟩
  · intro o ho
    cases ho with
    | consensus ho => cases ho
    | block ho =>
      obtain rfl := List.mem_singleton.mp ho
      refine ⟨tells _ _ _ List.mem_cons_self, ?_⟩
      change wasm.db.blocks[given.data.height.toNat]? = some given
      rw [only, height]
      rfl
    | transactions ho => cases ho
    | thread ho => cases ho
  · change wasm.db.confirmations[0]? = some []
    rw [unconfirmed]
    rfl
  · intro k block confirmations hblock
    change wasm.db.blocks[k + 1]? = some block at hblock
    rw [only] at hblock
    cases hblock

end Starts

end Steps

end LiveNode

end Trinci
