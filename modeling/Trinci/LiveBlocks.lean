import Trinci.LiveBuilds
import Trinci.LiveLeaders

/-!
# The blocks that a node serves

A block that is consolidated is read back from five indexes: the blocks, their
confirmations, the hashes listed at its height, the transactions, and the attachments for a
hash that is no transaction's. The chronicle of a run has the blocks as they were
consolidated. They are read back as they were, as long as each has a transaction and none
of their transactions was stored over.
-/

namespace Trinci

open StepMachines StatefulSteps

variable {W : Type}

/-! ## The database service -/

/-- A list of hashes that is expected and is not there. -/
inductive DbPanic
  | missingTransactionsHashes

namespace DbService

variable [Primitives] [Serialize BlockData]

def blockToPeer (db : Db) (block : Block) (blockHeight : UInt64) :
    Except DbPanic (Option (Block × List Hash)) :=
  match db.loadTransactionsHashes blockHeight with
  | none => .error .missingTransactionsHashes
  | some hashes => .ok (some (block, hashes))

/-- The answer to `GetConfirmations`: the confirmations, and the block for a peer that asks
for it or expects another. -/
def getConfirmations (db : Db) (blockHeight : UInt64) (blockHash : Hash) (askForBlock : Bool) :
    Except DbPanic (Option (List Confirmation) × Option (Block × List Hash)) :=
  match db.loadBlock blockHeight with
  | some block => do
    let confirmations := db.loadConfirmations blockHeight
    if block.getHash = blockHash then
      if askForBlock then
        let block ← blockToPeer db block blockHeight
        return (confirmations, block)
      else return (confirmations, none)
    else
      let block ← blockToPeer db block blockHeight
      return (confirmations, block)
  | none => .ok (none, none)

end DbService

/-- A block is read back, and a request for its confirmations is answered whatever the
peer expects. -/
structure Served [Primitives] [Serialize BlockData] [NodeCodec] (db : Db) (height : UInt64)
    (fullBlock : FullBlock Block Confirmation Transaction) : Prop where
  loaded : db.loadFullBlock height = some fullBlock
  answered : ∀ blockHash askForBlock, ∃ block,
    DbService.getConfirmations db height blockHash askForBlock =
      .ok (some fullBlock.confirmations, block)

section Loads

variable [Primitives] [NodeCodec] {db : Db} {hash : Hash}

theorem loadTransaction_of_mem (h : hash ∈ db.transactions) :
    db.loadTransaction hash = db.transactions.lookup hash := by
  obtain ⟨tx, htx⟩ := Option.isSome_iff_exists.mp (AList.lookup_isSome.mpr h)
  rw [Db.loadTransaction, htx]

omit [Primitives] [NodeCodec] in
theorem filterMap_map_eq {α β : Type} {f : α → β} {g : β → Option α} {l : List α}
    (h : ∀ a ∈ l, (g (f a)).isSome) :
    ((l.map f).filterMap g).length = l.length ∧
      ((l.map f).filterMap g = l ↔ ∀ a ∈ l, g (f a) = some a) := by
  induction l with
  | nil => simp
  | cons a l ih =>
    rw [List.forall_mem_cons] at h
    obtain ⟨b, hb⟩ := Option.isSome_iff_exists.mp h.1
    obtain ⟨length, same⟩ := ih h.2
    rw [List.map_cons, List.filterMap_cons_some hb, List.length_cons, length, List.length_cons,
      List.cons.injEq, same, List.forall_mem_cons, hb, Option.some.injEq]
    exact ⟨rfl, Iff.rfl⟩

/-- What has to hold of the indexes for a block at a height. -/
structure Indexed [Serialize BlockData] (db : Db) (height : UInt64)
    (fullBlock : FullBlock Block Confirmation Transaction) : Prop where
  block : db.loadBlock height = some fullBlock.block
  confirmations : db.loadConfirmations height = some fullBlock.confirmations
  located : fullBlock.block.data.height = height
  listed : db.transactionsHashes.lookup height =
    some (fullBlock.txs.map (WasmConfig.listedHash height))
  stored : ∀ tx ∈ fullBlock.txs, WasmConfig.listedHash height tx ∈ db.transactions

/-- An indexed block is served exactly if it has a transaction and each is the one that is
stored. -/
theorem Indexed.served_iff [Serialize BlockData] {height : UInt64}
    {fullBlock : FullBlock Block Confirmation Transaction} (h : Indexed db height fullBlock) :
    Served db height fullBlock ↔ fullBlock.txs ≠ [] ∧ ∀ tx ∈ fullBlock.txs,
      db.transactions.lookup (WasmConfig.listedHash height tx) = some tx := by
  obtain ⟨block, confirmations, txs⟩ := fullBlock
  obtain ⟨hblock, hconfirmations, hheight, hlisted, hstored⟩ := h
  simp only at hblock hconfirmations hheight hlisted hstored
  have loads : ∀ tx ∈ txs, db.loadTransaction (WasmConfig.listedHash height tx) =
      db.transactions.lookup (WasmConfig.listedHash height tx) :=
    fun tx htx => loadTransaction_of_mem (hstored tx htx)
  have found : ∀ tx ∈ txs, (db.loadTransaction (WasmConfig.listedHash height tx)).isSome := by
    intro tx htx
    rw [loads tx htx, AList.lookup_isSome]
    exact hstored tx htx
  obtain ⟨length, same⟩ := filterMap_map_eq found
  have hashes : db.loadTransactionsHashes height =
      if txs = [] then none else some (txs.map (WasmConfig.listedHash height)) := by
    rw [Db.loadTransactionsHashes, hlisted]
    simp
  by_cases empty : txs = []
  · simp only [empty, ne_eq, not_true_eq_false, false_and, iff_false]
    intro served
    have loaded := served.loaded
    simp [Db.loadFullBlock, hblock, hconfirmations, hheight, hashes, empty] at loaded
  · rw [if_neg empty] at hashes
    have full : db.loadFullBlock height = some ⟨block, confirmations,
        (txs.map (WasmConfig.listedHash height)).filterMap db.loadTransaction⟩ := by
      simp only [Db.loadFullBlock, hblock, hconfirmations, hheight, hashes, Option.bind_eq_bind,
        Option.bind_some]
      rw [if_neg (by rw [length, List.length_map]; exact fun different => different rfl)]
      rfl
    constructor
    · intro served
      have loaded := served.loaded
      rw [full, Option.some.injEq, FullBlock.mk.injEq] at loaded
      refine ⟨empty, fun tx htx => ?_⟩
      rw [← loads tx htx]
      exact same.mp loaded.2.2 tx htx
    · rintro ⟨-, current⟩
      constructor
      · rw [full, same.mpr fun tx htx => (loads tx htx).trans (current tx htx)]
      · intro blockHash askForBlock
        simp only [DbService.getConfirmations, DbService.blockToPeer, hblock, hconfirmations,
          hashes]
        split
        · split
          · exact ⟨_, rfl⟩
          · exact ⟨_, rfl⟩
        · exact ⟨_, rfl⟩

end Loads

/-! ## The chronicle of a run -/

/-- The block that the consensus service is told of after an execution. -/
def executedBlock : NodeOutput → Option Block
  | .msg .consensusService (.proposalAfterBuild block _ _) => some block
  | .msg .consensusService (.blockExecutionEnded block _) => some block
  | _ => none

/-- The blocks as they were consolidated, and the transactions that were executed for
the blocks that may be. -/
structure Chronicle where
  blocks : List (FullBlock Block Confirmation Transaction)
  executed : AList fun _ : Hash => List Transaction

namespace LiveNode

/-- The consolidation that a step starts. -/
def consolidation (e : LiveEvent W) : Option (Block × List Confirmation) :=
  match e.input with
  | .pass index =>
    match e.before.threads[index]? with
    | some (.msg .nodeInterface (.startBlockConsolidation block confirmations _)) =>
      some (block, confirmations)
    | _ => none
  | _ => none

/-- The block that a step has executed, with the transactions executed for it. -/
def execution (e : LiveEvent W) : Option (Block × List Transaction) :=
  match e.input, e.before.taken with
  | .finish, some taken => (e.out.head?.bind executedBlock).map fun block => (block, taken.txs)
  | _, _ => none

variable [Primitives] [Serialize BlockData]

def note (c : Chronicle) (e : LiveEvent W) : Chronicle :=
  match consolidation e, execution e with
  | some (block, confirmations), _ =>
    { c with blocks := c.blocks ++
        [⟨block, confirmations, (c.executed.lookup block.getHash).getD []⟩] }
  | none, some (block, txs) => { c with executed := c.executed.insert block.getHash txs }
  | none, none => c

/-- The chronicle from the first start on, with the genesis block that is announced there. -/
def chronicle (start : LiveNode W) (bootstrapTxs : List Transaction)
    (trace : List (LiveEvent W)) : Chronicle :=
  trace.foldl note ⟨start.announced.map fun block => ⟨block, [], bootstrapTxs⟩, ∅⟩

theorem chronicle_snoc (start : LiveNode W) (bootstrapTxs : List Transaction)
    (trace : List (LiveEvent W)) (e : LiveEvent W) :
    chronicle start bootstrapTxs (trace ++ [e]) = note (chronicle start bootstrapTxs trace) e := by
  rw [chronicle, List.foldl_append]
  rfl

/-! ## What the database has of the chronicle -/

/-- Transactions are told apart by these hashes. -/
def Consistent (hashOf : Transaction → Hash) (txs : List Transaction) : Prop :=
  ∀ tx ∈ txs, ∀ tx' ∈ txs, hashOf tx = hashOf tx' → tx = tx'

variable [NodeCodec]

/-- A fork of the database in which these transactions were executed for its next block. -/
structure ForkOf (db : Db) (forked : ExecutedFork) (txs : List Transaction) : Prop where
  executed : forked.executed = txs.map Transaction.getHash
  confirmations : forked.fork.working.confirmations = db.confirmations
  listed : forked.fork.working.transactionsHashes =
    db.transactionsHashes.insert (UInt64.ofNat db.blocks.length) (txs.map Transaction.getHash)
  stored : forked.fork.working.transactions =
    storeAll Transaction.getHash txs db.transactions
  consistent : Consistent Transaction.getHash txs

/-- The database has every block of the chronicle, and every fork adds one. -/
structure Recorded (c : Chronicle) (n : LiveNode W) : Prop where
  blocks : n.wasm.db.blocks = c.blocks.map FullBlock.block
  confirmations : n.wasm.db.confirmations = c.blocks.map FullBlock.confirmations
  listed : ∀ (i : Nat) fullBlock, c.blocks[i]? = some fullBlock →
    n.wasm.db.transactionsHashes.lookup (UInt64.ofNat i) =
      some (fullBlock.txs.map (WasmConfig.listedHash (UInt64.ofNat i)))
  unlisted : ∀ height : UInt64, n.wasm.db.blocks.length ≤ height.toNat →
    n.wasm.db.transactionsHashes.lookup height = none
  stored : ∀ (i : Nat) fullBlock, c.blocks[i]? = some fullBlock → ∀ tx ∈ fullBlock.txs,
    WasmConfig.listedHash (UInt64.ofNat i) tx ∈ n.wasm.db.transactions
  forks : ∀ key forked, n.wasm.forksCollector.lookup key = some forked →
    ∃ txs, c.executed.lookup key = some txs ∧ ForkOf n.wasm.db forked txs

section StoreAll

variable {hashOf : Transaction → Hash} {txs : List Transaction}
  {map : AList fun _ : Hash => Transaction} {hash : Hash}

omit [Primitives] [Serialize BlockData] [NodeCodec] in
theorem mem_storeAll : hash ∈ storeAll hashOf txs map ↔ hash ∈ map ∨ hash ∈ txs.map hashOf := by
  induction txs generalizing map with
  | nil => simp [storeAll]
  | cons tx txs ih =>
    rw [storeAll, List.foldl_cons]
    refine ih.trans ?_
    rw [AList.mem_insert, List.map_cons, List.mem_cons]
    tauto

omit [Primitives] [Serialize BlockData] [NodeCodec] in
theorem lookup_storeAll_of_notMem (h : hash ∉ txs.map hashOf) :
    (storeAll hashOf txs map).lookup hash = map.lookup hash := by
  induction txs generalizing map with
  | nil => rfl
  | cons tx txs ih =>
    rw [List.map_cons, List.mem_cons, not_or] at h
    rw [storeAll, List.foldl_cons]
    exact (ih h.2).trans (AList.lookup_insert_ne h.1)

omit [Primitives] [Serialize BlockData] [NodeCodec] in
/-- Each transaction is found that no other one is stored over. -/
theorem lookup_storeAll (consistent : Consistent hashOf txs) :
    ∀ tx ∈ txs, (storeAll hashOf txs map).lookup (hashOf tx) = some tx := by
  induction txs generalizing map with
  | nil => simp
  | cons tx txs ih =>
    have later : Consistent hashOf txs := fun a ha b hb =>
      consistent a (List.mem_cons_of_mem _ ha) b (List.mem_cons_of_mem _ hb)
    rw [List.forall_mem_cons]
    refine ⟨?_, ih later⟩
    by_cases again : hashOf tx ∈ txs.map hashOf
    · obtain ⟨tx', htx', same⟩ := List.mem_map.mp again
      have := consistent tx' (List.mem_cons_of_mem _ htx') tx List.mem_cons_self same
      subst this
      exact ih later tx' htx'
    · rw [storeAll, List.foldl_cons]
      exact (lookup_storeAll_of_notMem again).trans (AList.lookup_insert _)

end StoreAll

/-! ## The transactions that are executed -/

/-- Whatever is executed was collected from a pool that keeps each transaction under its
hash. -/
structure Collected (n : LiveNode W) : Prop where
  keyed : n.transactionService.Keyed
  sent : ∀ (block : Block) (round : UInt8) (txs : List Transaction),
    n.Pending (.msg .nodeInterface (.executeBlock block round txs)) →
      Consistent Transaction.getHash txs
  taken : ∀ taken, n.taken = some taken → Consistent Transaction.getHash taken.txs

section Collecting

variable [Serialize ConfirmationData] [Merkle] [Pcg32] [Wm W] {n n' : LiveNode W}
  {input : LiveInput W} {out : List NodeOutput} {block : Block} {round : UInt8}
  {txs : List Transaction}

theorem LiveStep.consistent (step : LiveStep n input out n') (keyed : n.transactionService.Keyed)
    (sent : .msg .nodeInterface (.executeBlock block round txs) ∈ out) :
    Consistent Transaction.getHash txs := by
  cases step with
  | consensus _ hcore =>
    exact (ConsensusService.handleMessages_sends (Drawing.handleMessages_ok hcore).1 _ sent).elim
  | leader _ => cases sent
  | block _ hblock _ =>
    have step := BlockService.handleMessages_step hblock
    rcases step.mail sent with mail | ⟨-, announces⟩ | ⟨-, begins⟩
    · cases mail
    · rcases announces with ⟨_, same⟩ | ⟨_, _, _, _, same⟩ <;> cases same
    · rcases begins with same | ⟨_, _, same⟩ <;> cases same
  | transactions _ hpool => exact TransactionService.executeBlock_consistent keyed hpool sent
  | begins _ _ _ => cases sent
  | consolidates _ _ hwasm =>
    obtain ⟨forked, players, -, rfl, -⟩ := WasmService.consolidateBlock_ok hwasm
    cases List.mem_singleton.mp sent
  | verifies _ _ => cases List.mem_singleton.mp sent
  | elects _ => simp at sent
  | waits _ => cases List.mem_singleton.mp sent
  | times _ => cases List.mem_singleton.mp sent
  | passes => cases sent
  | finishes _ hwasm =>
    rcases executeBlock_sends hwasm _ sent with ⟨_, _, h⟩ | ⟨_, _, h⟩ | ⟨_, _, _, h⟩ <;> cases h
  | enters _ entering =>
    rcases entering _ sent with h | ⟨_, h⟩
    · cases h
    · cases h
  | restarts _ => cases sent

theorem Collected.step (h : Collected n) (step : LiveStep n input out n') : Collected n' where
  keyed := by
    cases step with
    | transactions _ hpool => exact (TransactionService.handleMessages_pool hpool).keyed h.keyed
    | restarts hrestart =>
      obtain ⟨block, core, config, -, -, rfl⟩ := restart_ok hrestart
      intro hash entry hentry
      cases hentry
    | _ => exact h.keyed
  sent block round txs ho := by
    rcases step.pending ho with ho | ho
    · exact h.sent block round txs ho
    · exact step.consistent h.keyed ho
  taken taken htaken := by
    cases step with
    | leader _ =>
      obtain ⟨asked, hasked, rfl⟩ := Option.map_eq_some_iff.mp htaken
      exact h.taken asked hasked
    | begins thread _ _ =>
      cases htaken
      exact h.sent _ _ _ (.thread thread)
    | finishes _ _ => cases htaken
    | restarts hrestart =>
      obtain ⟨block, core, config, -, -, rfl⟩ := restart_ok hrestart
      cases htaken
    | _ => exact h.taken taken htaken

end Collecting

/-! ## Every step -/

section Steps

variable [Serialize ConfirmationData] [Merkle] [Pcg32] [Wm W] {n n' : LiveNode W}
  {input : LiveInput W} {out : List NodeOutput} {tip : Option Block} {c : Chronicle}

/-- A consolidation that starts is carried out. -/
theorem consolidation_ok {block : Block}
    {confirmations : List Confirmation} (h : n.handle input = .ok (n', out))
    (hc : consolidation ⟨n, input, out, n'⟩ = some (block, confirmations)) :
    ∃ forked, n.wasm.forksCollector.lookup block.getHash = some forked ∧
      n'.wasm.db = forked.fork.working.storeBlock block confirmations ∧
      n'.wasm.forksCollector = ∅ := by
  unfold consolidation at hc
  split at hc
  · next index hinput =>
    split at hc
    · next given confirmations' txsHashes hthread =>
      cases hc
      cases hinput
      simp only [handle, pass, hthread, proceed] at h
      split at h
      · cases h
      · unfold execute at h
        split at h
        · cases h
        · next wasm out' hwasm =>
          cases h
          obtain ⟨forked, players, hforked, -, rfl, -⟩ := WasmService.consolidateBlock_ok hwasm
          exact ⟨forked, hforked, rfl, rfl⟩
    · cases hc
  · cases hc

/-- A block that is executed leaves a fork. -/
theorem execution_ok {given : Block} {txs : List Transaction} (ordered : Ordered n tip)
    (step : LiveStep n input out n') (he : execution ⟨n, input, out, n'⟩ = some (given, txs)) :
    ∃ block round leader roots, n.taken = some ⟨block, round, txs, some leader⟩ ∧
      result (n.wasm.config.executeInFork block txs (some leader)) n.wasm.begin = .ok roots ∧
      n'.wasm.db = n.wasm.db ∧ n'.wasm.forksCollector =
        n.wasm.forksCollector.insert given.getHash (forkAfter n.wasm block txs (some leader)) := by
  cases step with
  | @finishes block round taken leader wasm _ htaken hwasm =>
    simp only [execution, htaken] at he
    cases executeBlock_step (ordered.taken _ htaken).positive hwasm with
    | dropped _ => cases he
    | @kept _ _ given' roots _ _ hroots _ _ sent =>
      have same : (given', taken) = (given, txs) := by
        rcases sent with rfl | rfl
        · exact Option.some.inj he
        · exact Option.some.inj he
      cases same
      exact ⟨block, round, leader, roots, htaken, hroots, rfl, rfl⟩
  | enters entry _ => cases input <;> first | cases he | cases entry
  | _ => cases he

/-- Nothing else changes the database, or adds a fork. -/
theorem LiveStep.keeps_db (ordered : Ordered n tip) (step : LiveStep n input out n')
    (hc : consolidation ⟨n, input, out, n'⟩ = none) (he : execution ⟨n, input, out, n'⟩ = none) :
    n'.wasm.db = n.wasm.db ∧ ∀ key forked, n'.wasm.forksCollector.lookup key = some forked →
      n.wasm.forksCollector.lookup key = some forked := by
  cases step with
  | consolidates hthread _ _ =>
    simp only [consolidation, hthread] at hc
    cases hc
  | finishes htaken hwasm =>
    simp only [execution, htaken] at he
    cases executeBlock_step (ordered.taken _ htaken).positive hwasm with
    | dropped _ => exact ⟨rfl, fun _ _ h => h⟩
    | kept _ _ _ _ sent =>
      rcases sent with rfl | rfl
      · cases he
      · cases he
  | restarts hrestart =>
    obtain ⟨block, core, config, -, -, rfl⟩ := restart_ok hrestart
    refine ⟨rfl, fun key forked hforked => ?_⟩
    cases hforked
  | _ => exact ⟨rfl, fun _ _ h => h⟩

omit [Serialize BlockData] [Serialize ConfirmationData] [Merkle] [Pcg32] [Wm W] in
theorem Recorded.length (h : Recorded c n) : c.blocks.length = n.wasm.db.blocks.length := by
  rw [h.blocks, List.length_map]

omit [Serialize ConfirmationData] [Merkle] [Pcg32] [Wm W] in
/-- A fork was made for the block after the last one. -/
theorem forkOf_execution [Merkle] [Wm W] (h : Recorded c n) {block : Block}
    {txs : List Transaction} {leader : Option String} {roots : Roots}
    (onTop : Extends n.wasm.db block) (consistent : Consistent Transaction.getHash txs)
    (hroots : result (n.wasm.config.executeInFork block txs leader) n.wasm.begin = .ok roots) :
    ForkOf n.wasm.db (forkAfter n.wasm block txs leader) txs := by
  obtain ⟨stored, listed⟩ := forkAfter_writes hroots
  have next : block.data.height = UInt64.ofNat n.wasm.db.blocks.length := by
    rw [← onTop.height, UInt64.ofNat_toNat]
  have fresh : n.wasm.db.transactionsHashes.lookup block.data.height = none :=
    h.unlisted _ (by rw [onTop.height])
  have hashes : txs.map (WasmConfig.listedHash block.data.height) =
      txs.map Transaction.getHash :=
    List.map_congr_left fun tx _ => if_pos onTop.positive
  rw [fresh, hashes, Option.getD_none, List.nil_append, next] at listed
  exact
    { executed := (n.wasm.config.executeInFork_executes block txs leader n.wasm.begin roots
        hroots).executed
      confirmations := forkAfter_confirmations
      listed := listed
      stored := stored
      consistent := consistent }

omit [Serialize ConfirmationData] [Merkle] [Pcg32] [Wm W] in
/-- The block after the last one is not the genesis block, and its height fits. -/
theorem next_height (ordered : Ordered n tip) {key : Hash} {forked : ExecutedFork}
    (hforked : n.wasm.forksCollector.lookup key = some forked) :
    n.wasm.db.blocks.length + 1 < 2 ^ 64 ∧
      ∀ tx, WasmConfig.listedHash (UInt64.ofNat n.wasm.db.blocks.length) tx = tx.getHash := by
  obtain ⟨-, given, -, onTop⟩ := ordered.forks _ _ hforked
  have room := onTop.room
  have positive := onTop.positive
  rw [← onTop.height, UInt64.ofNat_toNat]
  exact ⟨room, fun tx => if_pos positive⟩

omit [Serialize ConfirmationData] [Merkle] [Pcg32] [Wm W] in
/-- A consolidation adds the block to the chronicle and to the database. -/
theorem Recorded.consolidate (h : Recorded c n) (ordered : Ordered n tip) {block : Block}
    {confirmations : List Confirmation} {forked : ExecutedFork} {txs : List Transaction}
    (hforked : n.wasm.forksCollector.lookup block.getHash = some forked)
    (fork : ForkOf n.wasm.db forked txs)
    (db : n'.wasm.db = forked.fork.working.storeBlock block confirmations)
    (forks : n'.wasm.forksCollector = ∅) :
    Recorded ⟨c.blocks ++ [⟨block, confirmations, txs⟩], c.executed⟩ n' := by
  obtain ⟨blocks, -⟩ := ordered.forks _ _ hforked
  obtain ⟨room, last⟩ := next_height ordered hforked
  have length := h.length
  have small : ∀ i ≤ n.wasm.db.blocks.length, (UInt64.ofNat i).toNat = i :=
    fun i hi => UInt64.toNat_ofNat_of_lt' (show i < 2 ^ 64 by omega)
  have apart : ∀ height : UInt64, height.toNat ≠ n.wasm.db.blocks.length →
      n'.wasm.db.transactionsHashes.lookup height = n.wasm.db.transactionsHashes.lookup height := by
    intro height other
    rw [db]
    refine (congrArg (AList.lookup height) fork.listed).trans (AList.lookup_insert_ne ?_)
    rintro rfl
    exact other (small _ le_rfl)
  have kept : ∀ hash, hash ∈ n'.wasm.db.transactions ↔
      hash ∈ n.wasm.db.transactions ∨ hash ∈ txs.map Transaction.getHash := by
    intro hash
    rw [db]
    exact (Iff.of_eq (congrArg (hash ∈ ·) fork.stored)).trans mem_storeAll
  exact
    { blocks := by
        rw [db, List.map_append, ← h.blocks]
        exact congrArg (· ++ [block]) blocks
      confirmations := by
        rw [db, List.map_append, ← h.confirmations]
        exact congrArg (· ++ [confirmations]) fork.confirmations
      listed := fun i fullBlock hi => by
        rcases getElem?_concat_cases hi with ⟨below, hi⟩ | ⟨rfl, rfl⟩
        · rw [length] at below
          rw [apart _ (by rw [small i below.le]; exact below.ne)]
          exact h.listed i fullBlock hi
        · rw [length, List.map_congr_left fun tx _ => last tx, db]
          exact (congrArg (AList.lookup _) fork.listed).trans (AList.lookup_insert _)
      unlisted := fun height above => by
        have more : n'.wasm.db.blocks.length = n.wasm.db.blocks.length + 1 := by
          rw [db, ← blocks]
          exact List.length_append
        rw [apart height (by omega)]
        exact h.unlisted height (by omega)
      stored := fun i fullBlock hi tx htx => by
        rw [kept]
        rcases getElem?_concat_cases hi with ⟨-, hi⟩ | ⟨rfl, rfl⟩
        · exact .inl (h.stored i fullBlock hi tx htx)
        · rw [length, last]
          exact .inr (List.mem_map_of_mem htx)
      forks := fun key forked hforked => by
        rw [forks] at hforked
        cases hforked }

theorem Recorded.step (h : Recorded c n) (ordered : Ordered n tip) (collected : Collected n)
    (hstep : n.handle input = .ok (n', out)) : Recorded (note c ⟨n, input, out, n'⟩) n' := by
  unfold note
  split
  · next block confirmations _ hc =>
    obtain ⟨forked, hforked, db, forks⟩ := consolidation_ok hstep hc
    obtain ⟨txs, htxs, fork⟩ := h.forks _ _ hforked
    rw [htxs]
    exact h.consolidate ordered hforked fork db forks
  · next given txs _ he =>
    obtain ⟨block, round, leader, roots, htaken, hroots, db, forks⟩ :=
      execution_ok ordered (handle_step hstep) he
    have fork := forkOf_execution h (ordered.taken _ htaken) (collected.taken _ htaken) hroots
    refine ⟨db ▸ h.blocks, db ▸ h.confirmations, db ▸ h.listed, db ▸ h.unlisted, db ▸ h.stored, ?_⟩
    intro key forked hforked
    rw [forks] at hforked
    rw [db]
    by_cases hkey : key = given.getHash
    · subst hkey
      rw [AList.lookup_insert] at hforked
      cases hforked
      exact ⟨txs, AList.lookup_insert _, fork⟩
    · rw [AList.lookup_insert_ne hkey] at hforked
      obtain ⟨txs', htxs', fork'⟩ := h.forks key forked hforked
      exact ⟨txs', (AList.lookup_insert_ne hkey).trans htxs', fork'⟩
  · next hc he =>
    obtain ⟨db, forks⟩ := (handle_step hstep).keeps_db ordered hc he
    refine ⟨db ▸ h.blocks, db ▸ h.confirmations, db ▸ h.listed, db ▸ h.unlisted, db ▸ h.stored, ?_⟩
    intro key forked hforked
    rw [db]
    exact h.forks key forked (forks key forked hforked)

end Steps

/-! ## Every run -/

/-- Every block of the chronicle is served as it was consolidated. -/
def AllServed (c : Chronicle) (db : Db) : Prop :=
  ∀ (i : Nat) fullBlock, c.blocks[i]? = some fullBlock → Served db (UInt64.ofNat i) fullBlock

/-- A consolidation is of a block with a transaction, and stores over no transaction that
a block lists. -/
def Preserves (e : LiveEvent W) : Prop :=
  ∀ block confirmations forked, consolidation e = some (block, confirmations) →
    e.before.wasm.forksCollector.lookup block.getHash = some forked →
    forked.executed ≠ [] ∧ ∀ height hashes,
      e.before.wasm.db.loadTransactionsHashes height = some hashes → ∀ hash ∈ hashes,
        forked.fork.working.transactions.lookup hash = e.before.wasm.db.transactions.lookup hash

section Runs

variable [Serialize ConfirmationData] [Merkle] [Pcg32] [Wm W] {n n' : LiveNode W}
  {input : LiveInput W} {out : List NodeOutput} {tip : Option Block} {c : Chronicle}

omit [Serialize ConfirmationData] [Merkle] [Pcg32] [Wm W] in
theorem Recorded.served_iff (h : Recorded c n) (ordered : Ordered n tip) {i : Nat}
    {fullBlock : FullBlock Block Confirmation Transaction} (hi : c.blocks[i]? = some fullBlock) :
    Served n.wasm.db (UInt64.ofNat i) fullBlock ↔ fullBlock.txs ≠ [] ∧ ∀ tx ∈ fullBlock.txs,
      n.wasm.db.transactions.lookup (WasmConfig.listedHash (UInt64.ofNat i) tx) = some tx := by
  have below : i < n.wasm.db.blocks.length := by
    rw [← h.length]
    exact (List.getElem?_eq_some_iff.mp hi).1
  have room := ordered.room
  have small : (UInt64.ofNat i).toNat = i :=
    UInt64.toNat_ofNat_of_lt' (show i < 2 ^ 64 by omega)
  have inner : UInt64.ofNat i ≠ UInt64.ofNat (2 ^ 64 - 1) := by
    intro last
    have := congrArg UInt64.toNat last
    rw [small] at this
    have : i = 2 ^ 64 - 1 := this
    omega
  have hblock : n.wasm.db.blocks[i]? = some fullBlock.block := by
    rw [h.blocks, List.getElem?_map, hi]
    rfl
  refine Indexed.served_iff ⟨?_, ?_, ?_, h.listed i fullBlock hi, h.stored i fullBlock hi⟩
  · rw [Db.loadBlock, if_neg inner, small]
    exact hblock
  · rw [Db.loadConfirmations, if_neg inner, small, h.confirmations, List.getElem?_map, hi]
    rfl
  · rw [← UInt64.toNat_inj, small]
    exact ordered.heights i _ hblock

omit [Serialize BlockData] [Serialize ConfirmationData] [Merkle] [Pcg32] [Wm W] in
/-- A list of hashes that is found is that of a block of the chronicle. -/
theorem Recorded.exists_listed (h : Recorded c n) {height : UInt64} {hashes : List Hash}
    (hlisted : n.wasm.db.loadTransactionsHashes height = some hashes) :
    ∃ (i : Nat) (fullBlock : FullBlock Block Confirmation Transaction),
      c.blocks[i]? = some fullBlock ∧
        hashes = fullBlock.txs.map (WasmConfig.listedHash (UInt64.ofNat i)) := by
  unfold Db.loadTransactionsHashes at hlisted
  dsimp only at hlisted
  split at hlisted
  · cases hlisted
  · next found =>
    have below : height.toNat < c.blocks.length := by
      rw [h.length]
      by_contra above
      rw [h.unlisted height (not_lt.mp above)] at found
      exact found rfl
    have hi := List.getElem?_eq_getElem below
    have listed := h.listed _ _ hi
    rw [UInt64.ofNat_toNat] at listed
    rw [listed] at hlisted
    refine ⟨height.toNat, _, hi, ?_⟩
    rw [UInt64.ofNat_toNat]
    exact (Option.some.inj hlisted).symm

omit [Primitives] [Serialize BlockData] [NodeCodec] [Serialize ConfirmationData] [Merkle] [Pcg32]
  [Wm W] in
theorem loadTransactionsHashes_of_lookup {db : Db} {height : UInt64} {hashes : List Hash}
    (h : db.transactionsHashes.lookup height = some hashes) (some : hashes ≠ []) :
    db.loadTransactionsHashes height = .some hashes := by
  simp [Db.loadTransactionsHashes, h, some]

omit [Serialize ConfirmationData] [Merkle] [Pcg32] [Wm W] in
/-- A consolidation leaves every block served exactly if it preserves them. -/
theorem Recorded.allServed_consolidate (h : Recorded c n) (ordered : Ordered n tip)
    {tip' : Option Block} (ordered' : Ordered n' tip') (serves : AllServed c n.wasm.db) {block : Block}
    {confirmations : List Confirmation} {forked : ExecutedFork} {txs : List Transaction}
    (hforked : n.wasm.forksCollector.lookup block.getHash = some forked)
    (fork : ForkOf n.wasm.db forked txs)
    (db : n'.wasm.db = forked.fork.working.storeBlock block confirmations)
    (h' : Recorded ⟨c.blocks ++ [⟨block, confirmations, txs⟩], c.executed⟩ n') :
    AllServed ⟨c.blocks ++ [⟨block, confirmations, txs⟩], c.executed⟩ n'.wasm.db ↔
      forked.executed ≠ [] ∧ ∀ height hashes,
        n.wasm.db.loadTransactionsHashes height = some hashes → ∀ hash ∈ hashes,
          forked.fork.working.transactions.lookup hash =
            n.wasm.db.transactions.lookup hash := by
  have transactions : n'.wasm.db.transactions = forked.fork.working.transactions := by
    rw [db]
    rfl
  have last : (c.blocks ++ [⟨block, confirmations, txs⟩])[c.blocks.length]? =
      some ⟨block, confirmations, txs⟩ := by simp
  have earlier : ∀ {i : Nat} {fullBlock : FullBlock Block Confirmation Transaction},
      c.blocks[i]? = some fullBlock →
      (c.blocks ++ [⟨block, confirmations, txs⟩])[i]? = some fullBlock := by
    intro i fullBlock hi
    rw [List.getElem?_append_left (List.getElem?_eq_some_iff.mp hi).1]
    exact hi
  have executed : forked.executed ≠ [] ↔ txs ≠ [] := by
    rw [fork.executed, ne_eq, List.map_eq_nil_iff]
  constructor
  · intro serves'
    refine ⟨executed.mpr ((h'.served_iff ordered' last).mp (serves' _ _ last)).1, ?_⟩
    intro height hashes hlisted hash hhash
    obtain ⟨i, fullBlock, hi, rfl⟩ := h.exists_listed hlisted
    obtain ⟨tx, htx, rfl⟩ := List.mem_map.mp hhash
    have now := ((h'.served_iff ordered' (earlier hi)).mp (serves' _ _ (earlier hi))).2 tx htx
    have before := ((h.served_iff ordered hi).mp (serves _ _ hi)).2 tx htx
    rw [← transactions, now, before]
  · rintro ⟨some, same⟩ i fullBlock hi
    rw [h'.served_iff ordered' hi, transactions]
    by_cases below : i < c.blocks.length
    · rw [List.getElem?_append_left below] at hi
      obtain ⟨others, stored⟩ := (h.served_iff ordered hi).mp (serves _ _ hi)
      refine ⟨others, fun tx htx => ?_⟩
      have hlisted := loadTransactionsHashes_of_lookup (h.listed i fullBlock hi)
        (by rwa [ne_eq, List.map_eq_nil_iff])
      exact (same _ _ hlisted _ (List.mem_map_of_mem htx)).trans (stored tx htx)
    · obtain rfl : i = c.blocks.length := by
        have := (List.getElem?_eq_some_iff.mp hi).1
        rw [List.length_append, List.length_singleton] at this
        omega
      rw [last] at hi
      cases hi
      refine ⟨executed.mp some, fun tx htx => ?_⟩
      rw [h.length, (next_height ordered hforked).2, fork.stored]
      exact lookup_storeAll fork.consistent tx htx

theorem Recorded.allServed_step (h : Recorded c n) (ordered : Ordered n tip) {tip' : Option Block}
    (ordered' : Ordered n' tip') (collected : Collected n) (serves : AllServed c n.wasm.db)
    (hstep : n.handle input = .ok (n', out)) :
    AllServed (note c ⟨n, input, out, n'⟩) n'.wasm.db ↔ Preserves ⟨n, input, out, n'⟩ := by
  have h' := h.step ordered collected hstep
  have step := handle_step hstep
  cases hc : consolidation ⟨n, input, out, n'⟩ with
  | some pair =>
    obtain ⟨block, confirmations⟩ := pair
    obtain ⟨forked, hforked, db, forks⟩ := consolidation_ok hstep hc
    obtain ⟨txs, htxs, fork⟩ := h.forks _ _ hforked
    have noted : note c ⟨n, input, out, n'⟩ =
        ⟨c.blocks ++ [⟨block, confirmations, txs⟩], c.executed⟩ := by
      simp only [note, hc, htxs, Option.getD_some]
    rw [noted] at h' ⊢
    rw [h.allServed_consolidate ordered ordered' serves hforked fork db h']
    constructor
    · intro kept block' confirmations' forked' hc' hforked'
      cases hc.symm.trans hc'
      cases hforked.symm.trans hforked'
      exact kept
    · exact fun kept => kept block confirmations forked hc hforked
  | none =>
    have preserves : Preserves ⟨n, input, out, n'⟩ := by
      intro block confirmations forked hc'
      cases hc.symm.trans hc'
    refine iff_of_true ?_ preserves
    cases he : execution ⟨n, input, out, n'⟩ with
    | some pair =>
      obtain ⟨given, txs⟩ := pair
      obtain ⟨_, _, _, _, -, -, db, -⟩ := execution_ok ordered step he
      rw [note, hc, he, db]
      exact serves
    | none =>
      rw [note, hc, he, (step.keeps_db ordered hc he).1]
      exact serves

omit [Serialize ConfirmationData] in
/-- The first start: the genesis block is in the database, and its transactions under the
hashes that it lists. -/
theorem recorded_of_bootstrap {env : Env} {keypair : TrinciKeyPair} {nodeId : String} {wm : W}
    {accounts : Accounts} {bootstrapTxs : List Transaction} {networkName : String}
    (h : bootstrap env keypair nodeId wm accounts bootstrapTxs networkName = .ok n) :
    Recorded (chronicle n bootstrapTxs []) n ∧
      (AllServed (chronicle n bootstrapTxs []) n.wasm.db ↔
        Consistent (WasmConfig.listedHash 0) bootstrapTxs) := by
  have ordered := ordered_of_started ⟨h⟩
  obtain ⟨core, wasm, out, named, some, -, hwasm, sent, rfl⟩ := bootstrap_ok h
  obtain ⟨given, players, roots, settings, height, hroots, db, forks, -, rfl⟩ :=
    executeGenesisBlock_step rfl (UInt64.lt_irrefl 0) named hwasm sent
  obtain ⟨stored, listed⟩ := forkAfter_writes hroots
  have part {α : Type} {f : Db → α}
      (configured : ∀ db id config, f (db.storeConfiguration id config) = f db)
      (stored : ∀ db hash tx, f (db.storeTransaction hash tx) = f db) :=
    (congrArg f db).trans (settledGenesis_apart configured stored _ settings bootstrapTxs)
  have blocks : wasm.db.blocks = [given] :=
    (part (fun _ _ _ => rfl) fun _ _ _ => rfl).trans (congrArg (· ++ [given]) forkAfter_blocks)
  have confirmations : wasm.db.confirmations = [[]] :=
    (part (fun _ _ _ => rfl) fun _ _ _ => rfl).trans (congrArg (· ++ [[]]) forkAfter_confirmations)
  have hashes : wasm.db.transactionsHashes =
      AList.insert (β := fun _ : UInt64 => List Hash) 0
        (bootstrapTxs.map (WasmConfig.listedHash 0)) ∅ :=
    (part (fun _ _ _ => rfl) fun _ _ _ => rfl).trans listed
  have transactions : wasm.db.transactions =
      storeAll (WasmConfig.listedHash 0) bootstrapTxs
        (storeAll Transaction.getHash bootstrapTxs ∅) :=
    (congrArg Db.transactions db).trans ((settledGenesis_transactions _ settings bootstrapTxs).trans
      (congrArg (storeAll _ bootstrapTxs) stored))
  have only : ∀ (i : Nat) fullBlock,
      ([⟨given, [], bootstrapTxs⟩] : List (FullBlock Block Confirmation Transaction))[i]? =
        .some fullBlock → i = 0 ∧ fullBlock = ⟨given, [], bootstrapTxs⟩ := by
    intro i fullBlock hi
    obtain ⟨below, rfl⟩ := List.getElem?_eq_some_iff.mp hi
    obtain rfl : i = 0 := by simpa using below
    exact ⟨rfl, rfl⟩
  have recorded : Recorded ⟨[⟨given, [], bootstrapTxs⟩], ∅⟩ (({
      consensus := core.consensus
      blockService := BlockService.start keypair nodeId (none : Option Block)
      transactionService := TransactionService.start nodeId
      wasm := wasm
      toConsensus := []
      toBlock := []
      toTransactions := []
      threads := []
      taken := none } : LiveNode W).post
      [.msg .blockService (.blockConsolidated given
        (bootstrapTxs.map (WasmConfig.listedHash 0)) players)]) :=
    { blocks := blocks
      confirmations := confirmations
      listed := fun i fullBlock hi => by
        obtain ⟨rfl, rfl⟩ := only i fullBlock hi
        exact (congrArg (AList.lookup _) hashes).trans (AList.lookup_insert _)
      unlisted := fun height above => by
        refine (congrArg (AList.lookup height) hashes).trans ?_
        rw [AList.lookup_insert_ne]
        · rfl
        · rintro rfl
          have : wasm.db.blocks.length ≤ 0 := above
          rw [blocks] at this
          cases this
      stored := fun i fullBlock hi tx htx => by
        obtain ⟨rfl, rfl⟩ := only i fullBlock hi
        refine (Iff.of_eq (congrArg (_ ∈ ·) transactions)).mpr (mem_storeAll.mpr (.inr ?_))
        exact List.mem_map_of_mem htx
      forks := fun key forked hforked => by
        have : wasm.forksCollector.lookup key = .some forked := hforked
        rw [forks] at this
        cases this }
  refine ⟨recorded, fun serves tx htx tx' htx' same => ?_, fun consistent i fullBlock hi => ?_⟩
  · have found := ((recorded.served_iff ordered rfl).mp (serves 0 ⟨given, [], bootstrapTxs⟩ rfl)).2
    have same : WasmConfig.listedHash (UInt64.ofNat 0) tx =
        WasmConfig.listedHash (UInt64.ofNat 0) tx' := same
    have here := found tx htx
    rw [same, found tx' htx'] at here
    exact (Option.some.inj here).symm
  · refine (recorded.served_iff ordered hi).mpr ?_
    obtain ⟨rfl, rfl⟩ := only i fullBlock hi
    refine ⟨some, fun tx htx => ?_⟩
    exact (congrArg (AList.lookup _) transactions).trans (lookup_storeAll consistent tx htx)

omit [Serialize ConfirmationData] in
theorem collected_of_started (h : Started n) : Collected n := by
  obtain ⟨hstart⟩ := h
  obtain ⟨core, wasm, out, named, -, -, hwasm, sent, rfl⟩ := bootstrap_ok hstart
  obtain ⟨given, players, -, -, -, -, rfl⟩ :=
    executeGenesisBlock_ok rfl (UInt64.lt_irrefl 0) named hwasm sent
  refine ⟨fun hash entry hentry => ?_, fun block round txs ho => ?_, fun _ htaken => ?_⟩
  · cases hentry
  · cases ho with
    | thread ho => cases ho
  · cases htaken

section Started

variable {env : Env} {keypair : TrinciKeyPair} {nodeId : String} {wm : W} {accounts : Accounts}
  {bootstrapTxs : List Transaction} {networkName : String} {start : LiveNode W}
  {trace : List (LiveEvent W)}

/-- After every run the database has the blocks of its chronicle. -/
theorem run_recorded (hashed : HeightsHashed)
    (hstart : bootstrap env keypair nodeId wm accounts bootstrapTxs networkName = .ok start)
    (run : Run (Computes handle) start trace n) : ∃ tip, Ordered n tip ∧ Collected n ∧
      Recorded (chronicle start bootstrapTxs trace) n := by
  induction run with
  | nil =>
    exact ⟨none, ordered_of_started ⟨hstart⟩, collected_of_started ⟨hstart⟩,
      (recorded_of_bootstrap hstart).1⟩
  | snoc run hstep ih =>
    obtain ⟨tip, ordered, collected, recorded⟩ := ih
    have step := handle_step hstep
    refine ⟨_, ordered.step hashed step, collected.step step, ?_⟩
    rw [chronicle_snoc]
    exact recorded.step ordered collected hstep

/-- In every run all blocks are served as they were consolidated exactly as long as the
genesis transactions are told apart and consolidations preserve them. -/
theorem run_allServed_iff (hashed : HeightsHashed)
    (hstart : bootstrap env keypair nodeId wm accounts bootstrapTxs networkName = .ok start)
    (run : Run (Computes handle) start trace n) :
    (AllServed (chronicle start bootstrapTxs []) start.wasm.db ∧
        Along (fun earlier e =>
          AllServed (chronicle start bootstrapTxs (earlier ++ [e])) e.after.wasm.db) trace) ↔
      Consistent (WasmConfig.listedHash 0) bootstrapTxs ∧
        Along (fun _ e => Preserves e) trace := by
  -- what is served before a step decides whether the step has to preserve it
  suffices both : _ ∧ ((AllServed (chronicle start bootstrapTxs []) start.wasm.db ∧
      Along (fun earlier e =>
        AllServed (chronicle start bootstrapTxs (earlier ++ [e])) e.after.wasm.db) trace) →
      AllServed (chronicle start bootstrapTxs trace) n.wasm.db) from both.1
  induction run with
  | nil =>
    refine ⟨and_congr (recorded_of_bootstrap hstart).2 ?_, fun served => served.1⟩
    exact iff_of_true (along_nil _) (along_nil _)
  | snoc run hstep ih =>
    obtain ⟨same, last⟩ := ih
    obtain ⟨tip, ordered, collected, recorded⟩ := run_recorded hashed hstart run
    have ordered' := ordered.step hashed (handle_step hstep)
    have step := fun served =>
      recorded.allServed_step ordered ordered' collected (last served) hstep
    rw [along_snoc, along_snoc, chronicle_snoc, ← and_assoc, ← and_assoc]
    refine ⟨⟨?_, ?_⟩, fun served => served.2⟩
    · rintro ⟨served, now⟩
      exact ⟨same.mp served, (step served).mp now⟩
    · rintro ⟨preserves, keeps⟩
      have served := same.mpr preserves
      exact ⟨served, (step served).mpr keeps⟩

omit [Serialize BlockData] [Serialize ConfirmationData] [Merkle] [Pcg32] in
/-- A fork keeps the transactions that were not executed in it. -/
theorem ForkOf.keeps {db : Db} {forked : ExecutedFork} {txs : List Transaction} {hash : Hash}
    (fork : ForkOf db forked txs) (other : hash ∉ forked.executed) :
    forked.fork.working.transactions.lookup hash = db.transactions.lookup hash := by
  rw [fork.stored]
  rw [fork.executed] at other
  exact lookup_storeAll_of_notMem other

/-- A consolidation is of a block with transactions that no block lists. -/
def AddsNew (e : LiveEvent W) : Prop :=
  ∀ block confirmations forked, consolidation e = some (block, confirmations) →
    e.before.wasm.forksCollector.lookup block.getHash = some forked →
    forked.executed ≠ [] ∧ ∀ height hashes,
      e.before.wasm.db.loadTransactionsHashes height = some hashes →
        ∀ hash ∈ hashes, hash ∉ forked.executed

/-- What is executed once is preserved. -/
theorem run_preserves_of_addsNew (hashed : HeightsHashed)
    (hstart : bootstrap env keypair nodeId wm accounts bootstrapTxs networkName = .ok start)
    (run : Run (Computes handle) start trace n) (new : Along (fun _ e => AddsNew e) trace) :
    Along (fun _ e => Preserves e) trace := by
  refine run.along (fun trace n => Run (Computes handle) start trace n) .nil
    (fun _ _ _ _ _ run hstep _ => run.snoc hstep) ?_ new
  intro trace n input out n' run _ new block confirmations forked hc hforked
  obtain ⟨some, others⟩ := new block confirmations forked hc hforked
  obtain ⟨-, -, -, recorded⟩ := run_recorded hashed hstart run
  obtain ⟨txs, -, fork⟩ := recorded.forks _ _ hforked
  exact ⟨some, fun height hashes listed hash hhash =>
    fork.keeps (others height hashes listed hash hhash)⟩

end Started

end Runs

end LiveNode

namespace Sample.Duo

open LiveNode

/-- The hash of the block that bob has executed after these inputs. -/
def executedHash (inputs : List (LiveInput Willing)) : Hash :=
  match start 2 with
  | .error _ => Hash.default
  | .ok node =>
    match exec LiveNode.handle node inputs with
    | .error _ => Hash.default
    | .ok (_, last) => ((last.wasm.forksCollector.keys).head?).getD Hash.default

/-- Bob has built a block and executes it. -/
def executes : List (LiveInput Willing) :=
  [.transactions fun _ => 0, .pass 1, .consensus env, .finish, .consensus env]

/-- Alice confirms what bob has executed, and he consolidates it. -/
def consolidates (inputs : List (LiveInput Willing)) : List (LiveInput Willing) :=
  inputs ++
    [.arrive (.msg .consensusService (.blockConfirmationFromPeer (Confirmation.sign (keypair 1) 0
        (Confirmation.new (executedHash inputs) 1 0 (keypair 1).publicKey)))),
      .consensus env, .pass 1]

/-- The block of bob that the large transaction leaves empty. -/
def consolidatesEmpty : List (LiveInput Willing) :=
  consolidates (buildsFrom (.msg .transactionService (.addTx bigTx 1048465 none)) ++ executes)

/-- Whether the block after the genesis block is not read back. -/
def unserved (n : LiveNode Willing) : Bool :=
  (n.wasm.db.loadBlock 1).isSome && (n.wasm.db.loadFullBlock 1).isNone &&
    match DbService.getConfirmations n.wasm.db 1 Hash.default true with
    | .error _ => true
    | .ok _ => false

/-- An empty block is consolidated and cannot be served. -/
theorem empty_block_not_served : ∃ node trace n, start 2 = .ok node ∧
    Run (Computes handle) node trace n ∧ trace.map Event.input = consolidatesEmpty ∧
    n.wasm.db.loadFullBlock 1 = none ∧
    DbService.getConfirmations n.wasm.db 1 Hash.default true =
      .error .missingTransactionsHashes ∧
    ¬ (AllServed (chronicle node [unitOf 1 (keypair 1)] []) node.wasm.db ∧
      Along (fun earlier e => AllServed (chronicle node [unitOf 1 (keypair 1)] (earlier ++ [e]))
        e.after.wasm.db) trace) := by
  obtain ⟨node, trace, n, hstart, run, check, inputs⟩ := exists_run_from 2 consolidatesEmpty
    (fun _ n => unserved n) (by decide +kernel)
  simp only [unserved, Bool.and_eq_true, Option.isSome_iff_exists, Option.isNone_iff_eq_none]
    at check
  obtain ⟨⟨⟨block, hblock⟩, unread⟩, refused⟩ := check
  have panics : DbService.getConfirmations n.wasm.db 1 Hash.default true =
      .error .missingTransactionsHashes := by
    split at refused
    · next p hp => rw [hp]
    · cases refused
  refine ⟨node, trace, n, hstart, run, inputs, unread, panics, ?_⟩
  rintro ⟨first, served⟩
  obtain ⟨-, -, -, recorded⟩ := run_recorded heightsHashed hstart run
  have second : n.wasm.db.blocks[1]? = some block := hblock
  rw [recorded.blocks, List.getElem?_map, Option.map_eq_some_iff] at second
  obtain ⟨fullBlock, second, -⟩ := second
  have last : AllServed (chronicle node [unitOf 1 (keypair 1)] trace) n.wasm.db := by
    cases run with
    | nil => exact first
    | snoc _ _ => exact (along_snoc.mp served).2
  cases unread.symm.trans (last 1 fullBlock second).loaded

/-- Bob consolidates a block with one transaction. -/
def consolidatesSmall : List (LiveInput Willing) :=
  consolidates (buildsSmall ++ executes)

/-- What bob sends to his peers once he has executed his block. -/
def bobsProposal : Option (Block × Confirmation × List Hash) :=
  match start 2 with
  | .error _ => none
  | .ok bob => (outputs (traceOf handle bob (buildsSmall ++ executes))).findSome? fun o =>
    match o with
    | .msg .nodeInterface (.propagateBlockToPeers block confirmation txsHashes) =>
      some (block, confirmation, txsHashes)
    | _ => none

/-- Alice executes what bob proposes, confirms it and consolidates it. -/
def aliceFollows (proposal : Block × Confirmation × List Hash) : List (LiveInput Willing) :=
  takeGenesis ++ enterPool 2 ++
    [.arrive (.msg .consensusService (.blockFromPeer proposal.1 proposal.2.1 proposal.2.2)),
      .consensus env, .block blockEnv, .block (leaderEnv [2]), .transactions fun _ => 0, .pass 1,
      .consensus env, .finish, .consensus env, .pass 1]

def followsBob : List (LiveInput Willing) := bobsProposal.toList.flatMap aliceFollows

def addsNew (e : LiveEvent Willing) : Bool :=
  match consolidation e with
  | none => true
  | some (block, _) =>
    match e.before.wasm.forksCollector.lookup block.getHash with
    | none => true
    | some forked => !forked.executed.isEmpty &&
      e.before.wasm.db.transactionsHashes.entries.all fun entry =>
        entry.2.all fun hash => decide (hash ∉ forked.executed)

theorem addsNew_of_check {e : LiveEvent Willing} (h : addsNew e = true) : AddsNew e := by
  intro block confirmations forked hc hforked
  simp only [addsNew, hc, hforked, Bool.and_eq_true, Bool.not_eq_true', List.isEmpty_eq_false_iff,
    List.all_eq_true, decide_eq_true_eq] at h
  refine ⟨h.1, fun height hashes listed hash hhash => h.2 ⟨height, hashes⟩ ?_ hash hhash⟩
  unfold Db.loadTransactionsHashes at listed
  dsimp only at listed
  split at listed
  · cases listed
  · cases hlookup : e.before.wasm.db.transactionsHashes.lookup height with
    | none =>
      rw [hlookup] at listed
      cases listed
      cases hhash
    | some _ =>
      rw [hlookup] at listed
      cases listed
      exact AList.mem_lookup_iff.mp hlookup

/-- Both blocks of bob are served. -/
theorem small_block_served : ∃ node trace n, start 2 = .ok node ∧
    Run (Computes handle) node trace n ∧ n.wasm.db.blocks.length = 2 ∧
    AllServed (chronicle node [unitOf 1 (keypair 1)] []) node.wasm.db ∧
    Along (fun earlier e => AllServed (chronicle node [unitOf 1 (keypair 1)] (earlier ++ [e]))
      e.after.wasm.db) trace := by
  obtain ⟨node, trace, n, hstart, run, check, -⟩ := exists_run_from 2 consolidatesSmall
    (fun trace n => trace.all addsNew && decide (n.wasm.db.blocks.length = 2)) (by decide +kernel)
  rw [Bool.and_eq_true, decide_eq_true_eq] at check
  have new : Along (fun _ (e : LiveEvent Willing) => AddsNew e) trace :=
    (along_of_all check.1).imp fun _ _ h => addsNew_of_check h
  have alone : Consistent (WasmConfig.listedHash 0) [unitOf 1 (keypair 1)] := by
    intro tx htx tx' htx' _
    rw [List.mem_singleton.mp htx, List.mem_singleton.mp htx']
  have preserves := run_preserves_of_addsNew heightsHashed hstart run new
  exact ⟨node, trace, n, hstart, run, check.2,
    (run_allServed_iff heightsHashed hstart run).mpr ⟨alone, preserves⟩⟩

end Sample.Duo

end Trinci
