import Trinci.ExecutorRules
import Trinci.LeaderDraws

/-!
# What an execution leaves as it was

The blocks of the database, their confirmations and the configuration are no part of
what a transaction changes, and a rollback keeps them: a fork has those of the database
it was created from. The machine changes the seed source only by drawing from it.
-/

namespace Trinci

open StatefulSteps StepMachines Exec

variable {W : Type}

/-! ## Rules for the transactions of a block -/

section Rules

variable [Primitives] [NodeCodec] [Wm W]

/-- A relation that also allows the opening of a transaction and its record. -/
structure BlockRule (R : Execution W → Execution W → Prop) : Prop extends ExecutorRule R where
  opened : ∀ tx s, R s (WasmConfig.opened tx s)
  stored : ∀ tx receipt s, R s (Trinci.stored tx receipt s)

namespace WasmConfig

variable {R : Execution W → Execution W → Prop} (config : WasmConfig)

theorem executeTransaction_moves (rule : BlockRule R) (tx : Transaction) (height : UInt64)
    (index : UInt32) (blockTimestamp : UInt64) :
    Moves R (config.executeTransaction tx height index blockTimestamp : Exec W Receipt) := by
  intro s
  rw [after_executeTransaction]
  have moves := rule.bind
    (config.handleTransaction_moves rule.toExecutorRule tx height index blockTimestamp)
    fun res => config.settled_moves rule.toExecutorRule res height index blockTimestamp
  exact rule.trans (rule.opened tx s) (moves (opened tx s))

theorem executeBlockTransactions_moves (rule : BlockRule R) (height blockTimestamp : UInt64)
    (txs : List Transaction) (index : UInt32) :
    Moves R (config.executeBlockTransactions height blockTimestamp txs index :
      Exec W (List Hash)) := by
  induction txs generalizing index with
  | nil => exact rule.pure _
  | cons tx txs ih =>
    refine rule.bind (config.executeTransaction_moves rule tx height index blockTimestamp)
      fun receipt => ?_
    refine rule.bind (Moves.modify fun s => rule.stored tx receipt s) fun _ => ?_
    exact rule.bind (ih (index + 1)) fun _ => rule.pure _

/-- What is written before the first transaction and after the last one. -/
theorem executeInFork_moves [Merkle] (rule : BlockRule R) (block : Block)
    (txs : List Transaction) (expectedLeader : Option String)
    (noted : ∀ s, R s { s with fork := s.fork.modify (config.noteLeader block expectedLeader) })
    (listed : ∀ s txs rxs, R s { s with fork := s.fork.modify fun db =>
      { db with transactionsHashes := txs, receiptsHashes := rxs } }) :
    Moves R (config.executeInFork block txs expectedLeader : Exec W Roots) := by
  refine rule.bind (Moves.modify noted) fun _ => ?_
  refine rule.bind (config.executeBlockTransactions_moves rule _ _ _ _) fun receiptsHashes => ?_
  intro s
  exact listed s _ _

end WasmConfig

end Rules

/-! ## Parts of the database -/

variable {α : Type}

/-- A part of the database that belongs neither to the accounts nor to the records of
single transactions. -/
structure Db.Apart [Primitives] [Serialize TransactionData] (f : Db → α) : Prop where
  accounts : ∀ db accounts, f { db with accounts := accounts } = f db
  stored : ∀ db hash tx receipt, f ((db.storeTransaction hash tx).storeReceipt hash receipt) = f db

/-- The part has this value in the fork, and a rollback keeps it. -/
structure Holding (f : Db → α) (a : α) (s : Execution W) : Prop where
  working : f s.fork.working = a
  saved : f s.fork.saved = a

def Keeps (f : Db → α) (s t : Execution W) : Prop := ∀ a, Holding f a s → Holding f a t

section Keeping

variable [Primitives] [NodeCodec] {f : Db → α}

theorem blocks_apart : Db.Apart Db.blocks := ⟨fun _ _ => rfl, fun _ _ _ _ => rfl⟩

theorem confirmations_apart : Db.Apart Db.confirmations := ⟨fun _ _ => rfl, fun _ _ _ _ => rfl⟩

theorem keeps_rule [Wm W] (apart : Db.Apart f) :
    BlockRule (Keeps f : Execution W → Execution W → Prop) where
  refl _ _ h := h
  trans h h' a ha := h' a (h a ha)
  recorded _ _ _ h := ⟨h.working, h.saved⟩
  rolledBack _ _ h := ⟨h.saved, h.saved⟩
  called _ _ h := ⟨(apart.accounts _ _).trans h.working, h.saved⟩
  checked _ _ h := ⟨(apart.accounts _ _).trans h.working, h.saved⟩
  opened _ _ _ h := ⟨h.working, h.working⟩
  stored _ _ _ _ h := ⟨(apart.stored _ _ _ _).trans h.working, h.saved⟩

theorem noteLeader_apart (apart : Db.Apart f) (config : WasmConfig) (block : Block)
    (expectedLeader : Option String) (db : Db) :
    f (config.noteLeader block expectedLeader db) = f db := by
  unfold WasmConfig.noteLeader
  split
  · rfl
  · split
    · exact apart.accounts _ _
    · exact apart.accounts _ _

/-- A part that is no list of hashes either is in the fork what it was in the database. -/
theorem executeInFork_keeps [Merkle] [Wm W] (apart : Db.Apart f)
    (lists : ∀ db txs rxs,
      f { db with transactionsHashes := txs, receiptsHashes := rxs } = f db)
    (config : WasmConfig) (block : Block) (txs : List Transaction)
    (expectedLeader : Option String) :
    Moves (Keeps f) (config.executeInFork block txs expectedLeader : Exec W Roots) := by
  refine config.executeInFork_moves (keeps_rule apart) block txs expectedLeader ?_ ?_
  · intro s a h
    exact ⟨(noteLeader_apart apart config block expectedLeader _).trans h.working, h.saved⟩
  · intro s _ _ a h
    exact ⟨(lists s.fork.working _ _).trans h.working, h.saved⟩

end Keeping

/-! ## The seed source -/

/-- The machine draws from the seed source and does not replace it. -/
structure Wm.KeepsNames (W : Type) [Wm W] : Prop where
  call : ∀ {args : CallArgs} {w w' : World W} {out},
    Wm.call args w = .ok (w', out) → w.drand.Named → w'.drand.Named
  appHashCheck : ∀ {contract : Option Hash} {ctxArgs : CtxArgs} {blockTimestamp : UInt64}
    {w w' : World W} {out}, Wm.appHashCheck contract ctxArgs blockTimestamp w = .ok (w', out) →
    w.drand.Named → w'.drand.Named

section Names

variable [Primitives] [NodeCodec] [Wm W]

theorem named_rule (names : Wm.KeepsNames W) :
    BlockRule (fun s t : Execution W => s.drand.Named → t.drand.Named) where
  refl _ h := h
  trans h h' hs := h' (h hs)
  recorded _ _ h := h
  rolledBack _ h := h
  called hcall h := names.call hcall h
  checked hcheck h := names.appHashCheck hcheck h
  opened _ _ h := h
  stored _ _ _ h := h

theorem executeInFork_named [Merkle] (names : Wm.KeepsNames W) (config : WasmConfig)
    (block : Block) (txs : List Transaction) (expectedLeader : Option String) :
    Moves (fun s t : Execution W => s.drand.Named → t.drand.Named)
      (config.executeInFork block txs expectedLeader : Exec W Roots) :=
  config.executeInFork_moves (named_rule names) block txs expectedLeader (fun _ h => h)
    fun _ _ _ h => h

end Names

/-! ## The forks of the service -/

section Forks

variable [Primitives] [Serialize BlockData] [NodeCodec] [Merkle] [Wm W]

/-- The fork that the execution of a block leaves. -/
def forkAfter (s : WasmService W) (block : Block) (txs : List Transaction)
    (expectedLeader : Option String) : ExecutedFork :=
  let done := after (s.config.executeInFork block txs expectedLeader) s.begin
  ⟨done.fork, done.executed, done.ran⟩

/-- The seed source that is left, whether the block was executed or not. -/
def SeedAfter (s : WasmService W) (block : Block) (txs : List Transaction)
    (expectedLeader : Option String) (seed : SeedSource) : Prop :=
  seed = s.drand ∨ seed = (after (s.config.executeInFork block txs expectedLeader) s.begin).drand

/-- What becomes of a block above the genesis block that is executed: nothing, or a fork
under the hash of the block it gives. -/
inductive ForkStep (s : WasmService W) (block : Block) (round : UInt8) (txs : List Transaction)
    (expectedLeader : Option String) : WasmService W → List WasmOutput → Prop
  | dropped {wm : W} {drand : SeedSource} : SeedAfter s block txs expectedLeader drand →
      ForkStep s block round txs expectedLeader
        { s with
          wm := wm
          drand := drand } []
  | kept {wm : W} {drand : SeedSource} {given : Block} {roots : Roots} {out : List WasmOutput} :
      SeedAfter s block txs expectedLeader drand →
      result (s.config.executeInFork block txs expectedLeader) s.begin = .ok roots →
      given.data.height = block.data.height → given.data.prevHash = block.data.prevHash →
      (out = [.msg .consensusService (.proposalAfterBuild given round (txs.map Transaction.getHash))] ∨
        out = [.msg .consensusService (.blockExecutionEnded given (txs.map Transaction.getHash))]) →
      ForkStep s block round txs expectedLeader
        { s with
          wm := wm
          drand := drand
          forksCollector := s.forksCollector.insert given.getHash
            (forkAfter s block txs expectedLeader) } out

variable {s t : WasmService W} {block : Block} {round : UInt8} {txs : List Transaction}
  {expectedLeader : Option String} {out : List WasmOutput}

theorem executeBlock_step [Pcg32] (positive : 0 < block.data.height)
    (h : s.handle (.executeBlock block round txs expectedLeader) = .ok (t, out)) :
    ForkStep s block round txs expectedLeader t out := by
  obtain ⟨⟨ok, u, sent⟩, hexecute, h⟩ := bind_eq_ok.mp h
  cases h
  cases WasmService.executeBlock_outcome hexecute with
  | stored _ => exact .dropped (.inl rfl)
  | failed _ _ => exact .dropped (.inr rfl)
  | executed _ hroots hdone outcome =>
    cases hdone
    have listed : txs.map (WasmConfig.listedHash block.data.height) =
        txs.map Transaction.getHash :=
      List.map_congr_left fun tx _ => if_pos positive
    rw [listed] at outcome
    cases outcome with
    | announced _ => exact .kept (.inr rfl) hroots rfl rfl (.inl rfl)
    | rejected _ _ _ => exact .dropped (.inr rfl)
    | confirmed _ _ _ _ _ => exact .kept (.inr rfl) hroots rfl rfl (.inr rfl)
    | settled _ genesis _ => exact absurd positive genesis

omit [Serialize BlockData] in
theorem SeedAfter.named {seed : SeedSource} (h : SeedAfter s block txs expectedLeader seed)
    (names : Wm.KeepsNames W) (named : s.drand.Named) : seed.Named := by
  rcases h with rfl | rfl
  · exact named
  · exact executeInFork_named names s.config block txs expectedLeader s.begin named

theorem ForkStep.named (h : ForkStep s block round txs expectedLeader t out)
    (names : Wm.KeepsNames W) (named : s.drand.Named) : t.drand.Named := by
  cases h with
  | dropped seed => exact seed.named names named
  | kept seed => exact seed.named names named

omit [Serialize BlockData] in
/-- A fork has the blocks of the database it was created from. -/
theorem forkAfter_blocks : (forkAfter s block txs expectedLeader).fork.working.blocks =
    s.db.blocks :=
  (executeInFork_keeps blocks_apart (fun _ _ _ => rfl) s.config block txs expectedLeader s.begin
    s.db.blocks ⟨rfl, rfl⟩).working

omit [Serialize BlockData] in
theorem forkAfter_confirmations :
    (forkAfter s block txs expectedLeader).fork.working.confirmations = s.db.confirmations :=
  (executeInFork_keeps confirmations_apart (fun _ _ _ => rfl) s.config block txs expectedLeader
    s.begin s.db.confirmations ⟨rfl, rfl⟩).working

/-- What the wasm service sends once it executed a block. -/
theorem executeBlock_sends [Pcg32]
    (h : s.handle (.executeBlock block round txs expectedLeader) = .ok (t, out)) :
    ∀ o ∈ out, (∃ given txsHashes,
        o = .msg .consensusService (.proposalAfterBuild given round txsHashes)) ∨
      (∃ given txsHashes, o = .msg .consensusService (.blockExecutionEnded given txsHashes)) ∨
      ∃ given txsHashes players,
        o = .msg .blockService (.blockConsolidated given txsHashes players) := by
  obtain ⟨⟨ok, u, sent⟩, hexecute, h⟩ := bind_eq_ok.mp h
  cases h
  cases WasmService.executeBlock_outcome hexecute with
  | stored _ => exact fun o ho => absurd ho List.not_mem_nil
  | failed _ _ => exact fun o ho => absurd ho List.not_mem_nil
  | executed _ _ _ outcome =>
    cases outcome with
    | announced _ => simp
    | rejected _ _ _ => exact fun o ho => absurd ho List.not_mem_nil
    | confirmed _ _ _ _ _ => simp
    | settled _ _ hconsolidate =>
      obtain ⟨_, players, -, rfl, -⟩ := WasmService.consolidateBlock_ok hconsolidate
      simp

/-! ### What a fork has written -/

/-- The transactions are stored one after the other. -/
def storeAll (hashOf : Transaction → Hash) (txs : List Transaction)
    (map : AList fun _ : Hash => Transaction) : AList fun _ : Hash => Transaction :=
  txs.foldl (fun map tx => map.insert (hashOf tx) tx) map

omit [Serialize BlockData] [Merkle] in
theorem executeBlockTransactions_stores (config : WasmConfig) (height blockTimestamp : UInt64)
    (txs : List Transaction) (index : UInt32) (s : Execution W) (hashes : List Hash)
    (h : result (config.executeBlockTransactions height blockTimestamp txs index) s = .ok hashes) :
    (after (config.executeBlockTransactions height blockTimestamp txs index) s).fork.working.transactions =
      storeAll Transaction.getHash txs s.fork.working.transactions := by
  induction txs generalizing index s hashes with
  | nil => rfl
  | cons tx txs ih =>
    have within := config.executeTransaction_within tx height index blockTimestamp s
    have kept : (after (config.executeTransaction tx height index blockTimestamp) s).fork.saved =
        s.fork.working := within.saved
    have ledger := (within.ledger ⟨rfl, rfl⟩).transactions
    rw [kept] at ledger
    obtain ⟨receipt, -, hrest, hafter⟩ := of_bind_ok h
    obtain ⟨-, -, hlater, hstored⟩ := of_bind_ok hrest
    obtain ⟨later, hlater, -, hreturn⟩ := of_bind_ok hlater
    have executed := ih _ _ _ hlater
    rw [WasmConfig.executeBlockTransactions, hafter, hstored, hreturn]
    refine executed.trans ?_
    change storeAll Transaction.getHash txs (AList.insert tx.getHash tx _) = _
    rw [ledger]
    rfl

omit [Serialize BlockData] [Merkle] in
/-- No transaction of a block changes the lists of hashes. -/
theorem executeBlockTransactions_keepsLists (s : WasmService W) (block : Block)
    (txs : List Transaction) (expectedLeader : Option String) :
    (after (s.config.executeBlockTransactions block.data.height block.data.timestamp txs 0)
      (after (modifyFork fun fork => fork.modify (s.config.noteLeader block expectedLeader) :
        Exec W PUnit) s.begin)).fork.working.transactionsHashes = s.db.transactionsHashes := by
  have apart : Db.Apart Db.transactionsHashes := ⟨fun _ _ => rfl, fun _ _ _ _ => rfl⟩
  have listed := noteLeader_apart apart s.config block expectedLeader s.db
  have before : Holding Db.transactionsHashes s.db.transactionsHashes
      (after (modifyFork fun fork => fork.modify (s.config.noteLeader block expectedLeader) :
        Exec W PUnit) s.begin) := ⟨listed, rfl⟩
  exact (s.config.executeBlockTransactions_moves (keeps_rule apart) block.data.height
    block.data.timestamp txs 0 _ _ before).working

omit [Serialize BlockData] in
/-- A fork has the transactions of its block, and lists them at its height. -/
theorem forkAfter_writes {roots : Roots}
    (h : result (s.config.executeInFork block txs expectedLeader) s.begin = .ok roots) :
    (forkAfter s block txs expectedLeader).fork.working.transactions =
        storeAll Transaction.getHash txs s.db.transactions ∧
      (forkAfter s block txs expectedLeader).fork.working.transactionsHashes =
        s.db.transactionsHashes.insert block.data.height
          ((s.db.transactionsHashes.lookup block.data.height).getD [] ++
            txs.map (WasmConfig.listedHash block.data.height)) := by
  have noted := s.config.noteLeader_sameLedger block expectedLeader s.db
  have keeps := executeBlockTransactions_keepsLists s block txs expectedLeader
  obtain ⟨-, -, hrest, hnoted⟩ := of_bind_ok h
  obtain ⟨receiptsHashes, hreceipts, hrest, hexecuted⟩ := of_bind_ok hrest
  have stores := executeBlockTransactions_stores s.config _ _ _ _ _ _ hreceipts
  rw [forkAfter, WasmConfig.executeInFork, hnoted, hexecuted]
  constructor
  · refine stores.trans ?_
    change storeAll Transaction.getHash txs (s.config.noteLeader block expectedLeader s.db).transactions = _
    rw [noted.transactions]
  · rw [← keeps]
    rfl

/-- The database once the genesis block is consolidated: its transactions are stored again,
under the hashes that the block lists. -/
def settledGenesis (db : Db) (settings : Bytes) (txs : List Transaction) : Db :=
  txs.foldl (fun db tx => db.storeTransaction (Hash.primary (rmpSerialize tx)) tx)
    (db.storeConfiguration settingsKey settings)

omit [Serialize BlockData] [Merkle] [Wm W] in
theorem settledGenesis_apart {α : Type} {f : Db → α}
    (configured : ∀ db id config, f (db.storeConfiguration id config) = f db)
    (stored : ∀ db hash tx, f (db.storeTransaction hash tx) = f db) (db : Db) (settings : Bytes)
    (txs : List Transaction) : f (settledGenesis db settings txs) = f db := by
  rw [← configured db settingsKey settings, settledGenesis]
  generalize db.storeConfiguration settingsKey settings = db
  induction txs generalizing db with
  | nil => rfl
  | cons tx txs ih => exact (ih _).trans (stored db _ tx)

omit [Serialize BlockData] [Merkle] [Wm W] in
theorem settledGenesis_transactions (db : Db) (settings : Bytes) (txs : List Transaction) :
    (settledGenesis db settings txs).transactions =
      storeAll (fun tx => Hash.primary (rmpSerialize tx)) txs db.transactions := by
  rw [settledGenesis, storeAll]
  change _ = txs.foldl _ (db.storeConfiguration settingsKey settings).transactions
  generalize db.storeConfiguration settingsKey settings = db
  induction txs generalizing db with
  | nil => rfl
  | cons tx txs ih => exact ih _

/-- The genesis block is consolidated at once, with the roots of its execution. -/
theorem executeGenesisBlock_settles [Pcg32] {networkName : String}
    (unnamed : block.getBuilderId = none) (genesis : ¬ 0 < block.data.height)
    (elsewhere : s.config.nodeId ≠ "")
    (h : s.handle (.executeGenesisBlock block txs networkName expectedLeader) = .ok (t, out))
    (sent : out ≠ []) : ∃ players roots settings,
      result (s.config.executeInFork block txs expectedLeader) s.begin = .ok roots ∧
      t.db = settledGenesis ((forkAfter s block txs expectedLeader).fork.working.storeBlock
        (WasmService.withRoots block roots) []) settings txs ∧ t.forksCollector = ∅ ∧
      SeedAfter s block txs expectedLeader t.drand ∧
      out = [.msg .blockService (.blockConsolidated (WasmService.withRoots block roots)
        (txs.map (WasmConfig.listedHash block.data.height)) players)] := by
  obtain ⟨⟨ok, u, executed⟩, hexecute, h⟩ := bind_eq_ok.mp h
  cases WasmService.executeBlock_outcome hexecute with
  | stored _ =>
    cases h
    exact absurd rfl sent
  | failed _ _ =>
    cases h
    exact absurd rfl sent
  | @executed roots _ _ _ _ hroots hdone outcome =>
    cases hdone
    have other : ¬ block.getBuilderId.getD "" = s.config.nodeId := by
      rw [unnamed]
      exact fun same => elsewhere same.symm
    cases outcome with
    | announced own => exact absurd own other
    | rejected _ positive _ => exact absurd positive genesis
    | confirmed _ positive _ _ _ => exact absurd positive genesis
    | settled _ _ hconsolidate =>
      obtain ⟨forked, players, hforked, rfl, rfl, -⟩ := WasmService.consolidateBlock_ok hconsolidate
      rw [AList.lookup_insert] at hforked
      cases hforked
      obtain ⟨settledService, hsettle, h⟩ := bind_eq_ok.mp h
      cases h
      obtain ⟨settings, -, rfl⟩ := WasmService.settleGenesis_ok hsettle
      exact ⟨players, roots, _, hroots, rfl, rfl, .inr rfl, rfl⟩

theorem executeGenesisBlock_step [Pcg32] {networkName : String}
    (unnamed : block.getBuilderId = none) (genesis : ¬ 0 < block.data.height)
    (elsewhere : s.config.nodeId ≠ "")
    (h : s.handle (.executeGenesisBlock block txs networkName expectedLeader) = .ok (t, out))
    (sent : out ≠ []) : ∃ given players roots settings, given.data.height = block.data.height ∧
      result (s.config.executeInFork block txs expectedLeader) s.begin = .ok roots ∧
      t.db = settledGenesis ((forkAfter s block txs expectedLeader).fork.working.storeBlock given [])
        settings txs ∧ t.forksCollector = ∅ ∧ SeedAfter s block txs expectedLeader t.drand ∧
      out = [.msg .blockService (.blockConsolidated given
        (txs.map (WasmConfig.listedHash block.data.height)) players)] := by
  obtain ⟨players, roots, settings, hroots, db, forks, seed, rfl⟩ :=
    executeGenesisBlock_settles unnamed genesis elsewhere h sent
  exact ⟨WasmService.withRoots block roots, players, roots, settings, rfl, hroots, db, forks, seed,
    rfl⟩

theorem executeGenesisBlock_ok [Pcg32] {networkName : String} (unnamed : block.getBuilderId = none)
    (genesis : ¬ 0 < block.data.height) (elsewhere : s.config.nodeId ≠ "")
    (h : s.handle (.executeGenesisBlock block txs networkName expectedLeader) = .ok (t, out))
    (sent : out ≠ []) : ∃ given players, given.data.height = block.data.height ∧
      t.db.blocks = s.db.blocks ++ [given] ∧ t.forksCollector = ∅ ∧
      SeedAfter s block txs expectedLeader t.drand ∧
      out = [.msg .blockService (.blockConsolidated given
        (txs.map (WasmConfig.listedHash block.data.height)) players)] := by
  obtain ⟨given, players, roots, settings, height, -, db, forks, seed, rfl⟩ :=
    executeGenesisBlock_step unnamed genesis elsewhere h sent
  refine ⟨given, players, height, ?_, forks, seed, rfl⟩
  rw [db]
  refine (settledGenesis_apart (fun _ _ _ => rfl) (fun _ _ _ => rfl) _ _ _).trans ?_
  exact congrArg (· ++ [_]) (forkAfter_blocks (s := s))

end Forks

end Trinci
