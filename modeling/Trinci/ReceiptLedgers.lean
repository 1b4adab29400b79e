import Trinci.ReceiptEvents

/-!
# The receipts of a block

Each transaction of a block leaves one receipt, which names the height of the block and
the place of the transaction. The fork lists the hashes of the receipts, and a block that
is given to the consensus has the roots of the accounts, of its transactions and of
these receipts in its fork.
-/

namespace Trinci

open StatefulSteps StepMachines Exec

variable {W : Type}

/-! ## The place of a receipt -/

/-- A receipt names its place. -/
structure Receipt.Placed (height : UInt64) (index : UInt32) (receipt : Receipt) : Prop where
  height : receipt.height = height
  index : receipt.index = index

section Places

variable [Primitives] [NodeCodec] [Wm W] (config : WasmConfig) (height : UInt64) (index : UInt32)
  (blockTimestamp : UInt64)

namespace WasmConfig

theorem handleUnitTransaction_placed (tx : SignedTransaction) :
    Yields (fun res => res.receipt.Placed height index)
      (config.handleUnitTransaction tx height index blockTimestamp :
        Exec W HandleTransactionReturns) := by
  refine Yields.ite (fun _ => ?_) fun _ => ?_
  · exact Yields.last fun _ => Yields.pure ⟨rfl, rfl⟩
  · refine Yields.last fun caller => Yields.last fun s => Yields.last fun contract => ?_
    refine Yields.last fun _ => Yields.last fun appHash => ?_
    cases appHash with
    | error e => exact Yields.last fun msg => Yields.pure ⟨rfl, rfl⟩
    | ok appHash =>
      refine Yields.last fun method => Yields.last fun args => Yields.last fun called => ?_
      exact Yields.last fun outcome => Yields.pure ⟨rfl, rfl⟩

omit [NodeCodec] [Primitives] in
/-- The root of a bulk that ends it leaves the receipt of the bulk. -/
theorem handleBulkRoot_placed (tx : SignedTransaction) (root : TransactionData)
    (bulkCaller : String) (limit : UInt64) :
    Yields (fun rooted => ∀ receipt, rooted = .error receipt → receipt.Placed height index)
      (config.handleBulkRoot tx root bulkCaller limit height index blockTimestamp :
        Exec W _) := by
  have ended : ∀ receipt : Receipt, receipt.Placed height index →
      Yields (fun rooted => ∀ receipt, rooted = .error receipt → receipt.Placed height index)
        (Pure.pure (.error receipt) : Exec W (Except Receipt
          (List SmartContractEvent × UInt64 × Except WasmError Bytes))) := by
    intro receipt placed
    refine Yields.pure fun other heq => ?_
    cases heq
    exact placed
  cases root with
  | bulkRootV1 txData =>
    refine Yields.ite (fun _ => ended _ ⟨rfl, rfl⟩) fun _ => ?_
    refine Yields.last fun _ => Yields.last fun appHash => ?_
    cases appHash with
    | error e => exact Yields.last fun msg => ended _ ⟨rfl, rfl⟩
    | ok appHash => exact Yields.last fun out => Yields.pure fun receipt heq => by cases heq
  | bulkEmptyRoot txData => exact Yields.pure fun receipt heq => by cases heq
  | v1 | bulkNodeV1 | bulkV1 => exact ended _ ⟨rfl, rfl⟩

theorem handleBulkData_placed (tx : SignedTransaction) (bulkCaller : String) (limit : UInt64) :
    Yields (fun executed => ∀ receipt, executed = .error receipt → receipt.Placed height index)
      (config.handleBulkData tx bulkCaller limit height index blockTimestamp : Exec W _) := by
  rw [handleBulkData]
  split
  · refine Yields.bind (config.handleBulkRoot_placed height index blockTimestamp tx _ bulkCaller
      limit) fun rooted placed => ?_
    obtain receipt | ⟨events, burntWmFuel, e | rcpt⟩ := rooted
    · refine Yields.pure fun other heq => ?_
      cases heq
      exact placed _ rfl
    · exact Yields.last fun msg => Yields.pure fun receipt heq => by cases heq
    · exact Yields.last fun later => Yields.pure fun receipt heq => by cases heq
  · exact Yields.pure fun receipt heq => by cases heq

theorem handleTransaction_placed (tx : Transaction) :
    Yields (fun res => res.receipt.Placed height index)
      (config.handleTransaction tx height index blockTimestamp :
        Exec W HandleTransactionReturns) := by
  cases tx with
  | unitTransaction tx => exact config.handleUnitTransaction_placed height index blockTimestamp tx
  | bulkTransaction tx =>
    refine Yields.last fun bulkCaller => Yields.last fun s => ?_
    refine Yields.bind (config.handleBulkData_placed height index blockTimestamp tx bulkCaller _)
      fun executed placed => ?_
    cases executed with
    | error receipt => exact Yields.pure (placed receipt rfl)
    | ok out => exact Yields.last fun _ => Yields.pure ⟨rfl, rfl⟩

/-- Every transaction leaves a receipt that names its place. -/
theorem executeTransaction_placed (tx : Transaction) :
    Yields (Receipt.Placed height index)
      (config.executeTransaction tx height index blockTimestamp : Exec W Receipt) := by
  refine Yields.last fun _ => Yields.last fun _ => ?_
  refine Yields.bind (config.handleTransaction_placed height index blockTimestamp tx)
    fun res placed => Yields.last fun burnResult => ?_
  refine Yields.ite (fun _ => ?_) fun _ => ?_
  · exact Yields.last fun _ => Yields.pure ⟨rfl, rfl⟩
  · exact Yields.pure ⟨placed.height, placed.index⟩

end WasmConfig

end Places

/-! ## The receipts of a fork -/

/-- One receipt for each transaction, in their places from an index on. -/
inductive ReceiptsFrom (height : UInt64) : UInt32 → List Transaction → List Receipt → Prop
  | nil (index : UInt32) : ReceiptsFrom height index [] []
  | cons {index : UInt32} {tx : Transaction} {txs : List Transaction} {receipt : Receipt}
      {receipts : List Receipt} (placed : receipt.Placed height index)
      (later : ReceiptsFrom height (index + 1) txs receipts) :
      ReceiptsFrom height index (tx :: txs) (receipt :: receipts)

/-- The receipts are stored one after the other. -/
def storeReceipts [Primitives] [Serialize TransactionData] (txs : List Transaction)
    (receipts : List Receipt) (map : AList fun _ : Hash => Receipt) :
    AList fun _ : Hash => Receipt :=
  (txs.zip receipts).foldl (fun map entry => map.insert entry.1.getHash entry.2) map

section Forks

variable [Primitives] [NodeCodec] [Wm W]

theorem executeBlockTransactions_receipts (config : WasmConfig) {height blockTimestamp : UInt64}
    {txs : List Transaction} {index : UInt32} {s : Execution W} {hashes : List Hash}
    (h : result (config.executeBlockTransactions height blockTimestamp txs index) s = .ok hashes) :
    ∃ receipts, ReceiptsFrom height index txs receipts ∧ hashes = receipts.map Receipt.getHash ∧
      (after (config.executeBlockTransactions height blockTimestamp txs index)
        s).fork.working.receipts = storeReceipts txs receipts s.fork.working.receipts := by
  induction txs generalizing index s hashes with
  | nil =>
    cases h
    exact ⟨[], .nil index, rfl, rfl⟩
  | cons tx txs ih =>
    have kept := config.executeTransaction_receipts tx height index blockTimestamp s
    obtain ⟨receipt, hreceipt, hrest, hafter⟩ := of_bind_ok h
    obtain ⟨-, -, hloop, hstored⟩ := of_bind_ok hrest
    obtain ⟨later, hlater, hreturned, hreturn⟩ := of_bind_ok hloop
    cases hreturned
    obtain ⟨receipts, placed, rfl, stored⟩ := ih hlater
    have first := config.executeTransaction_placed height index blockTimestamp tx s receipt hreceipt
    refine ⟨receipt :: receipts, .cons first placed, rfl, ?_⟩
    rw [WasmConfig.executeBlockTransactions, hafter, hstored, hreturn]
    refine stored.trans ?_
    exact congrArg (fun map => storeReceipts txs receipts (AList.insert tx.getHash receipt map))
      kept

variable [Serialize BlockData] [Merkle] {s t : WasmService W} {block : Block} {round : UInt8}
  {txs : List Transaction} {expectedLeader : Option String} {roots : Roots}
  {out : List WasmOutput}

/-- What a fork has of its block: the receipts of the transactions, listed at its height,
and the roots of what is listed there and of the accounts. -/
structure Rooted (db : Db) (height : UInt64) (txs : List Transaction) (roots : Roots)
    (receipts : List Receipt) (working : Db) : Prop where
  placed : ReceiptsFrom height 0 txs receipts
  stored : working.receipts = storeReceipts txs receipts db.receipts
  listed : working.receiptsHashes = db.receiptsHashes.insert height
    ((db.receiptsHashes.lookup height).getD [] ++ receipts.map Receipt.getHash)
  txsRoot : roots.txsRoot = Merkle.listRoot
    ((db.transactionsHashes.lookup height).getD [] ++ txs.map (WasmConfig.listedHash height))
  rxsRoot : roots.rxsRoot = Merkle.listRoot
    ((db.receiptsHashes.lookup height).getD [] ++ receipts.map Receipt.getHash)
  stateHash : roots.stateHash = working.accounts.stateHash ""

omit [Serialize BlockData] in
theorem forkAfter_rooted
    (h : result (s.config.executeInFork block txs expectedLeader) s.begin = .ok roots) :
    ∃ receipts, Rooted s.db block.data.height txs roots receipts
      (forkAfter s block txs expectedLeader).fork.working := by
  have lists := executeBlockTransactions_keepsLists s block txs expectedLeader
  have apart : Db.Apart Db.receiptsHashes := ⟨fun _ _ => rfl, fun _ _ _ _ => rfl⟩
  have before : Holding Db.receiptsHashes s.db.receiptsHashes
      (after (modifyFork fun fork => fork.modify (s.config.noteLeader block expectedLeader) :
        Exec W PUnit) s.begin) :=
    ⟨noteLeader_apart apart s.config block expectedLeader s.db, rfl⟩
  have hashes := (s.config.executeBlockTransactions_moves (keeps_rule apart) block.data.height
    block.data.timestamp txs 0 _ _ before).working
  have noted : (s.config.noteLeader block expectedLeader s.db).receipts = s.db.receipts := by
    unfold WasmConfig.noteLeader
    split
    · rfl
    · split
      · rfl
      · rfl
  obtain ⟨-, -, hrest, hnoted⟩ := of_bind_ok h
  obtain ⟨receiptsHashes, hreceipts, hrest, hexecuted⟩ := of_bind_ok hrest
  obtain ⟨receipts, placed, rfl, stored⟩ := executeBlockTransactions_receipts s.config hreceipts
  refine ⟨receipts, ?_⟩
  rw [forkAfter, WasmConfig.executeInFork, hnoted, hexecuted]
  cases hrest
  constructor
  · exact placed
  · refine stored.trans ?_
    exact congrArg (storeReceipts txs receipts) noted
  · rw [← hashes]
    rfl
  · rw [← lists]
  · rw [← hashes]
  · rfl

/-- The block that the consensus is told of has the roots of its fork. -/
theorem executeBlock_given [Pcg32] (positive : 0 < block.data.height)
    (h : s.handle (.executeBlock block round txs expectedLeader) = .ok (t, out)) {given : Block}
    (sent : out = [.msg .consensusService
        (.proposalAfterBuild given round (txs.map Transaction.getHash))] ∨
      out = [.msg .consensusService (.blockExecutionEnded given (txs.map Transaction.getHash))]) :
    ∃ roots, result (s.config.executeInFork block txs expectedLeader) s.begin = .ok roots ∧
      given.data.height = block.data.height ∧
      roots = ⟨given.data.stateHash, given.data.txsHash, given.data.rxsHash⟩ := by
  obtain ⟨⟨ok, u, told⟩, hexecute, h⟩ := bind_eq_ok.mp h
  cases h
  cases WasmService.executeBlock_outcome hexecute with
  | stored _ => simp at sent
  | failed _ _ => simp at sent
  | @executed roots _ _ _ _ hroots hdone outcome =>
    have listed : txs.map (WasmConfig.listedHash block.data.height) =
        txs.map Transaction.getHash :=
      List.map_congr_left fun tx _ => if_pos positive
    rw [listed] at outcome
    cases outcome with
    | announced _ =>
      rcases sent with sent | sent
      · cases sent
        exact ⟨roots, hroots, rfl, rfl⟩
      · cases sent
    | rejected _ _ _ => simp at sent
    | confirmed _ _ state transactions receipts =>
      rcases sent with sent | sent
      · cases sent
      · cases sent
        exact ⟨roots, hroots, rfl, by rw [state, transactions, receipts]⟩
    | settled _ genesis _ => exact absurd positive genesis

end Forks

end Trinci
