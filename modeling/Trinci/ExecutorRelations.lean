import Trinci.WasmService

/-!
# Executors that run the same steps

The executor is built of a few steps: it reads and changes the fork, keeps a record of
what it runs, stops, and asks the machine. A relation between computations of two
executors that is kept by each of these steps relates everything that they compute, on
whatever machines they run. The executors may be those of two nodes of one network.
-/

namespace Trinci

open StatefulSteps Exec

variable {W W' : Type}

/-- A relation that is kept by the steps of the executor. -/
structure ExecutorCongruence [Wm W] [Wm W']
    (Rel : ∀ {α : Type}, Exec W α → Exec W' α → Prop) : Prop where
  pure : ∀ {α : Type} (a : α), Rel (pure a) (pure a)
  throw : ∀ {α : Type} (e : Stop), Rel (throw e : Exec W α) (throw e)
  bind : ∀ {α β : Type} {x : Exec W α} {y : Exec W' α} {f : α → Exec W β} {g : α → Exec W' β},
    Rel x y → (∀ a, Rel (f a) (g a)) → Rel (x >>= f) (y >>= g)
  /-- Nothing but the fork is read. -/
  get : ∀ {β : Type} {f : Execution W → Exec W β} {g : Execution W' → Exec W' β},
    (∀ s s', s.fork = s'.fork → Rel (f s) (g s')) → Rel (get >>= f) (get >>= g)
  modifyFork : ∀ f, Rel (modifyFork f) (modifyFork f)
  record : ∀ part, Rel (record part) (record part)
  opened : ∀ hash, Rel (modify fun s => { s with executed := s.executed ++ [hash] })
    (modify fun s => { s with executed := s.executed ++ [hash] })
  call : ∀ args, Rel (call args) (call args)
  appHashCheck : ∀ contract ctxArgs blockTimestamp,
    Rel (appHashCheck contract ctxArgs blockTimestamp)
      (appHashCheck contract ctxArgs blockTimestamp)

/-- Two nodes of one network. -/
structure SameNetwork (config config' : WasmConfig) : Prop where
  networkName : config.networkName = config'.networkName
  burningFuelMethod : config.burningFuelMethod = config'.burningFuelMethod

theorem SameNetwork.refl (config : WasmConfig) : SameNetwork config config := ⟨rfl, rfl⟩

variable [Wm W] [Wm W'] {Rel : ∀ {α : Type}, Exec W α → Exec W' α → Prop}

namespace ExecutorCongruence

variable {α β : Type} (congruence : ExecutorCongruence Rel)
include congruence

theorem panic (p : ExecutionPanic) : Rel (Exec.panic p : Exec W α) (Exec.panic p) :=
  congruence.throw _

omit [Wm W] [Wm W'] congruence in
theorem ite {c : Prop} [Decidable c] {x x' : Exec W α} {y y' : Exec W' α} (hx : c → Rel x y)
    (hx' : ¬ c → Rel x' y') : Rel (if c then x else x') (if c then y else y') := by
  by_cases hc : c
  · rw [if_pos hc, if_pos hc]
    exact hx hc
  · rw [if_neg hc, if_neg hc]
    exact hx' hc

theorem ofTransaction (x : Except TransactionPanic α) :
    Rel (Exec.ofTransaction x) (Exec.ofTransaction x) := by
  cases x with
  | error p => exact congruence.panic _
  | ok a => exact congruence.pure a

theorem ofText (x : Except MachinePanic α) : Rel (Exec.ofText x) (Exec.ofText x) := by
  cases x with
  | error p => exact congruence.panic _
  | ok a => exact congruence.pure a

/-- The text of an error, which both return. -/
theorem text (x : Except MachinePanic α) (f : α → β) :
    Rel (Exec.ofText x >>= fun msg => Pure.pure (f msg))
      (Exec.ofText x >>= fun msg => Pure.pure (f msg)) :=
  congruence.bind (congruence.ofText x) fun _ => congruence.pure _

theorem toAccountId [Primitives] (key : TrinciPublicKey) :
    Rel (Exec.toAccountId key) (Exec.toAccountId key) := by
  simp only [Exec.toAccountId]
  cases key.toAccountId with
  | error p => exact congruence.panic _
  | ok r =>
    cases r with
    | error e => exact congruence.throw _
    | ok id => exact congruence.pure id

theorem expectAccountId [Primitives] (key : TrinciPublicKey) :
    Rel (Exec.expectAccountId key) (Exec.expectAccountId key) := by
  simp only [Exec.expectAccountId]
  cases key.toAccountId with
  | error p => exact congruence.panic _
  | ok r =>
    cases r with
    | error e => exact congruence.panic _
    | ok id => exact congruence.pure id

end ExecutorCongruence

namespace WasmConfig

variable [NodeCodec] {config config' : WasmConfig}

omit [NodeCodec] in
theorem unitOutcome_related (congruence : ExecutorCongruence Rel)
    (outcome : Except WasmError Bytes) : Rel (unitOutcome outcome) (unitOutcome outcome) := by
  cases outcome with
  | ok value => exact congruence.pure _
  | error err =>
    refine congruence.bind (congruence.modifyFork _) fun _ => ?_
    split
    · exact congruence.text _ _
    · exact congruence.text _ _
    · refine congruence.bind (congruence.ofText _) fun kind => ?_
      cases kind with
      | some msg => exact congruence.pure _
      | none => exact congruence.panic _

section Handling

variable [Primitives]

theorem handleUnitTransaction_related (congruence : ExecutorCongruence Rel)
    (same : SameNetwork config config') (tx : SignedTransaction) (height : UInt64)
    (index : UInt32) (blockTimestamp : UInt64) :
    Rel (config.handleUnitTransaction tx height index blockTimestamp)
      (config'.handleUnitTransaction tx height index blockTimestamp) := by
  rw [handleUnitTransaction, handleUnitTransaction, same.networkName]
  refine ExecutorCongruence.ite (fun _ => ?_) (fun _ => ?_)
  · exact congruence.bind (congruence.toAccountId _) fun account => congruence.pure _
  · refine congruence.bind (congruence.toAccountId _) fun caller => ?_
    refine congruence.get fun s s' fork => ?_
    rw [fork]
    refine congruence.bind (congruence.ofTransaction _) fun contract => ?_
    refine congruence.bind (congruence.record _) fun _ => ?_
    refine congruence.bind (congruence.appHashCheck _ _ _) fun appHash => ?_
    cases appHash with
    | error e => exact congruence.text _ _
    | ok appHash =>
      refine congruence.bind (congruence.ofTransaction _) fun method => ?_
      refine congruence.bind (congruence.ofTransaction _) fun args => ?_
      refine congruence.bind (congruence.call _) fun called => ?_
      exact congruence.bind (unitOutcome_related congruence _) fun outcome => congruence.pure _

theorem handleBulkNodesExecution_related (congruence : ExecutorCongruence Rel)
    (same : SameNetwork config config') (height blockTimestamp : UInt64)
    (nodes : List SignedTransaction) (remainingWmFuel : UInt64) :
    Rel (config.handleBulkNodesExecution height blockTimestamp nodes remainingWmFuel)
      (config'.handleBulkNodesExecution height blockTimestamp nodes remainingWmFuel) := by
  induction nodes generalizing remainingWmFuel with
  | nil => exact congruence.pure _
  | cons node nodes ih =>
    rw [handleBulkNodesExecution, handleBulkNodesExecution, same.networkName]
    refine ExecutorCongruence.ite (fun _ => congruence.pure _) (fun _ => ?_)
    refine congruence.bind (congruence.expectAccountId _) fun caller => ?_
    refine congruence.get fun s s' fork => ?_
    rw [fork]
    refine congruence.bind (congruence.ofTransaction _) fun contract => ?_
    refine congruence.bind (congruence.record _) fun _ => ?_
    refine congruence.bind (congruence.appHashCheck _ _ _) fun appHash => ?_
    cases appHash with
    | error e => exact congruence.text _ _
    | ok appHash =>
      refine congruence.bind (congruence.ofTransaction _) fun method => ?_
      refine congruence.bind (congruence.ofTransaction _) fun args => ?_
      refine congruence.bind (congruence.call _) fun called => ?_
      obtain ⟨events, burntWmFuel, outcome⟩ := called
      cases outcome with
      | error e => exact congruence.text _ _
      | ok rcpt => exact congruence.bind (ih _) fun later => congruence.pure _

omit [NodeCodec] [Primitives] in
theorem handleBulkRoot_related (congruence : ExecutorCongruence Rel)
    (same : SameNetwork config config') (tx : SignedTransaction) (root : TransactionData)
    (bulkCaller : String) (limit height : UInt64) (index : UInt32) (blockTimestamp : UInt64) :
    Rel (config.handleBulkRoot tx root bulkCaller limit height index blockTimestamp)
      (config'.handleBulkRoot tx root bulkCaller limit height index blockTimestamp) := by
  cases root with
  | bulkRootV1 txData =>
    simp only [handleBulkRoot, same.networkName]
    refine ExecutorCongruence.ite (fun _ => congruence.pure _) (fun _ => ?_)
    refine congruence.bind (congruence.record _) fun _ => ?_
    refine congruence.bind (congruence.appHashCheck _ _ _) fun appHash => ?_
    cases appHash with
    | error e => exact congruence.text _ _
    | ok appHash => exact congruence.bind (congruence.call _) fun out => congruence.pure _
  | _ => exact congruence.pure _

/-- The parts of a bulk. -/
theorem handleBulkV1_related (congruence : ExecutorCongruence Rel)
    (same : SameNetwork config config') (tx : SignedTransaction) (data : TransactionDataBulkV1)
    (bulkCaller : String) (limit height : UInt64) (index : UInt32) (blockTimestamp : UInt64) :
    Rel (config.handleBulkV1 tx data bulkCaller limit height index blockTimestamp)
      (config'.handleBulkV1 tx data bulkCaller limit height index blockTimestamp) := by
  refine congruence.bind (handleBulkRoot_related congruence same tx _ bulkCaller limit height
    index blockTimestamp) fun rooted => ?_
  obtain receipt | ⟨events, burntWmFuel, e | rcpt⟩ := rooted
  · exact congruence.pure _
  · exact congruence.text _ _
  · exact congruence.bind (handleBulkNodesExecution_related congruence same height
      blockTimestamp _ _) fun later => congruence.pure _

theorem handleBulkTransaction_related (congruence : ExecutorCongruence Rel)
    (same : SameNetwork config config') (tx : SignedTransaction) (height : UInt64)
    (index : UInt32) (blockTimestamp : UInt64) :
    Rel (config.handleBulkTransaction tx height index blockTimestamp)
      (config'.handleBulkTransaction tx height index blockTimestamp) := by
  have data : ∀ bulkCaller limit,
      Rel (config.handleBulkData tx bulkCaller limit height index blockTimestamp)
        (config'.handleBulkData tx bulkCaller limit height index blockTimestamp) := by
    intro bulkCaller limit
    simp only [handleBulkData]
    cases tx.data with
    | bulkV1 data =>
      exact handleBulkV1_related congruence same tx data bulkCaller limit height index
        blockTimestamp
    | _ => exact congruence.pure _
  refine congruence.bind (congruence.toAccountId _) fun bulkCaller => ?_
  refine congruence.get fun s s' fork => ?_
  rw [fork]
  refine congruence.bind (data bulkCaller _) fun executed => ?_
  cases executed with
  | error receipt => exact congruence.pure _
  | ok out => exact congruence.bind (congruence.modifyFork _) fun _ => congruence.pure _

theorem handleTransaction_related (congruence : ExecutorCongruence Rel)
    (same : SameNetwork config config') (tx : Transaction) (height : UInt64) (index : UInt32)
    (blockTimestamp : UInt64) :
    Rel (config.handleTransaction tx height index blockTimestamp)
      (config'.handleTransaction tx height index blockTimestamp) := by
  cases tx with
  | unitTransaction tx =>
    exact handleUnitTransaction_related congruence same tx height index blockTimestamp
  | bulkTransaction tx =>
    exact handleBulkTransaction_related congruence same tx height index blockTimestamp

end Handling

theorem burnFuel_related (congruence : ExecutorCongruence Rel)
    (same : SameNetwork config config') (args : BurnFuelArgs) (blockTimestamp : UInt64) :
    Rel (config.burnFuel args blockTimestamp) (config'.burnFuel args blockTimestamp) := by
  rw [burnFuel, burnFuel, same.burningFuelMethod]
  refine ExecutorCongruence.ite (fun _ => congruence.pure _) (fun _ => ?_)
  refine congruence.get fun s s' fork => ?_
  rw [fork]
  cases s'.fork.accounts.loadAccount serviceAccountId with
  | none => exact congruence.pure _
  | some account =>
    dsimp only
    cases account.contract with
    | none => exact congruence.pure _
    | some contract => exact congruence.bind (congruence.call _) fun called => congruence.pure _

variable [Primitives]

/-- A whole transaction, with the burning of its fuel. -/
theorem executeTransaction_related (congruence : ExecutorCongruence Rel)
    (same : SameNetwork config config') (tx : Transaction) (height : UInt64) (index : UInt32)
    (blockTimestamp : UInt64) :
    Rel (config.executeTransaction tx height index blockTimestamp)
      (config'.executeTransaction tx height index blockTimestamp) := by
  refine congruence.bind (congruence.modifyFork _) fun _ => ?_
  refine congruence.bind (congruence.opened _) fun _ => ?_
  refine congruence.bind (handleTransaction_related congruence same tx height index
    blockTimestamp) fun res => ?_
  refine congruence.bind (burnFuel_related congruence same _ _) fun burnResult => ?_
  refine ExecutorCongruence.ite (fun _ => ?_) (fun _ => congruence.pure _)
  exact congruence.bind (congruence.modifyFork _) fun _ => congruence.pure _

/-- The transactions of a block, one after the other. -/
theorem executeBlockTransactions_related (congruence : ExecutorCongruence Rel)
    (same : SameNetwork config config') (height blockTimestamp : UInt64) (txs : List Transaction)
    (index : UInt32) :
    Rel (config.executeBlockTransactions height blockTimestamp txs index)
      (config'.executeBlockTransactions height blockTimestamp txs index) := by
  induction txs generalizing index with
  | nil => exact congruence.pure _
  | cons tx txs ih =>
    refine congruence.bind (executeTransaction_related congruence same tx height index
      blockTimestamp) fun receipt => ?_
    refine congruence.bind (congruence.modifyFork _) fun _ => ?_
    exact congruence.bind (ih _) fun later => congruence.pure _

/-- A whole block, if both nodes make the same note about its leader. -/
theorem executeInFork_related [Merkle] (congruence : ExecutorCongruence Rel)
    (same : SameNetwork config config') {block : Block} (txs : List Transaction)
    {expectedLeader : Option String}
    (note : config.noteLeader block expectedLeader = config'.noteLeader block expectedLeader) :
    Rel (config.executeInFork block txs expectedLeader)
      (config'.executeInFork block txs expectedLeader) := by
  rw [executeInFork, executeInFork, note]
  refine congruence.bind (congruence.modifyFork _) fun _ => ?_
  refine congruence.bind (executeBlockTransactions_related congruence same _ _ txs 0)
    fun receiptsHashes => ?_
  refine congruence.get fun s s' fork => ?_
  rw [fork]
  exact congruence.bind (congruence.modifyFork _) fun _ => congruence.pure _

end WasmConfig

end Trinci
