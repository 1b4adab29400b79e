import Trinci.WasmService

/-!
# What an execution runs and what it leaves alone

While a transaction is executed the ledger of the fork does not change: contracts
write accounts, and a rollback goes back to the checkpoint made before. What is
run is some of the parts the transaction has, in their order. Both are proved for
each function once, for any machine.
-/

namespace Trinci

open StatefulSteps Exec

/-- Two databases with the same record of transactions. -/
structure Db.SameLedger (db db' : Db) : Prop where
  transactions : db.transactions = db'.transactions
  attachments : db.attachments = db'.attachments

variable {W : Type}

/-- At most the listed parts were run, in this order, and the ledger was kept. -/
structure Within (parts : List Ran) (s t : Execution W) : Prop where
  ran : ∃ extra, t.ran = s.ran ++ extra ∧ extra.Sublist parts
  executed : t.executed = s.executed
  saved : t.fork.saved = s.fork.saved
  ledger : s.fork.working.SameLedger s.fork.saved → t.fork.working.SameLedger t.fork.saved

namespace Within

variable {parts parts' : List Ran} {s t u : Execution W}

theorem refl (s : Execution W) : Within [] s s :=
  ⟨⟨[], by simp, List.Sublist.refl []⟩, rfl, rfl, fun h => h⟩

theorem mono (h : Within parts s t) (sub : parts.Sublist parts') : Within parts' s t := by
  obtain ⟨extra, hran, hextra⟩ := h.ran
  exact ⟨⟨extra, hran, hextra.trans sub⟩, h.executed, h.saved, h.ledger⟩

theorem trans (h : Within parts s t) (h' : Within parts' t u) : Within (parts ++ parts') s u := by
  obtain ⟨extra, hran, hextra⟩ := h.ran
  obtain ⟨extra', hran', hextra'⟩ := h'.ran
  refine ⟨⟨extra ++ extra', ?_, hextra.append hextra'⟩, h'.executed.trans h.executed,
    h'.saved.trans h.saved, fun hsame => h'.ledger (h.ledger hsame)⟩
  rw [hran', hran, List.append_assoc]

end Within

/-- A computation that runs at most the listed parts. -/
abbrev Runs {α : Type} (parts : List Ran) (x : Exec W α) : Prop := Moves (Within parts) x

namespace Runs

variable {α β : Type} {parts parts' : List Ran}

theorem pure (a : α) : Runs [] (pure a : Exec W α) := Moves.pure Within.refl a

theorem throw (e : Stop) : Runs [] (throw e : Exec W α) := Moves.throw Within.refl e

theorem get : Runs [] (get : Exec W (Execution W)) := Moves.get Within.refl

theorem mono {x : Exec W α} (h : Runs parts x) (sub : parts.Sublist parts') : Runs parts' x :=
  Moves.imp h fun _ _ hwithin => hwithin.mono sub

theorem nil {x : Exec W α} (h : Runs [] x) : Runs parts x := h.mono (List.nil_sublist parts)

theorem bind {x : Exec W α} {f : α → Exec W β} (hx : Runs parts x)
    (hf : ∀ a, Runs parts' (f a)) : Runs (parts ++ parts') (x >>= f) :=
  Moves.bind hx hf (fun _ _ h => h.mono (List.sublist_append_left parts parts'))
    fun _ _ _ h h' => h.trans h'

/-- A first step that runs nothing. -/
theorem bind_nil {x : Exec W α} {f : α → Exec W β} (hx : Runs [] x)
    (hf : ∀ a, Runs parts (f a)) : Runs parts (x >>= f) := by
  simpa using Runs.bind hx hf

/-- A last step that runs nothing. -/
theorem bind_last {x : Exec W α} {f : α → Exec W β} (hx : Runs parts x)
    (hf : ∀ a, Runs [] (f a)) : Runs parts (x >>= f) := by
  simpa using Runs.bind hx hf

/-- What was run is known before a last step that runs nothing. -/
theorem ran_bind {x : Exec W α} {f : α → Exec W β} (hf : ∀ a, Runs [] (f a))
    (s : Execution W) : (after (x >>= f) s).ran = (after x s).ran := by
  cases h : result x s with
  | error e => rw [(bind_error h).1]
  | ok a =>
    obtain ⟨extra, hran, hextra⟩ := (hf a (after x s)).ran
    rw [(bind_ok h).1, hran, List.sublist_nil.mp hextra, List.append_nil]

/-- A last step that only returns. -/
theorem bind_pure {x : Exec W α} (hx : Runs parts x) (f : α → β) :
    Runs parts (x >>= fun a => Pure.pure (f a)) := by
  simpa using Runs.bind hx fun a => Runs.pure (f a)

theorem ite {c : Prop} [Decidable c] {x y : Exec W α} (hx : c → Runs parts x)
    (hy : ¬ c → Runs parts y) : Runs parts (if c then x else y) := by
  by_cases hc : c
  · rw [if_pos hc]
    exact hx hc
  · rw [if_neg hc]
    exact hy hc

theorem panic (p : ExecutionPanic) : Runs [] (Exec.panic p : Exec W α) := Runs.throw _

theorem ofTransaction (x : Except TransactionPanic α) : Runs [] (Exec.ofTransaction x : Exec W α) := by
  cases x with
  | error p => exact Runs.panic _
  | ok a => exact Runs.pure a

theorem ofText (x : Except MachinePanic α) : Runs [] (Exec.ofText x : Exec W α) := by
  cases x with
  | error p => exact Runs.panic _
  | ok a => exact Runs.pure a

theorem record (part : Ran) : Runs [part] (Exec.record part : Exec W PUnit) :=
  Moves.modify fun _ => ⟨⟨[part], rfl, List.Sublist.refl _⟩, rfl, rfl, fun h => h⟩

theorem bind_record (part : Ran) {f : PUnit → Exec W β} (hf : ∀ a, Runs parts (f a)) :
    Runs (part :: parts) (Exec.record part >>= f) :=
  Runs.bind (Runs.record part) hf

theorem rollback : Runs [] (modifyFork DbFork.rollback : Exec W PUnit) :=
  Moves.modify fun _ => ⟨⟨[], by simp, List.Sublist.refl _⟩, rfl, rfl, fun _ => ⟨rfl, rfl⟩⟩

theorem rollback_if (keep : Bool) :
    Runs [] (modifyFork fun fork => if keep then fork else fork.rollback : Exec W PUnit) := by
  cases keep with
  | false => exact Runs.rollback
  | true =>
    exact Moves.modify fun _ => ⟨⟨[], by simp, List.Sublist.refl _⟩, rfl, rfl, fun h => h⟩

theorem toAccountId [Primitives] (key : TrinciPublicKey) :
    Runs [] (Exec.toAccountId key : Exec W String) := by
  unfold Exec.toAccountId
  split
  · exact Runs.panic _
  · exact Runs.throw _
  · exact Runs.pure _

theorem expectAccountId [Primitives] (key : TrinciPublicKey) :
    Runs [] (Exec.expectAccountId key : Exec W String) := by
  unfold Exec.expectAccountId
  split
  · exact Runs.panic _
  · exact Runs.panic _
  · exact Runs.pure _

/-- Contracts write accounts only. -/
theorem setWorld (w : World W) :
    Runs [] (modify fun s => Exec.setWorld s w : Exec W PUnit) :=
  Moves.modify fun _ => ⟨⟨[], by simp [Exec.setWorld], List.Sublist.refl _⟩, rfl, rfl,
    fun h => ⟨h.transactions, h.attachments⟩⟩

variable [Wm W]

omit [Wm W] in
theorem ofMachine (run : World W → Except MachinePanic (World W × α)) :
    Runs [] (Exec.ofMachine run) := by
  refine Runs.bind_nil Runs.get fun s => ?_
  cases run (Exec.world s) with
  | error p => exact Runs.panic _
  | ok left => exact Runs.bind_nil (Runs.setWorld left.1) fun _ => Runs.pure _

theorem call (args : CallArgs) :
    Runs [] (Exec.call args : Exec W (List SmartContractEvent × UInt64 × Except WasmError Bytes)) :=
  Runs.ofMachine _

theorem appHashCheck (contract : Option Hash) (ctxArgs : CtxArgs) (blockTimestamp : UInt64) :
    Runs [] (Exec.appHashCheck contract ctxArgs blockTimestamp : Exec W (Except WasmError Hash)) :=
  Runs.ofMachine _

end Runs

/-! ## Steps that leave the state -/

section Quiet

variable {α : Type}

theorem after_ofText (x : Except MachinePanic α) (s : Execution W) :
    after (Exec.ofText x) s = s := by
  cases x <;> rfl

theorem after_ofTransaction (x : Except TransactionPanic α) (s : Execution W) :
    after (Exec.ofTransaction x) s = s := by
  cases x <;> rfl

theorem after_expectAccountId [Primitives] (key : TrinciPublicKey) (s : Execution W) :
    after (Exec.expectAccountId key) s = s := by
  simp only [Exec.expectAccountId]
  cases key.toAccountId with
  | error p => rfl
  | ok r => cases r <;> rfl

theorem after_toAccountId [Primitives] (key : TrinciPublicKey) (s : Execution W) :
    after (Exec.toAccountId key) s = s := by
  simp only [Exec.toAccountId]
  cases key.toAccountId with
  | error p => rfl
  | ok r => cases r <;> rfl

end Quiet

/-! ## The parts of a transaction -/

section Parts

variable [Primitives]

def unitPart (tx : SignedTransaction) : Ran := ⟨.unit, tx.data.getCaller, tx.data, tx.signature⟩

def rootPart (tx : SignedTransaction) : Ran := ⟨.root, tx.data.getCaller, tx.data, tx.signature⟩

def nodePart (node : SignedTransaction) : Ran :=
  ⟨.node, node.data.getCaller, node.data, node.signature⟩

/-- The nodes before the first whose caller has no account id. -/
def runnableNodes (nodes : List SignedTransaction) : List SignedTransaction :=
  nodes.takeWhile fun node => node.data.getCaller.accountId?.isSome

theorem runnableNodes_cons {node : SignedTransaction} {nodes : List SignedTransaction}
    (h : node.data.getCaller.accountId?.isSome) :
    runnableNodes (node :: nodes) = node :: runnableNodes nodes := by
  simp [runnableNodes, h]

/-- What the execution of a bulk may run, by the kind of its root. -/
def bulkParts (tx : SignedTransaction) (data : TransactionDataBulkV1) : List Ran :=
  let nodes := (runnableNodes (data.txs.nodes.getD [])).map nodePart
  match data.txs.root.data with
  | .bulkRootV1 _ => rootPart tx :: nodes
  | .bulkEmptyRoot _ => nodes
  | _ => []

/-- What the execution of a transaction may run. -/
def partsOf : Transaction → List Ran
  | .unitTransaction tx => [unitPart tx]
  | .bulkTransaction tx =>
    match tx.data with
    | .bulkV1 data => if tx.data.getCaller.accountId?.isSome then bulkParts tx data else []
    | _ => []

/-- Without an account id there is a panic or an error in its place. -/
theorem toAccountId_of_isNone {key : TrinciPublicKey} (h : ¬ key.accountId?.isSome) :
    (∃ p, key.toAccountId = .error p) ∨ ∃ e, key.toAccountId = .ok (.error e) := by
  unfold TrinciPublicKey.accountId? at h
  rcases hkey : key.toAccountId with p | e | id
  · exact .inl ⟨p, rfl⟩
  · exact .inr ⟨e, rfl⟩
  · simp [hkey] at h

theorem expectAccountId_error {key : TrinciPublicKey} (h : ¬ key.accountId?.isSome) :
    ∃ e, (Exec.expectAccountId key : Exec W String) = throw e := by
  unfold Exec.expectAccountId
  rcases toAccountId_of_isNone h with ⟨p, hkey⟩ | ⟨e, hkey⟩
  · rw [hkey]
    exact ⟨_, rfl⟩
  · rw [hkey]
    exact ⟨_, rfl⟩

theorem toAccountId_error {key : TrinciPublicKey} (h : ¬ key.accountId?.isSome) :
    ∃ e, (Exec.toAccountId key : Exec W String) = throw e := by
  unfold Exec.toAccountId
  rcases toAccountId_of_isNone h with ⟨p, hkey⟩ | ⟨e, hkey⟩
  · rw [hkey]
    exact ⟨_, rfl⟩
  · rw [hkey]
    exact ⟨_, rfl⟩

omit [Primitives] in
theorem runs_throw_bind {α β : Type} (e : Stop) (f : α → Exec W β) :
    Runs [] ((throw e : Exec W α) >>= f) := by
  intro s
  rw [(bind_error (result_throw e s)).1]
  exact Within.refl s

end Parts

namespace WasmConfig

variable [Primitives] [NodeCodec] [Wm W] (config : WasmConfig)

omit [Primitives] [NodeCodec] [Wm W] in
theorem unitOutcome_runs (outcome : Except WasmError Bytes) :
    Runs [] (unitOutcome outcome : Exec W (Bool × Bytes × Bool)) := by
  cases outcome with
  | ok value => exact Runs.pure _
  | error err =>
    refine Runs.bind_nil Runs.rollback fun _ => ?_
    split
    · exact Runs.bind_nil (Runs.ofText _) fun msg => Runs.pure _
    · exact Runs.bind_nil (Runs.ofText _) fun msg => Runs.pure _
    · refine Runs.bind_nil (Runs.ofText _) fun kind => ?_
      cases kind with
      | some msg => exact Runs.pure _
      | none => exact Runs.panic _

theorem handleUnitTransaction_runs (tx : SignedTransaction) (height : UInt64) (index : UInt32)
    (blockTimestamp : UInt64) :
    Runs [unitPart tx] (config.handleUnitTransaction tx height index blockTimestamp :
      Exec W HandleTransactionReturns) := by
  refine Runs.ite (fun _ => ?_) (fun _ => ?_)
  · exact Runs.nil (Runs.bind_nil (Runs.toAccountId _) fun _ => Runs.pure _)
  · refine Runs.bind_nil (Runs.toAccountId _) fun caller => ?_
    refine Runs.bind_nil Runs.get fun s => ?_
    refine Runs.bind_nil (Runs.ofTransaction _) fun contract => ?_
    refine Runs.bind_record _ fun _ => ?_
    refine Runs.bind_nil (Runs.appHashCheck _ _ _) fun appHash => ?_
    cases appHash with
    | error e => exact Runs.bind_nil (Runs.ofText _) fun msg => Runs.pure _
    | ok appHash =>
      refine Runs.bind_nil (Runs.ofTransaction _) fun method => ?_
      refine Runs.bind_nil (Runs.ofTransaction _) fun args => ?_
      refine Runs.bind_nil (Runs.call _) fun called => ?_
      refine Runs.bind_nil (unitOutcome_runs _) fun outcome => ?_
      exact Runs.pure _

theorem handleBulkNodesExecution_runs (height blockTimestamp : UInt64)
    (nodes : List SignedTransaction) (remainingWmFuel : UInt64) :
    Runs ((runnableNodes nodes).map nodePart)
      (config.handleBulkNodesExecution height blockTimestamp nodes remainingWmFuel :
        Exec W (List SmartContractEvent × List (String × BulkResult))) := by
  induction nodes generalizing remainingWmFuel with
  | nil => exact Runs.pure _
  | cons node nodes ih =>
    rw [handleBulkNodesExecution]
    refine Runs.ite (fun _ => Runs.nil (Runs.pure _)) (fun _ => ?_)
    by_cases hcaller : node.data.getCaller.accountId?.isSome
    · rw [runnableNodes_cons hcaller, List.map_cons]
      refine Runs.bind_nil (Runs.expectAccountId _) fun caller => ?_
      refine Runs.bind_nil Runs.get fun s => ?_
      refine Runs.bind_nil (Runs.ofTransaction _) fun contract => ?_
      refine Runs.bind_record (nodePart node) fun _ => ?_
      refine Runs.bind_nil (Runs.appHashCheck _ _ _) fun appHash => ?_
      cases appHash with
      | error e => exact Runs.nil (Runs.bind_nil (Runs.ofText _) fun msg => Runs.pure _)
      | ok appHash =>
        refine Runs.bind_nil (Runs.ofTransaction _) fun method => ?_
        refine Runs.bind_nil (Runs.ofTransaction _) fun args => ?_
        refine Runs.bind_nil (Runs.call _) fun called => ?_
        obtain ⟨events, burntWmFuel, outcome⟩ := called
        cases outcome with
        | error e => exact Runs.nil (Runs.bind_nil (Runs.ofText _) fun msg => Runs.pure _)
        | ok rcpt =>
          exact Runs.bind_pure (ih _) fun later => _
    · obtain ⟨e, he⟩ := expectAccountId_error (W := W) hcaller
      rw [he]
      exact Runs.nil (runs_throw_bind e _)

/-- The parts of a bulk apart from its nodes. -/
def rootParts (tx : SignedTransaction) : TransactionData → List Ran
  | .bulkRootV1 _ => [rootPart tx]
  | _ => []

omit [Primitives] [NodeCodec] in
theorem handleBulkRoot_runs (tx : SignedTransaction) (root : TransactionData)
    (bulkCaller : String) (limit height : UInt64) (index : UInt32) (blockTimestamp : UInt64) :
    Runs (rootParts tx root)
      (config.handleBulkRoot tx root bulkCaller limit height index blockTimestamp : Exec W _) := by
  cases root with
  | bulkRootV1 txData =>
    refine Runs.ite (fun _ => Runs.nil (Runs.pure _)) (fun _ => ?_)
    refine Runs.bind_record (rootPart tx) fun _ => ?_
    refine Runs.bind_nil (Runs.appHashCheck _ _ _) fun appHash => ?_
    cases appHash with
    | error e => exact Runs.bind_nil (Runs.ofText _) fun msg => Runs.pure _
    | ok appHash => exact Runs.bind_nil (Runs.call _) fun out => Runs.pure _
  | _ => exact Runs.pure _

theorem handleBulkAfterRoot_runs (data : TransactionDataBulkV1) (limit height : UInt64)
    (blockTimestamp : UInt64)
    (rooted : Except Receipt (List SmartContractEvent × UInt64 × Except WasmError Bytes)) :
    Runs ((runnableNodes (data.txs.nodes.getD [])).map nodePart)
      (config.handleBulkAfterRoot data limit height blockTimestamp rooted : Exec W _) := by
  unfold handleBulkAfterRoot
  split
  · exact Runs.nil (Runs.pure _)
  · exact Runs.nil (Runs.bind_nil (Runs.ofText _) fun msg => Runs.pure _)
  · exact Runs.bind_pure (config.handleBulkNodesExecution_runs height blockTimestamp _ _) _

/-- The nodes of a bulk run only after a root of one of the two kinds. -/
theorem handleBulkV1_runs (tx : SignedTransaction) (data : TransactionDataBulkV1)
    (bulkCaller : String) (limit height : UInt64) (index : UInt32) (blockTimestamp : UInt64) :
    Runs (bulkParts tx data)
      (config.handleBulkV1 tx data bulkCaller limit height index blockTimestamp : Exec W _) := by
  have rest := config.handleBulkAfterRoot_runs (W := W) data limit height blockTimestamp
  have root := config.handleBulkRoot_runs (W := W) tx data.txs.root.data bulkCaller limit height
    index blockTimestamp
  have stopped : ∀ receipt, Runs [] (config.handleBulkAfterRoot data limit height blockTimestamp
      (.error receipt) : Exec W _) := fun receipt => Runs.pure _
  unfold handleBulkV1 bulkParts
  generalize data.txs.root.data = kind at root
  cases kind with
  | bulkRootV1 txData => exact Runs.bind root rest
  | bulkEmptyRoot txData => exact Runs.bind_nil root rest
  | _ => exact stopped _

theorem handleBulkTransaction_runs (tx : SignedTransaction) (height : UInt64) (index : UInt32)
    (blockTimestamp : UInt64) :
    Runs (partsOf (.bulkTransaction tx))
      (config.handleBulkTransaction tx height index blockTimestamp :
        Exec W HandleTransactionReturns) := by
  by_cases hcaller : tx.data.getCaller.accountId?.isSome
  · have executed : ∀ caller limit, Runs (partsOf (.bulkTransaction tx))
        (config.handleBulkData tx caller limit height index blockTimestamp : Exec W _) := by
      intro caller limit
      cases hdata : tx.data with
      | bulkV1 data =>
        have parts : partsOf (.bulkTransaction tx) = bulkParts tx data := by
          simp only [partsOf, hdata, hdata ▸ hcaller, if_true]
        have whole : config.handleBulkData (W := W) tx caller limit height index blockTimestamp =
            config.handleBulkV1 tx data caller limit height index blockTimestamp := by
          simp only [handleBulkData, hdata]
        rw [parts, whole]
        exact config.handleBulkV1_runs tx data caller limit height index blockTimestamp
      | _ =>
        have whole : config.handleBulkData (W := W) tx caller limit height index blockTimestamp =
            pure (.ok (none, [])) := by
          simp only [handleBulkData, hdata]
        rw [whole]
        exact Runs.nil (Runs.pure _)
    refine Runs.bind_nil (Runs.toAccountId _) fun caller => ?_
    refine Runs.bind_nil Runs.get fun s => ?_
    refine Runs.bind_last (executed caller _) fun outcome => ?_
    cases outcome with
    | error receipt => exact Runs.pure _
    | ok results => exact Runs.bind_nil (Runs.rollback_if _) fun _ => Runs.pure _
  · obtain ⟨e, he⟩ := toAccountId_error (W := W) hcaller
    rw [handleBulkTransaction, he]
    exact Runs.nil (runs_throw_bind e _)

/-- Executing a transaction runs at most its parts. -/
theorem handleTransaction_runs (tx : Transaction) (height : UInt64) (index : UInt32)
    (blockTimestamp : UInt64) :
    Runs (partsOf tx) (config.handleTransaction tx height index blockTimestamp :
      Exec W HandleTransactionReturns) := by
  cases tx with
  | unitTransaction tx => exact config.handleUnitTransaction_runs tx height index blockTimestamp
  | bulkTransaction tx => exact config.handleBulkTransaction_runs tx height index blockTimestamp

omit [Primitives] in
theorem burnFuel_runs (args : BurnFuelArgs) (blockTimestamp : UInt64) :
    Runs [] (config.burnFuel args blockTimestamp : Exec W (Except WasmError Bytes)) := by
  refine Runs.ite (fun _ => Runs.pure _) (fun _ => ?_)
  refine Runs.bind_nil Runs.get fun s => ?_
  split
  · exact Runs.pure _
  · split
    · exact Runs.pure _
    · exact Runs.bind_nil (Runs.call _) fun _ => Runs.pure _

/-! ## Blocks -/

/-- The state a transaction is handled in. -/
def opened (tx : Transaction) (s : Execution W) : Execution W :=
  { s with
    fork := s.fork.flush
    executed := s.executed ++ [tx.getHash] }

/-- The burning of the fuel, and what the receipt becomes. -/
def settled (res : HandleTransactionReturns) (height : UInt64) (index : UInt32)
    (blockTimestamp : UInt64) : Exec W Receipt := do
  let burnResult ← config.burnFuel res.burnFuelArgs blockTimestamp
  let (burnOk, burntUnits) := burnOutcome burnResult
  if 0 < height ∧ (!burnOk ∨ res.burnFuelArgs.fuelLimit < res.burnFuelArgs.fuelToBurn) then do
    modifyFork DbFork.rollback
    return ⟨height, index, 0, false, bytesOf "error burning fuel", res.receipt.events⟩
  else return { res.receipt with burnedFuel := burntUnits }

omit [Primitives] in
theorem settled_runs (res : HandleTransactionReturns) (height : UInt64) (index : UInt32)
    (blockTimestamp : UInt64) :
    Runs [] (config.settled res height index blockTimestamp : Exec W Receipt) := by
  refine Runs.bind_nil (config.burnFuel_runs res.burnFuelArgs blockTimestamp) fun burnt => ?_
  refine Runs.ite (fun _ => ?_) (fun _ => Runs.pure _)
  exact Runs.bind_nil Runs.rollback fun _ => Runs.pure _

theorem after_executeTransaction (tx : Transaction) (height : UInt64) (index : UInt32)
    (blockTimestamp : UInt64) (s : Execution W) :
    after (config.executeTransaction tx height index blockTimestamp) s =
      after (config.handleTransaction tx height index blockTimestamp >>= fun res =>
        config.settled res height index blockTimestamp) (opened tx s) := rfl

/-- What follows the opening of a transaction runs at most its parts. -/
theorem executeTransaction_within (tx : Transaction) (height : UInt64) (index : UInt32)
    (blockTimestamp : UInt64) (s : Execution W) :
    Within (partsOf tx) (opened tx s)
      (after (config.executeTransaction tx height index blockTimestamp) s) := by
  rw [after_executeTransaction]
  exact Runs.bind_last (config.handleTransaction_runs tx height index blockTimestamp)
    (fun res => config.settled_runs res height index blockTimestamp) (opened tx s)

/-- The parts that are run are those run by the handler of the transaction. -/
theorem executeTransaction_ran (tx : Transaction) (height : UInt64) (index : UInt32)
    (blockTimestamp : UInt64) (s : Execution W) :
    (after (config.executeTransaction tx height index blockTimestamp) s).ran =
      (after (config.handleTransaction tx height index blockTimestamp) (opened tx s)).ran := by
  rw [after_executeTransaction]
  exact Runs.ran_bind (fun res => config.settled_runs res height index blockTimestamp) _

end WasmConfig

section Blocks

variable [Primitives] [NodeCodec]

def attached (tx : Transaction) : List Hash := (Db.retrieveAttachmentsFromTx tx).getD []

/-- What the execution of these transactions one after the other does. -/
structure Executes (txs : List Transaction) (s t : Execution W) : Prop where
  executed : t.executed = s.executed ++ txs.map Transaction.getHash
  ran : ∃ extra, t.ran = s.ran ++ extra ∧ extra.Sublist (txs.flatMap partsOf)
  transactions : ∀ hash, hash ∈ t.fork.working.transactions ↔
    hash ∈ s.fork.working.transactions ∨ hash ∈ txs.map Transaction.getHash
  attachments : ∀ hash, hash ∈ t.fork.working.attachments ↔
    hash ∈ s.fork.working.attachments ∨ hash ∈ txs.flatMap attached

namespace Executes

variable {s t u : Execution W} {tx : Transaction} {txs : List Transaction}

theorem refl (s : Execution W) : Executes [] s s where
  executed := by simp
  ran := ⟨[], by simp, List.Sublist.refl _⟩
  transactions _ := by simp
  attachments _ := by simp

theorem cons (h : Executes [tx] s t) (h' : Executes txs t u) : Executes (tx :: txs) s u where
  executed := by rw [h'.executed, h.executed, List.append_assoc]; rfl
  ran := by
    obtain ⟨extra, hran, hextra⟩ := h.ran
    obtain ⟨extra', hran', hextra'⟩ := h'.ran
    refine ⟨extra ++ extra', by rw [hran', hran, List.append_assoc], ?_⟩
    simpa using hextra.append hextra'
  transactions hash := by
    rw [h'.transactions, h.transactions, List.map_cons, List.mem_cons]
    simp [or_assoc]
  attachments hash := by
    rw [h'.attachments, h.attachments]
    simp [or_assoc]

end Executes

/-- The record of an executed transaction in its fork. -/
def stored (tx : Transaction) (receipt : Receipt) (s : Execution W) : Execution W :=
  { s with fork := s.fork.modify fun db =>
      (db.storeTransaction tx.getHash tx).storeReceipt tx.getHash receipt }

/-- A transaction that ran and was stored. -/
theorem executes_stored {tx : Transaction} {s t : Execution W}
    (h : Within (partsOf tx) (WasmConfig.opened tx s) t) (receipt : Receipt) :
    Executes [tx] s (stored tx receipt t) := by
  have ledger := h.ledger ⟨rfl, rfl⟩
  have kept : t.fork.saved = s.fork.working := h.saved
  rw [kept] at ledger
  constructor
  · exact h.executed
  · obtain ⟨extra, hran, hextra⟩ := h.ran
    exact ⟨extra, hran, by simpa using hextra⟩
  · intro hash
    simp [stored, DbFork.modify, Db.storeReceipt, ledger.transactions, or_comm]
  · intro hash
    have same : hash ∈ (t.fork.working.storeTransaction tx.getHash tx).attachments ↔ _ :=
      Db.mem_storeTransaction_attachments
    rw [ledger.attachments] at same
    simpa [stored, DbFork.modify, Db.storeReceipt, attached] using same

end Blocks

namespace WasmConfig

variable [Primitives] [NodeCodec] [Wm W] (config : WasmConfig)

/-- A block that is executed to its end executes each of its transactions, in order. -/
theorem executeBlockTransactions_executes (height blockTimestamp : UInt64)
    (txs : List Transaction) (index : UInt32) (s : Execution W) (hashes : List Hash)
    (h : result (config.executeBlockTransactions height blockTimestamp txs index) s = .ok hashes) :
    Executes txs s
      (after (config.executeBlockTransactions height blockTimestamp txs index) s) := by
  induction txs generalizing index s hashes with
  | nil => exact Executes.refl s
  | cons tx txs ih =>
    have within := config.executeTransaction_within tx height index blockTimestamp s
    obtain ⟨receipt, -, hrest, hafter⟩ := of_bind_ok h
    obtain ⟨-, -, hlater, hstored⟩ := of_bind_ok hrest
    obtain ⟨later, hlater, -, hreturn⟩ := of_bind_ok hlater
    have executed := ih _ _ _ hlater
    rw [executeBlockTransactions, hafter, hstored, hreturn]
    exact (executes_stored within receipt).cons executed

end WasmConfig

namespace WasmConfig

variable [Primitives] [NodeCodec] [Merkle] [Wm W] (config : WasmConfig)

omit [Merkle] [Wm W] in
/-- The slashing note changes accounts only. -/
theorem noteLeader_sameLedger (block : Block) (expectedLeader : Option String) (db : Db) :
    (config.noteLeader block expectedLeader db).SameLedger db := by
  unfold noteLeader
  split
  · exact ⟨rfl, rfl⟩
  · split
    · exact ⟨rfl, rfl⟩
    · exact ⟨rfl, rfl⟩

theorem executeInFork_executes (block : Block) (txs : List Transaction)
    (expectedLeader : Option String) (s : Execution W) (roots : Roots)
    (h : result (config.executeInFork block txs expectedLeader) s = .ok roots) :
    Executes txs s (after (config.executeInFork block txs expectedLeader) s) := by
  have noted := config.noteLeader_sameLedger block expectedLeader s.fork.working
  obtain ⟨-, -, hrest, hnoted⟩ := of_bind_ok h
  obtain ⟨receiptsHashes, hreceipts, hrest, hexecuted⟩ := of_bind_ok hrest
  have executes := config.executeBlockTransactions_executes _ _ _ _ _ _ hreceipts
  rw [executeInFork, hnoted, hexecuted]
  refine ⟨executes.executed, executes.ran, fun hash => ?_, fun hash => ?_⟩
  · rw [← noted.transactions]
    exact executes.transactions hash
  · rw [← noted.attachments]
    exact executes.attachments hash

end WasmConfig

end Trinci
