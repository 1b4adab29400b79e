import Trinci.ExecutionEffects

/-!
# How transactions fail

A transaction that is handled without success leaves the fork in one of three ways. It
was not run at all and nothing was touched, it was run and rolled back, or the contract of
its unit or of its root was refused before it could run. What the check of the contract
did stays in the fork then, as the handler returns without a rollback.
-/

namespace Trinci

open StatefulSteps Exec

variable {W : Type}

section Openings

variable [Primitives]

/-- The check that a unit is opened with, unless the unit is for another network. -/
def WasmConfig.unitCheck (config : WasmConfig) (height : UInt64) (tx : SignedTransaction) :
    Option (Option Hash × CtxArgs) :=
  if tx.data.getNetwork ≠ config.networkName ∧ 0 < height then none
  else
    tx.data.getCaller.accountId?.bind fun caller =>
      tx.data.getContract.toOption.map fun contract =>
        (contract, ⟨caller, tx.data.getAccount, caller⟩)

/-- The check that the root of a bulk is opened with. -/
def WasmConfig.rootCheck (config : WasmConfig) (height : UInt64) (bulkCaller : String) :
    TransactionData → Option (Option Hash × CtxArgs)
  | .bulkRootV1 txData =>
    if txData.network ≠ config.networkName ∧ 0 < height then none
    else some (txData.contract,
      ⟨bulkCaller, (TransactionData.bulkRootV1 txData).getAccount, bulkCaller⟩)
  | _ => none

def WasmConfig.bulkCheck (config : WasmConfig) (height : UInt64) (bulkCaller : String) :
    TransactionData → Option (Option Hash × CtxArgs)
  | .bulkV1 data => config.rootCheck height bulkCaller data.txs.root.data
  | _ => none

/-- The check that a transaction is opened with. -/
def WasmConfig.openingCheck (config : WasmConfig) (height : UInt64) :
    Transaction → Option (Option Hash × CtxArgs)
  | .unitTransaction tx => config.unitCheck height tx
  | .bulkTransaction tx =>
    tx.data.getCaller.accountId?.bind fun bulkCaller => config.bulkCheck height bulkCaller tx.data

def feeLimit : Transaction → UInt64
  | .unitTransaction tx => tx.data.getFuelLimit
  | .bulkTransaction tx => tx.data.getFuelLimit

theorem accountId?_of_result {key : TrinciPublicKey} {s : Execution W} {id : String}
    (h : result (Exec.toAccountId key) s = .ok id) : key.accountId? = some id := by
  rw [TrinciPublicKey.accountId?]
  rw [Exec.toAccountId] at h
  cases hkey : key.toAccountId with
  | error p =>
    rw [hkey] at h
    cases h
  | ok r =>
    rw [hkey] at h
    cases r with
    | error e => cases h
    | ok id' =>
      cases h
      rfl

omit [Primitives] in
theorem ofTransaction_ok {α : Type} {x : Except TransactionPanic α} {s : Execution W} {a : α}
    (h : result (Exec.ofTransaction x) s = .ok a) : x = .ok a := by
  cases x with
  | error p => cases h
  | ok b =>
    cases h
    rfl

end Openings

/-! ## Failures -/

section Failures

variable [Wm W]

/-- No check, or one that was not answered with an error. -/
def Accepted (check : Option (Option Hash × CtxArgs)) (blockTimestamp : UInt64)
    (s : Execution W) : Prop :=
  ∀ contract ctxArgs, check = some (contract, ctxArgs) →
    ∀ left e, Wm.appHashCheck contract ctxArgs blockTimestamp (world s) ≠ .ok (left, .error e)

/-- How a transaction that was handled leaves the fork. -/
inductive LeavesFork (check : Option (Option Hash × CtxArgs)) (fuelLimit blockTimestamp : UInt64)
    (s t : Execution W) (res : HandleTransactionReturns) : Prop
  | succeeded (accepted : Accepted check blockTimestamp s) (success : res.receipt.success = true)
  | untouched (accepted : Accepted check blockTimestamp s) (fork : t.fork = s.fork)
  | rolledBack (accepted : Accepted check blockTimestamp s) (fork : t.fork.working = t.fork.saved)
  /-- What the check did is in the fork, and the price of an error is to be burnt. -/
  | refused {contract : Option Hash} {ctxArgs : CtxArgs} {left : World W} {e : WasmError}
      (asked : check = some (contract, ctxArgs))
      (answered : Wm.appHashCheck contract ctxArgs blockTimestamp (world s) = .ok (left, .error e))
      (world : world t = left) (fork : t.fork = s.fork.setAccounts left.accounts)
      (args : res.burnFuelArgs = ⟨ctxArgs.caller, getFuelBurntForError, fuelLimit⟩)
      (failed : res.receipt.success = false)

theorem Accepted.of_none {blockTimestamp : UInt64} {s : Execution W} :
    Accepted none blockTimestamp s := by
  rintro contract ctxArgs ⟨⟩

/-- A check that was asked from a state with the same world. -/
theorem Accepted.of_answer {contract : Option Hash} {ctxArgs : CtxArgs} {blockTimestamp : UInt64}
    {s t : Execution W} {hash : Hash}
    (h : result (Exec.appHashCheck contract ctxArgs blockTimestamp) t = .ok (.ok hash))
    (same : world t = world s) :
    Accepted (some (contract, ctxArgs)) blockTimestamp s := by
  rintro _ _ ⟨⟩ left e hcheck
  rw [← same] at hcheck
  rw [Exec.appHashCheck, (ofMachine_ok hcheck).2] at h
  cases h

/-- What a check that is answered with an error leaves. -/
theorem appHashCheck_refused {contract : Option Hash} {ctxArgs : CtxArgs} {blockTimestamp : UInt64}
    {s : Execution W} {e : WasmError}
    (h : result (Exec.appHashCheck contract ctxArgs blockTimestamp) s = .ok (.error e)) :
    ∃ left, Wm.appHashCheck contract ctxArgs blockTimestamp (world s) = .ok (left, .error e) ∧
      after (Exec.appHashCheck contract ctxArgs blockTimestamp) s = setWorld s left := by
  rw [Exec.appHashCheck] at h ⊢
  cases hcheck : Wm.appHashCheck contract ctxArgs blockTimestamp (world s) with
  | error p =>
    rw [(ofMachine_error hcheck).2] at h
    cases h
  | ok out =>
    obtain ⟨left, checked⟩ := out
    rw [(ofMachine_ok hcheck).2] at h
    cases h
    exact ⟨left, rfl, (ofMachine_ok hcheck).1⟩

namespace WasmConfig

omit [Wm W] in
/-- The failed call of a unit is rolled back before its text is made. -/
theorem after_unitOutcome_error (err : WasmError) (s : Execution W) :
    after (unitOutcome (.error err)) s = { s with fork := s.fork.rollback } := by
  simp only [unitOutcome, modifyFork, after_modify_bind]
  split
  · exact after_quiet_bind (after_ofText _ _) fun msg => rfl
  · exact after_quiet_bind (after_ofText _ _) fun msg => rfl
  · refine after_quiet_bind (after_ofText _ _) fun kind => ?_
    cases kind with
    | some msg => rfl
    | none => rfl

omit [Wm W] in
theorem unitOutcome_rolledBack {outcome : Except WasmError Bytes} {s : Execution W}
    {out : Bool × Bytes × Bool} (h : result (unitOutcome outcome) s = .ok out)
    (failed : out.1 = false) : (after (unitOutcome outcome) s).fork = s.fork.rollback := by
  cases outcome with
  | ok value =>
    cases h
    cases failed
  | error err => rw [after_unitOutcome_error]

variable [Primitives] [NodeCodec] (config : WasmConfig)

theorem handleUnitTransaction_handled {tx : SignedTransaction} {height : UInt64} {index : UInt32}
    {blockTimestamp : UInt64} {s : Execution W} {res : HandleTransactionReturns}
    (h : result (config.handleUnitTransaction tx height index blockTimestamp) s = .ok res) :
    LeavesFork (config.unitCheck height tx) tx.data.getFuelLimit blockTimestamp s
      (after (config.handleUnitTransaction tx height index blockTimestamp) s) res := by
  rw [handleUnitTransaction] at h ⊢
  rw [unitCheck]
  by_cases foreign : tx.data.getNetwork ≠ config.networkName ∧ 0 < height
  · rw [if_pos foreign] at h ⊢
    rw [if_pos foreign]
    obtain ⟨caller, -, -, hafter⟩ := of_quiet_bind_ok (after_toAccountId _ _) h
    rw [hafter]
    exact .untouched .of_none rfl
  · rw [if_neg foreign] at h ⊢
    rw [if_neg foreign]
    obtain ⟨caller, hcaller, h, hafter⟩ := of_quiet_bind_ok (after_toAccountId _ _) h
    rw [hafter, accountId?_of_result hcaller]
    obtain ⟨_, hget, h, hafter⟩ := of_quiet_bind_ok (after_get _) h
    cases hget
    rw [hafter]
    obtain ⟨contract, hcontract, h, hafter⟩ := of_quiet_bind_ok (after_ofTransaction _ _) h
    rw [hafter, ofTransaction_ok hcontract]
    obtain ⟨_, -, h, hafter⟩ := of_bind_ok h
    rw [hafter]
    obtain ⟨appHash, hcheck, h, hafter⟩ := of_bind_ok h
    rw [hafter]
    cases appHash with
    | error e =>
      obtain ⟨left, answered, hleft⟩ := appHashCheck_refused hcheck
      obtain ⟨msg, -, h, hafter⟩ := of_quiet_bind_ok (after_ofText _ _) h
      cases h
      rw [hafter, hleft]
      exact .refused rfl answered rfl rfl rfl rfl
    | ok appHash =>
      have accepted := Accepted.of_answer (s := s) hcheck rfl
      obtain ⟨method, -, h, hafter⟩ := of_quiet_bind_ok (after_ofTransaction _ _) h
      rw [hafter]
      obtain ⟨args, -, h, hafter⟩ := of_quiet_bind_ok (after_ofTransaction _ _) h
      rw [hafter]
      obtain ⟨⟨events, burntWmFuel, outcome⟩, -, h, hafter⟩ := of_bind_ok h
      rw [hafter]
      obtain ⟨⟨success, returns, isSmartcontractFault⟩, houtcome, h, hafter⟩ := of_bind_ok h
      rw [hafter]
      cases h
      cases success with
      | true => exact .succeeded accepted rfl
      | false =>
        have fork := unitOutcome_rolledBack houtcome rfl
        refine .rolledBack accepted ?_
        rw [after_pure, fork]
        rfl

/-- How a bulk leaves the fork up to its outcome: its root was accepted, and did nothing if
the bulk ends with a receipt of its own, or was refused and ends the bulk. -/
inductive Checked {α : Type} (check : Option (Option Hash × CtxArgs)) (blockTimestamp : UInt64)
    (s t : Execution W) : Except Receipt α → Prop
  | accepted {outcome : Except Receipt α} (accepted : Accepted check blockTimestamp s)
      (fork : ∀ receipt, outcome = .error receipt → t.fork = s.fork) :
      Checked check blockTimestamp s t outcome
  | refused {receipt : Receipt} {contract : Option Hash} {ctxArgs : CtxArgs} {left : World W}
      {e : WasmError} (asked : check = some (contract, ctxArgs))
      (answered : Wm.appHashCheck contract ctxArgs blockTimestamp (world s) = .ok (left, .error e))
      (world : world t = left) (fork : t.fork = s.fork.setAccounts left.accounts)
      (failed : receipt.success = false) :
      Checked check blockTimestamp s t (.error receipt)

omit [Primitives] [NodeCodec] in
theorem handleBulkRoot_checked {tx : SignedTransaction} {root : TransactionData}
    {bulkCaller : String} {limit height : UInt64} {index : UInt32} {blockTimestamp : UInt64}
    {s : Execution W}
    {rooted : Except Receipt (List SmartContractEvent × UInt64 × Except WasmError Bytes)}
    (h : result (config.handleBulkRoot tx root bulkCaller limit height index blockTimestamp) s =
      .ok rooted) :
    Checked (config.rootCheck height bulkCaller root) blockTimestamp s
      (after (config.handleBulkRoot tx root bulkCaller limit height index blockTimestamp) s)
      rooted := by
  cases root with
  | bulkRootV1 txData =>
    rw [handleBulkRoot] at h ⊢
    rw [rootCheck]
    by_cases foreign : txData.network ≠ config.networkName ∧ 0 < height
    · rw [if_pos foreign] at h ⊢
      rw [if_pos foreign]
      exact .accepted .of_none fun receipt hreceipt => rfl
    · rw [if_neg foreign] at h ⊢
      rw [if_neg foreign]
      obtain ⟨_, -, h, hafter⟩ := of_bind_ok h
      rw [hafter]
      obtain ⟨appHash, hcheck, h, hafter⟩ := of_bind_ok h
      rw [hafter]
      cases appHash with
      | error e =>
        obtain ⟨left, answered, hleft⟩ := appHashCheck_refused hcheck
        obtain ⟨msg, -, h, hafter⟩ := of_quiet_bind_ok (after_ofText _ _) h
        cases h
        rw [hafter, hleft]
        exact .refused rfl answered rfl rfl rfl
      | ok appHash =>
        obtain ⟨out, -, h, -⟩ := of_bind_ok h
        cases h
        refine .accepted (.of_answer hcheck rfl) ?_
        rintro receipt ⟨⟩
  | _ => exact .accepted .of_none fun receipt hreceipt => rfl

theorem handleBulkData_checked {tx : SignedTransaction} {bulkCaller : String}
    {limit height : UInt64} {index : UInt32} {blockTimestamp : UInt64} {s : Execution W}
    {executed : Except Receipt (Option (List SmartContractEvent) × List (String × BulkResult))}
    (h : result (config.handleBulkData tx bulkCaller limit height index blockTimestamp) s =
      .ok executed) :
    Checked (config.bulkCheck height bulkCaller tx.data) blockTimestamp s
      (after (config.handleBulkData tx bulkCaller limit height index blockTimestamp) s)
      executed := by
  rw [handleBulkData] at h ⊢
  cases hdata : tx.data with
  | bulkV1 data =>
    rw [hdata] at h
    change result (config.handleBulkV1 tx data bulkCaller limit height index blockTimestamp) s = _ at h
    change Checked _ blockTimestamp s
      (after (config.handleBulkV1 tx data bulkCaller limit height index blockTimestamp) s) executed
    rw [handleBulkV1] at h ⊢
    rw [bulkCheck]
    obtain ⟨rooted, hroot, h, hafter⟩ := of_bind_ok h
    rw [hafter]
    cases config.handleBulkRoot_checked hroot with
    | refused asked answered world fork failed =>
      cases h
      exact .refused asked answered world fork failed
    | accepted accepted fork =>
      refine .accepted accepted ?_
      rintro receipt rfl
      obtain receipt' | ⟨events, burntWmFuel, e | rcpt⟩ := rooted
      · exact fork receipt' rfl
      · obtain ⟨msg, -, h, -⟩ := of_bind_ok h
        cases h
      · obtain ⟨later, -, h, -⟩ := of_bind_ok h
        cases h
  | _ =>
    rw [hdata] at h
    cases h
    refine .accepted .of_none ?_
    rintro receipt ⟨⟩

omit [Wm W] [Primitives] [NodeCodec] in
theorem bulkCheck_caller {height : UInt64} {bulkCaller : String} {data : TransactionData}
    {contract : Option Hash} {ctxArgs : CtxArgs}
    (h : config.bulkCheck height bulkCaller data = some (contract, ctxArgs)) :
    ctxArgs.caller = bulkCaller := by
  cases data with
  | bulkV1 data =>
    rw [bulkCheck] at h
    cases hroot : data.txs.root.data with
    | bulkRootV1 txData =>
      rw [hroot, rootCheck] at h
      split at h
      · cases h
      · cases h
        rfl
    | _ =>
      rw [hroot] at h
      cases h
  | _ => cases h

theorem handleBulkTransaction_handled {tx : SignedTransaction} {height : UInt64} {index : UInt32}
    {blockTimestamp : UInt64} {s : Execution W} {res : HandleTransactionReturns}
    (h : result (config.handleBulkTransaction tx height index blockTimestamp) s = .ok res) :
    LeavesFork (config.openingCheck height (.bulkTransaction tx)) tx.data.getFuelLimit blockTimestamp s
      (after (config.handleBulkTransaction tx height index blockTimestamp) s) res := by
  rw [handleBulkTransaction] at h ⊢
  obtain ⟨bulkCaller, hcaller, h, hafter⟩ := of_quiet_bind_ok (after_toAccountId _ _) h
  have hopening : config.openingCheck height (.bulkTransaction tx) =
      config.bulkCheck height bulkCaller tx.data := by
    rw [openingCheck, accountId?_of_result hcaller]
    rfl
  rw [hafter, hopening]
  obtain ⟨_, hget, h, hafter⟩ := of_quiet_bind_ok (after_get _) h
  cases hget
  rw [hafter]
  obtain ⟨executed, hexecuted, h, hafter⟩ := of_bind_ok h
  rw [hafter]
  cases config.handleBulkData_checked hexecuted with
  | refused asked answered world fork failed =>
    cases h
    refine .refused asked answered world fork ?_ failed
    rw [config.bulkCheck_caller asked]
  | accepted accepted fork =>
    obtain receipt | ⟨events, results⟩ := executed
    · exact .untouched accepted (fork receipt rfl)
    · obtain ⟨_, -, h, hafter⟩ := of_bind_ok h
      rw [hafter]
      cases h
      cases !results.isEmpty && results.all fun entry => entry.2.success with
      | true => exact .succeeded accepted rfl
      | false =>
        refine .rolledBack accepted ?_
        simp only [modifyFork, after_modify, after_pure]
        rfl

theorem handleTransaction_handled {tx : Transaction} {height : UInt64} {index : UInt32}
    {blockTimestamp : UInt64} {s : Execution W} {res : HandleTransactionReturns}
    (h : result (config.handleTransaction tx height index blockTimestamp) s = .ok res) :
    LeavesFork (config.openingCheck height tx) (feeLimit tx) blockTimestamp s
      (after (config.handleTransaction tx height index blockTimestamp) s) res := by
  cases tx with
  | unitTransaction tx => exact config.handleUnitTransaction_handled h
  | bulkTransaction tx => exact config.handleBulkTransaction_handled h

end WasmConfig

end Failures

end Trinci
