import Trinci.ExecutionEffects
import Trinci.MachineLogs

/-!
# Transcripts of bulks

The executor asks the machine whether a part of a bulk may run, and then to run it. What
it asked and what was replied is kept in a log that nothing reads. A transcript of a bulk
fits its root and its nodes, in order, and what was charged and emitted can be read from
it: a root that cannot be executed or is refused ends the bulk with a receipt, and a
node that is foreign, refused or fails ends it with a result.
-/

namespace Trinci

open StatefulSteps Exec

variable {W : Type}

/-- What the executor asked the machine, with the reply. -/
inductive PartNote
  | asked (ctxArgs : CtxArgs) (accounts : Accounts) (granted : Bool)
  | called (args : CallArgs) (events : List SmartContractEvent) (consumed : UInt64)
      (result : Except WasmError Bytes)

instance : Notes PartNote W where
  ofCall args _ out := [.called args out.1 out.2.1 out.2.2]
  ofCheck _ ctxArgs _ w checked := [.asked ctxArgs w.accounts checked.isOk]

section Transcripts

variable [Wm W]

theorem call_noted {args : CallArgs} {s : Execution (Logged PartNote W)}
    {events : List SmartContractEvent} {consumed : UInt64} {outcome : Except WasmError Bytes}
    (h : result (Exec.call args) s = .ok (events, consumed, outcome)) :
    (after (Exec.call args) s).wm.log = s.wm.log ++ [.called args events consumed outcome] :=
  ofMachine_log h

theorem appHashCheck_noted {contract : Option Hash} {ctxArgs : CtxArgs} {blockTimestamp : UInt64}
    {s : Execution (Logged PartNote W)} {checked : Except WasmError Hash}
    (h : result (Exec.appHashCheck contract ctxArgs blockTimestamp) s = .ok checked) :
    (after (Exec.appHashCheck contract ctxArgs blockTimestamp) s).wm.log =
      s.wm.log ++ [.asked ctxArgs s.fork.accounts checked.isOk] :=
  ofMachine_log h

end Transcripts

/-! ## Nodes -/

section Nodes

variable [Primitives] [NodeCodec]

/-- The transcript of the nodes of a bulk that start with the remaining fuel, with what
they emitted and their results. -/
inductive NodesRan (config : WasmConfig) (height : UInt64) :
    List SignedTransaction → (remaining : UInt64) → List PartNote → List SmartContractEvent →
      List (String × BulkResult) → Prop
  | done (remaining : UInt64) : NodesRan config height [] remaining [] [] []
  | foreign {node : SignedTransaction} {nodes : List SignedTransaction} {remaining : UInt64}
      {name : String} {text : Bytes}
      (hnetwork : node.data.getNetwork ≠ config.networkName ∧ 0 < height) :
      NodesRan config height (node :: nodes) remaining [] [] [(name, ⟨false, text, 0⟩)]
  | refused {node : SignedTransaction} {nodes : List SignedTransaction} {remaining : UInt64}
      {name : String} {text : Bytes} {ctxArgs : CtxArgs} {accounts : Accounts} :
      NodesRan config height (node :: nodes) remaining [.asked ctxArgs accounts false] []
        [(name, ⟨false, text, getFuelBurntForError⟩)]
  | failed {node : SignedTransaction} {nodes : List SignedTransaction} {remaining : UInt64}
      {name : String} {text : Bytes} {accounts : Accounts} {events : List SmartContractEvent}
      {consumed : UInt64} {e : WasmError} (ctxArgs : CtxArgs) (args : CallArgs)
      (limited : args.initialFuel = calculateWmFuelLimit ctxArgs.caller accounts height
        (min remaining node.data.getFuelLimit)) :
      NodesRan config height (node :: nodes) remaining
        [.asked ctxArgs accounts true, .called args events consumed (.error e)] []
        [(name, ⟨false, text, bulkFuel height consumed args.initialFuel (.error e)⟩)]
  | next {node : SignedTransaction} {nodes : List SignedTransaction} {remaining : UInt64}
      {name : String} {rcpt : Bytes} {accounts : Accounts} {events later : List SmartContractEvent}
      {consumed : UInt64} {notes : List PartNote} {results : List (String × BulkResult)}
      (ctxArgs : CtxArgs) (args : CallArgs)
      (limited : args.initialFuel = calculateWmFuelLimit ctxArgs.caller accounts height
        (min remaining node.data.getFuelLimit)) :
      NodesRan config height nodes
        (remaining - bulkFuel height consumed args.initialFuel (.ok rcpt)) notes later results →
      NodesRan config height (node :: nodes) remaining
        (.asked ctxArgs accounts true :: .called args events consumed (.ok rcpt) :: notes)
        (emittedBy node.data.getHash events ++ later)
        ((name, ⟨true, rcpt, bulkFuel height consumed args.initialFuel (.ok rcpt)⟩) :: results)

/-- Nodes that run to their results leave their transcript in the log. -/
theorem WasmConfig.handleBulkNodesExecution_ran [Wm W] (config : WasmConfig)
    {height blockTimestamp : UInt64} {nodes : List SignedTransaction} {remainingWmFuel : UInt64}
    {s : Execution (Logged PartNote W)} {events : List SmartContractEvent}
    {results : List (String × BulkResult)}
    (h : result (config.handleBulkNodesExecution height blockTimestamp nodes remainingWmFuel) s =
      .ok (events, results)) :
    ∃ notes,
      (after (config.handleBulkNodesExecution height blockTimestamp nodes remainingWmFuel)
        s).wm.log = s.wm.log ++ notes ∧
      NodesRan config height nodes remainingWmFuel notes events results := by
  induction nodes generalizing remainingWmFuel s events results with
  | nil =>
    cases h
    exact ⟨[], (List.append_nil _).symm, .done _⟩
  | cons node nodes ih =>
    rw [handleBulkNodesExecution] at h ⊢
    by_cases hforeign : node.data.getNetwork ≠ config.networkName ∧ 0 < height
    · rw [if_pos hforeign] at h ⊢
      cases h
      exact ⟨[], (List.append_nil _).symm, .foreign hforeign⟩
    · rw [if_neg hforeign] at h ⊢
      obtain ⟨caller, -, h, hafter⟩ := of_quiet_bind_ok (after_expectAccountId _ _) h
      rw [hafter]
      obtain ⟨_, hget, h, hafter⟩ := of_quiet_bind_ok (after_get _) h
      cases hget
      rw [hafter]
      dsimp only at h ⊢
      generalize hlimit : calculateWmFuelLimit caller s.fork.accounts height
        (min remainingWmFuel node.data.getFuelLimit) = limit at h ⊢
      obtain ⟨contract, -, h, hafter⟩ := of_quiet_bind_ok (after_ofTransaction _ _) h
      rw [hafter]
      obtain ⟨_, -, h, hafter⟩ := of_bind_ok h
      rw [hafter]
      obtain ⟨appHash, hcheck, h, hafter⟩ := of_bind_ok h
      have hchecked := appHashCheck_noted hcheck
      rw [hafter]
      generalize after (appHashCheck (W := Logged PartNote W) contract _ blockTimestamp) _ = t
        at h hchecked ⊢
      cases appHash with
      | error e =>
        obtain ⟨msg, -, h, hafter⟩ := of_quiet_bind_ok (after_ofText _ _) h
        cases h
        rw [hafter]
        exact ⟨_, hchecked, .refused⟩
      | ok appHash =>
        obtain ⟨method, -, h, hafter⟩ := of_quiet_bind_ok (after_ofTransaction _ _) h
        rw [hafter]
        obtain ⟨args, -, h, hafter⟩ := of_quiet_bind_ok (after_ofTransaction _ _) h
        rw [hafter]
        obtain ⟨⟨callEvents, consumed, outcome⟩, hcall, h, hafter⟩ := of_bind_ok h
        have hcalled := call_noted hcall
        rw [hafter]
        generalize after (call (W := Logged PartNote W) _) t = u at h hcalled ⊢
        rw [hchecked, List.append_assoc] at hcalled
        cases outcome with
        | error e =>
          obtain ⟨msg, -, h, hafter⟩ := of_quiet_bind_ok (after_ofText _ _) h
          cases h
          rw [hafter]
          exact ⟨_, hcalled, .failed _ _ hlimit.symm⟩
        | ok rcpt =>
          obtain ⟨⟨laterEvents, laterResults⟩, hlater, h, hafter⟩ := of_bind_ok h
          cases h
          obtain ⟨notes, hnotes, later⟩ := ih hlater
          rw [hafter]
          refine ⟨_, ?_, .next ⟨caller, node.data.getAccount, caller⟩
            ⟨0, node.data.getNetwork, caller, node.data.getAccount, caller, appHash, method, args,
              limit, blockTimestamp⟩ hlimit.symm later⟩
          rw [after_pure, hnotes, hcalled, List.append_assoc]
          rfl

end Nodes

/-! ## Roots -/

/-- A root that the executor can run: one for this network, or an empty one. -/
def WasmConfig.ExecutesRoot (config : WasmConfig) (height : UInt64) : TransactionData → Prop
  | .bulkRootV1 txData => txData.network = config.networkName ∨ height = 0
  | .bulkEmptyRoot _ => True
  | _ => False

/-- The transcript of the root of a bulk, with the receipt of a fault that ends the bulk,
or with what the root emitted, consumed and returned. -/
inductive RootRan (config : WasmConfig) (height limit : UInt64) :
    TransactionData → List PartNote →
      Except Receipt (List SmartContractEvent × UInt64 × Except WasmError Bytes) → Prop
  | unfit {root : TransactionData} {receipt : Receipt}
      (hroot : ¬ config.ExecutesRoot height root) (failed : receipt.success = false)
      (silent : receipt.events = none) : RootRan config height limit root [] (.error receipt)
  | refused {root : TransactionData} {receipt : Receipt} {ctxArgs : CtxArgs} {accounts : Accounts}
      (hroot : config.ExecutesRoot height root) (failed : receipt.success = false)
      (silent : receipt.events = none) :
      RootRan config height limit root [.asked ctxArgs accounts false] (.error receipt)
  | called {root : TransactionData} {ctxArgs : CtxArgs} {accounts : Accounts} {args : CallArgs}
      {events : List SmartContractEvent} {consumed : UInt64} {outcome : Except WasmError Bytes}
      (hroot : config.ExecutesRoot height root) (limited : args.initialFuel = limit) :
      RootRan config height limit root
        [.asked ctxArgs accounts true, .called args events consumed outcome]
        (.ok (events, consumed, outcome))
  | empty {root : TransactionData} (hroot : config.ExecutesRoot height root) :
      RootRan config height limit root [] (.ok ([], 0, .ok [192]))

section Bulks

variable [Wm W] (config : WasmConfig)

theorem WasmConfig.handleBulkRoot_ran {tx : SignedTransaction} {root : TransactionData}
    {bulkCaller : String} {limit height : UInt64} {index : UInt32} {blockTimestamp : UInt64}
    {s : Execution (Logged PartNote W)}
    {rooted : Except Receipt (List SmartContractEvent × UInt64 × Except WasmError Bytes)}
    (h : result (config.handleBulkRoot tx root bulkCaller limit height index blockTimestamp) s =
      .ok rooted) :
    ∃ notes,
      (after (config.handleBulkRoot tx root bulkCaller limit height index blockTimestamp)
        s).wm.log = s.wm.log ++ notes ∧ RootRan config height limit root notes rooted := by
  cases root with
  | bulkRootV1 txData =>
    rw [handleBulkRoot] at h ⊢
    by_cases hforeign : txData.network ≠ config.networkName ∧ 0 < height
    · rw [if_pos hforeign] at h ⊢
      cases h
      refine ⟨[], (List.append_nil _).symm, .unfit ?_ rfl rfl⟩
      rintro (hnetwork | hgenesis)
      · exact hforeign.1 hnetwork
      · rw [hgenesis] at hforeign
        exact absurd hforeign.2 (by decide)
    · have hroot : config.ExecutesRoot height (.bulkRootV1 txData) := by
        by_cases hnetwork : txData.network = config.networkName
        · exact .inl hnetwork
        · right
          have hzero : ¬ 0 < height := fun hpos => hforeign ⟨hnetwork, hpos⟩
          have hnat : ¬ 0 < height.toNat := fun hpos => hzero (UInt64.lt_iff_toNat_lt.mpr hpos)
          exact UInt64.toNat_inj.mp (Nat.eq_zero_of_not_pos hnat)
      rw [if_neg hforeign] at h ⊢
      obtain ⟨_, -, h, hafter⟩ := of_bind_ok h
      rw [hafter]
      obtain ⟨appHash, hcheck, h, hafter⟩ := of_bind_ok h
      have hchecked := appHashCheck_noted hcheck
      rw [hafter]
      generalize after (appHashCheck (W := Logged PartNote W) txData.contract _ blockTimestamp) _ = t
        at h hchecked ⊢
      cases appHash with
      | error e =>
        obtain ⟨msg, -, h, hafter⟩ := of_quiet_bind_ok (after_ofText _ _) h
        cases h
        rw [hafter]
        exact ⟨_, hchecked, .refused hroot rfl rfl⟩
      | ok appHash =>
        obtain ⟨⟨events, consumed, outcome⟩, hcall, h, hafter⟩ := of_bind_ok h
        have hcalled := call_noted hcall
        cases h
        rw [hchecked, List.append_assoc] at hcalled
        rw [hafter, after_pure]
        exact ⟨_, hcalled, .called hroot rfl⟩
  | bulkEmptyRoot txData =>
    cases h
    exact ⟨[], (List.append_nil _).symm, .empty trivial⟩
  | _ =>
    cases h
    exact ⟨[], (List.append_nil _).symm, .unfit (fun hroot => hroot) rfl rfl⟩

variable [Primitives] [NodeCodec]

/-- The transcript of what follows the root of a bulk, with the receipt of a fault, or with
what is kept of the events and the results. -/
inductive AfterRootRan (config : WasmConfig) (height limit : UInt64) (data : TransactionDataBulkV1) :
    Except Receipt (List SmartContractEvent × UInt64 × Except WasmError Bytes) → List PartNote →
      Except Receipt (Option (List SmartContractEvent) × List (String × BulkResult)) → Prop
  | stopped (receipt : Receipt) :
      AfterRootRan config height limit data (.error receipt) [] (.error receipt)
  | failedRoot {events : List SmartContractEvent} {consumed : UInt64} {e : WasmError}
      {name : String} {text : Bytes} :
      AfterRootRan config height limit data (.ok (events, consumed, .error e)) []
        (.ok (none, [(name, ⟨false, text, bulkFuel height consumed limit (.error e)⟩)]))
  | nodes {notes : List PartNote} {events later : List SmartContractEvent} {consumed : UInt64}
      {rcpt : Bytes} {name : String} {results : List (String × BulkResult)} :
      NodesRan config height (data.txs.nodes.getD [])
        (limit - bulkFuel height consumed limit (.ok rcpt)) notes later results →
      AfterRootRan config height limit data (.ok (events, consumed, .ok rcpt)) notes
        (.ok (nonEmpty (emittedBy data.txs.root.data.getHash events ++ later),
          (name, ⟨true, rcpt, bulkFuel height consumed limit (.ok rcpt)⟩) :: results))

theorem WasmConfig.handleBulkAfterRoot_ran {data : TransactionDataBulkV1}
    {limit height blockTimestamp : UInt64} {s : Execution (Logged PartNote W)}
    {rooted : Except Receipt (List SmartContractEvent × UInt64 × Except WasmError Bytes)}
    {executed : Except Receipt (Option (List SmartContractEvent) × List (String × BulkResult))}
    (h : result (config.handleBulkAfterRoot data limit height blockTimestamp rooted) s =
      .ok executed) :
    ∃ notes,
      (after (config.handleBulkAfterRoot data limit height blockTimestamp rooted) s).wm.log =
        s.wm.log ++ notes ∧ AfterRootRan config height limit data rooted notes executed := by
  obtain receipt | ⟨rootEvents, consumed, e | rcpt⟩ := rooted
  · cases h
    exact ⟨[], (List.append_nil _).symm, .stopped receipt⟩
  · obtain ⟨msg, -, h, hafter⟩ := of_quiet_bind_ok (after_ofText _ _) h
    cases h
    refine ⟨[], ?_, .failedRoot⟩
    rw [List.append_nil]
    exact congrArg (fun u : Execution (Logged PartNote W) => u.wm.log) hafter
  · obtain ⟨⟨laterEvents, laterResults⟩, hlater, h, hafter⟩ := of_bind_ok h
    cases h
    obtain ⟨notes, hnotes, nodes⟩ := config.handleBulkNodesExecution_ran hlater
    refine ⟨notes, ?_, .nodes nodes⟩
    exact (congrArg (fun u : Execution (Logged PartNote W) => u.wm.log) hafter).trans hnotes

/-- The transcript of a bulk: its root's, and that of what follows. -/
inductive BulkRan (config : WasmConfig) (height limit : UInt64) (data : TransactionDataBulkV1) :
    List PartNote → Except Receipt (Option (List SmartContractEvent) × List (String × BulkResult)) →
      Prop
  | rooted {rootNotes notes : List PartNote}
      {rooted : Except Receipt (List SmartContractEvent × UInt64 × Except WasmError Bytes)}
      {executed : Except Receipt (Option (List SmartContractEvent) × List (String × BulkResult))} :
      RootRan config height limit data.txs.root.data rootNotes rooted →
      AfterRootRan config height limit data rooted notes executed →
      BulkRan config height limit data (rootNotes ++ notes) executed

theorem WasmConfig.handleBulkV1_ran {tx : SignedTransaction} {data : TransactionDataBulkV1}
    {bulkCaller : String} {limit height : UInt64} {index : UInt32} {blockTimestamp : UInt64}
    {s : Execution (Logged PartNote W)}
    {executed : Except Receipt (Option (List SmartContractEvent) × List (String × BulkResult))}
    (h : result (config.handleBulkV1 tx data bulkCaller limit height index blockTimestamp) s =
      .ok executed) :
    ∃ notes,
      (after (config.handleBulkV1 tx data bulkCaller limit height index blockTimestamp)
        s).wm.log = s.wm.log ++ notes ∧ BulkRan config height limit data notes executed := by
  rw [handleBulkV1] at h ⊢
  obtain ⟨rooted, hroot, h, hafter⟩ := of_bind_ok h
  obtain ⟨rootNotes, hlog, root⟩ := config.handleBulkRoot_ran hroot
  obtain ⟨notes, hnotes, rest⟩ := config.handleBulkAfterRoot_ran h
  rw [hafter]
  refine ⟨rootNotes ++ notes, ?_, .rooted root rest⟩
  rw [hnotes, hlog, List.append_assoc]

/-- What a bulk of any data is asked and what comes of it. Data that is not a bulk is not
executed and comes to no results. -/
inductive BulkDataRan (config : WasmConfig) (height limit : UInt64) :
    TransactionData → List PartNote →
      Except Receipt (Option (List SmartContractEvent) × List (String × BulkResult)) → Prop
  | bulk {data : TransactionDataBulkV1} {notes : List PartNote}
      {executed : Except Receipt (Option (List SmartContractEvent) × List (String × BulkResult))} :
      BulkRan config height limit data notes executed →
      BulkDataRan config height limit (.bulkV1 data) notes executed
  | other {data : TransactionData} (hdata : ∀ bulk, data ≠ .bulkV1 bulk) :
      BulkDataRan config height limit data [] (.ok (none, []))

theorem WasmConfig.handleBulkData_ran {tx : SignedTransaction} {bulkCaller : String}
    {limit height : UInt64} {index : UInt32} {blockTimestamp : UInt64}
    {s : Execution (Logged PartNote W)}
    {executed : Except Receipt (Option (List SmartContractEvent) × List (String × BulkResult))}
    (h : result (config.handleBulkData tx bulkCaller limit height index blockTimestamp) s =
      .ok executed) :
    ∃ notes,
      (after (config.handleBulkData tx bulkCaller limit height index blockTimestamp)
        s).wm.log = s.wm.log ++ notes ∧ BulkDataRan config height limit tx.data notes executed := by
  rw [handleBulkData] at h ⊢
  cases hdata : tx.data with
  | bulkV1 data =>
    rw [hdata] at h
    obtain ⟨notes, hlog, ran⟩ := config.handleBulkV1_ran h
    exact ⟨notes, hlog, .bulk ran⟩
  | _ =>
    rw [hdata] at h
    cases h
    exact ⟨[], (List.append_nil _).symm, .other (fun bulk => by rintro ⟨⟩)⟩

/-- What is returned for a bulk: a fault costs the price of an error, results cost what
they say was burnt. -/
def bulkReturns (tx : SignedTransaction) (bulkCaller : String) (height : UInt64) (index : UInt32) :
    Except Receipt (Option (List SmartContractEvent) × List (String × BulkResult)) →
      HandleTransactionReturns
  | .error receipt => ⟨⟨bulkCaller, getFuelBurntForError, tx.data.getFuelLimit⟩, receipt⟩
  | .ok (events, results) =>
    let totalBurntWmFuel := (results.map fun entry => entry.2.burntWmFuel).sum
    let burntBitbell :=
      if activateFuelConsumption < height then wmFuelToBitbell totalBurntWmFuel
      else totalBurntWmFuel
    ⟨⟨bulkCaller, burntBitbell, tx.data.getFuelLimit⟩,
      ⟨height, index, burntBitbell, !results.isEmpty && results.all fun entry => entry.2.success,
        rmpSerialize results, events⟩⟩

theorem WasmConfig.handleBulkTransaction_ran {tx : SignedTransaction} {height : UInt64}
    {index : UInt32} {blockTimestamp : UInt64} {s : Execution (Logged PartNote W)}
    {returns : HandleTransactionReturns}
    (h : result (config.handleBulkTransaction tx height index blockTimestamp) s = .ok returns) :
    ∃ notes bulkCaller limit executed,
      (after (config.handleBulkTransaction tx height index blockTimestamp) s).wm.log =
        s.wm.log ++ notes ∧
      BulkDataRan config height limit tx.data notes executed ∧
      returns = bulkReturns tx bulkCaller height index executed := by
  rw [handleBulkTransaction] at h ⊢
  obtain ⟨bulkCaller, -, h, hafter⟩ := of_quiet_bind_ok (after_toAccountId _ _) h
  rw [hafter]
  obtain ⟨_, hget, h, hafter⟩ := of_quiet_bind_ok (after_get _) h
  cases hget
  rw [hafter]
  obtain ⟨executed, hexecuted, h, hafter⟩ := of_bind_ok h
  obtain ⟨notes, hlog, ran⟩ := config.handleBulkData_ran hexecuted
  rw [hafter]
  refine ⟨notes, bulkCaller, _, executed, ?_, ran, ?_⟩
  · rw [← hlog]
    obtain receipt | ⟨events, results⟩ := executed
    · rfl
    · rfl
  · obtain receipt | ⟨events, results⟩ := executed
    · cases h
      rfl
    · cases h
      rfl

end Bulks

end Trinci
