import Trinci.BulkTranscripts
import Trinci.FailedTransactions
import Trinci.ExecutionFrames

/-!
# Events of failed transactions

The receipt of a transaction carries the events of its calls, and the events of the stored
receipts are sent to the subscribers when a block is consolidated. A failed transaction is
rolled back, and its receipt should carry none. The handlers decide about the events by the
calls alone: the events of a failed unit stay in its receipt, those of the parts of a bulk
that succeeded before another failed stay as well, and a receipt keeps its events when the
fuel cannot be burnt.
-/

namespace Trinci

open StatefulSteps Exec

variable {W : Type}

theorem nonEmpty_eq_none {events : List SmartContractEvent} : nonEmpty events = none ↔ events = [] := by
  cases events with
  | nil => exact iff_of_true rfl rfl
  | cons event events =>
    refine iff_of_false ?_ ?_
    · rintro ⟨⟩
    · rintro ⟨⟩

theorem emittedBy_eq_nil {hash : Hash} {events : List SmartContractEvent} :
    emittedBy hash events = [] ↔ events = [] :=
  List.map_eq_nil_iff

/-! ## The events of a run -/

/-- The calls whose events are kept, by their outcomes, emitted nothing. -/
def Silent (kept : Except WasmError Bytes → Bool) (notes : List PartNote) : Prop :=
  ∀ args events consumed outcome, .called args events consumed outcome ∈ notes →
    kept outcome = true → events = []

section Silence

variable {kept : Except WasmError Bytes → Bool} {notes later : List PartNote}

theorem silent_nil : Silent kept [] := by
  rintro args events consumed outcome ⟨⟩

theorem silent_cons {note : PartNote} :
    Silent kept (note :: notes) ↔
      (∀ args events consumed outcome, note = .called args events consumed outcome →
        kept outcome = true → events = []) ∧ Silent kept notes := by
  constructor
  · intro silent
    constructor
    · rintro args events consumed outcome rfl hkept
      exact silent args events consumed outcome (List.mem_cons_self ..) hkept
    · intro args events consumed outcome hmem hkept
      exact silent args events consumed outcome (List.mem_cons_of_mem _ hmem) hkept
  · rintro ⟨first, rest⟩ args events consumed outcome hmem hkept
    obtain heq | hmem := List.mem_cons.mp hmem
    · exact first args events consumed outcome heq.symm hkept
    · exact rest args events consumed outcome hmem hkept

theorem silent_append :
    Silent kept (notes ++ later) ↔ Silent kept notes ∧ Silent kept later := by
  induction notes with
  | nil => exact (and_iff_right silent_nil).symm
  | cons note notes ih => rw [List.cons_append, silent_cons, silent_cons, ih, and_assoc]

@[simp]
theorem silent_asked {ctxArgs : CtxArgs} {accounts : Accounts} {granted : Bool} :
    Silent kept (.asked ctxArgs accounts granted :: notes) ↔ Silent kept notes := by
  rw [silent_cons, and_iff_right]
  rintro args events consumed outcome ⟨⟩

@[simp]
theorem silent_called {args : CallArgs} {events : List SmartContractEvent} {consumed : UInt64}
    {outcome : Except WasmError Bytes} :
    Silent kept (.called args events consumed outcome :: notes) ↔
      (kept outcome = true → events = []) ∧ Silent kept notes := by
  rw [silent_cons]
  apply and_congr_left'
  constructor
  · exact fun first => first args events consumed outcome rfl
  · rintro first _ _ _ _ ⟨⟩
    exact first

instance Silent.decidable (kept : Except WasmError Bytes → Bool) :
    ∀ notes : List PartNote, Decidable (Silent kept notes)
  | [] => .isTrue silent_nil
  | .asked _ _ _ :: notes =>
    have := Silent.decidable kept notes
    decidable_of_iff _ silent_asked.symm
  | .called _ _ _ _ :: notes =>
    have := Silent.decidable kept notes
    decidable_of_iff _ silent_called.symm

end Silence

/-! ## Bulks -/

section Bulks

variable {config : WasmConfig} {height limit : UInt64}

/-- The events of a root are kept if it succeeds. -/
theorem RootRan.silent_iff {root : TransactionData} {notes : List PartNote}
    {events : List SmartContractEvent} {consumed : UInt64} {rcpt : Bytes}
    (h : RootRan config height limit root notes (.ok (events, consumed, .ok rcpt))) :
    Silent Except.isOk notes ↔ events = [] := by
  cases h with
  | called hroot limited =>
    rw [silent_asked, silent_called, and_iff_left silent_nil]
    exact ⟨fun first => first rfl, fun first _ => first⟩
  | empty hroot => exact iff_of_true silent_nil rfl

/-- A root that ends the bulk keeps no events. -/
theorem RootRan.silent_of_error {root : TransactionData} {notes : List PartNote}
    {rooted : Except Receipt (List SmartContractEvent × UInt64 × Except WasmError Bytes)}
    (h : RootRan config height limit root notes rooted)
    (failed : ∀ events consumed rcpt, rooted ≠ .ok (events, consumed, .ok rcpt)) :
    Silent Except.isOk notes := by
  cases h with
  | unfit hroot notOk silent => exact silent_nil
  | refused hroot notOk silent => exact silent_asked.mpr silent_nil
  | @called _ _ _ events consumed outcome hroot limited =>
    rw [silent_asked, silent_called, and_iff_left silent_nil]
    intro succeeded
    cases outcome with
    | error e => cases succeeded
    | ok rcpt => exact absurd rfl (failed events consumed rcpt)
  | empty hroot => exact silent_nil

variable [Primitives] [NodeCodec]

theorem NodesRan.silent_iff {nodes : List SignedTransaction} {remaining : UInt64}
    {notes : List PartNote} {events : List SmartContractEvent} {results : List (String × BulkResult)}
    (h : NodesRan config height nodes remaining notes events results) :
    Silent Except.isOk notes ↔ events = [] := by
  induction h with
  | done remaining => exact iff_of_true silent_nil rfl
  | foreign hnetwork => exact iff_of_true silent_nil rfl
  | refused => exact iff_of_true (silent_asked.mpr silent_nil) rfl
  | failed ctxArgs args limited =>
    refine iff_of_true ?_ rfl
    rw [silent_asked, silent_called, and_iff_left silent_nil]
    rintro ⟨⟩
  | next ctxArgs args limited later ih =>
    rw [silent_asked, silent_called, ih, List.append_eq_nil_iff, emittedBy_eq_nil]
    apply and_congr_left'
    exact ⟨fun first => first rfl, fun first _ => first⟩

/-- The events that a bulk keeps, with its results or with a receipt of its own. -/
def keptEvents : Except Receipt (Option (List SmartContractEvent) × List (String × BulkResult)) →
    Option (List SmartContractEvent)
  | .error receipt => receipt.events
  | .ok (events, _) => events

theorem BulkDataRan.silent_iff {data : TransactionData} {notes : List PartNote}
    {executed : Except Receipt (Option (List SmartContractEvent) × List (String × BulkResult))}
    (h : BulkDataRan config height limit data notes executed) :
    keptEvents executed = none ↔ Silent Except.isOk notes := by
  cases h with
  | other hdata => exact iff_of_true rfl silent_nil
  | bulk ran =>
    obtain ⟨root, rest⟩ := ran
    cases rest with
    | stopped receipt =>
      rw [List.append_nil]
      refine iff_of_true ?_ (root.silent_of_error ?_)
      · cases root with
        | unfit hroot notOk silent => exact silent
        | refused hroot notOk silent => exact silent
      · rintro events consumed rcpt ⟨⟩
    | failedRoot =>
      rw [List.append_nil]
      refine iff_of_true rfl (root.silent_of_error ?_)
      rintro events consumed rcpt ⟨⟩
    | nodes nodes =>
      change nonEmpty _ = none ↔ _
      rw [nonEmpty_eq_none, List.append_eq_nil_iff, emittedBy_eq_nil, silent_append,
        root.silent_iff, nodes.silent_iff]

end Bulks

/-! ## Units and transactions -/

section Transactions

variable [Primitives] [NodeCodec]

/-- The transcript of a unit, with the events of its receipt. -/
inductive UnitRan (tx : SignedTransaction) :
    List PartNote → Option (List SmartContractEvent) → Prop
  | foreign : UnitRan tx [] none
  | refused {ctxArgs : CtxArgs} {accounts : Accounts} :
      UnitRan tx [.asked ctxArgs accounts false] none
  | called {ctxArgs : CtxArgs} {accounts : Accounts} {args : CallArgs}
      {events : List SmartContractEvent} {consumed : UInt64} {outcome : Except WasmError Bytes} :
      UnitRan tx [.asked ctxArgs accounts true, .called args events consumed outcome]
        (nonEmpty (emittedBy tx.data.getHash events))

theorem UnitRan.silent_iff {tx : SignedTransaction} {notes : List PartNote}
    {events : Option (List SmartContractEvent)} (h : UnitRan tx notes events) :
    events = none ↔ Silent (fun _ => true) notes := by
  cases h with
  | foreign => exact iff_of_true rfl silent_nil
  | refused => exact iff_of_true rfl (silent_asked.mpr silent_nil)
  | called =>
    rw [nonEmpty_eq_none, emittedBy_eq_nil, silent_asked, silent_called, and_iff_left silent_nil]
    exact ⟨fun first _ => first, fun first => first rfl⟩

variable [Wm W] (config : WasmConfig)

theorem WasmConfig.handleUnitTransaction_ran {tx : SignedTransaction} {height : UInt64}
    {index : UInt32} {blockTimestamp : UInt64} {s : Execution (Logged PartNote W)}
    {res : HandleTransactionReturns}
    (h : result (config.handleUnitTransaction tx height index blockTimestamp) s = .ok res) :
    ∃ notes, (after (config.handleUnitTransaction tx height index blockTimestamp) s).wm.log =
      s.wm.log ++ notes ∧ UnitRan tx notes res.receipt.events := by
  rw [handleUnitTransaction] at h ⊢
  by_cases foreign : tx.data.getNetwork ≠ config.networkName ∧ 0 < height
  · rw [if_pos foreign] at h ⊢
    obtain ⟨caller, -, h, hafter⟩ := of_quiet_bind_ok (after_toAccountId _ _) h
    cases h
    rw [hafter]
    exact ⟨[], (List.append_nil _).symm, .foreign⟩
  · rw [if_neg foreign] at h ⊢
    obtain ⟨caller, -, h, hafter⟩ := of_quiet_bind_ok (after_toAccountId _ _) h
    rw [hafter]
    obtain ⟨_, hget, h, hafter⟩ := of_quiet_bind_ok (after_get _) h
    cases hget
    rw [hafter]
    dsimp only at h ⊢
    obtain ⟨contract, -, h, hafter⟩ := of_quiet_bind_ok (after_ofTransaction _ _) h
    rw [hafter]
    obtain ⟨_, -, h, hafter⟩ := of_bind_ok h
    rw [hafter]
    obtain ⟨appHash, hcheck, h, hafter⟩ := of_bind_ok h
    have hchecked := appHashCheck_noted hcheck
    rw [hafter]
    generalize after (appHashCheck (W := Logged PartNote W) contract _ blockTimestamp) _ = t
      at h hchecked ⊢
    cases appHash with
    | error e =>
      obtain ⟨msg, -, h, hafter⟩ := of_quiet_bind_ok (after_ofText _ _) h
      cases h
      rw [hafter]
      exact ⟨_, hchecked, .refused⟩
    | ok appHash =>
      obtain ⟨method, -, h, hafter⟩ := of_quiet_bind_ok (after_ofTransaction _ _) h
      rw [hafter]
      obtain ⟨args, -, h, hafter⟩ := of_quiet_bind_ok (after_ofTransaction _ _) h
      rw [hafter]
      obtain ⟨⟨events, consumed, outcome⟩, hcall, h, hafter⟩ := of_bind_ok h
      have hcalled := call_noted hcall
      rw [hafter]
      generalize after (call (W := Logged PartNote W) _) t = u at h hcalled ⊢
      rw [hchecked, List.append_assoc] at hcalled
      obtain ⟨⟨success, returns, isSmartcontractFault⟩, houtcome, h, hafter⟩ := of_bind_ok h
      cases h
      have quiet : (after (unitOutcome outcome) u).wm = u.wm := by
        cases outcome with
        | ok value => rfl
        | error e => rw [after_unitOutcome_error]
      rw [hafter, after_pure, quiet]
      exact ⟨_, hcalled, .called⟩

/-- The calls whose events a handler keeps: all of a unit, the successful ones of a bulk. -/
def keepsEvents : Transaction → Except WasmError Bytes → Bool
  | .unitTransaction _ => fun _ => true
  | .bulkTransaction _ => Except.isOk

theorem WasmConfig.handleTransaction_silent {tx : Transaction} {height : UInt64} {index : UInt32}
    {blockTimestamp : UInt64} {s : Execution (Logged PartNote W)} {res : HandleTransactionReturns}
    (h : result (config.handleTransaction tx height index blockTimestamp) s = .ok res) :
    ∃ notes, (after (config.handleTransaction tx height index blockTimestamp) s).wm.log =
      s.wm.log ++ notes ∧ (res.receipt.events = none ↔ Silent (keepsEvents tx) notes) := by
  cases tx with
  | unitTransaction tx =>
    obtain ⟨notes, hlog, ran⟩ := config.handleUnitTransaction_ran h
    exact ⟨notes, hlog, ran.silent_iff⟩
  | bulkTransaction tx =>
    obtain ⟨notes, bulkCaller, limit, executed, hlog, ran, rfl⟩ := config.handleBulkTransaction_ran h
    refine ⟨notes, hlog, ?_⟩
    have events : (bulkReturns tx bulkCaller height index executed).receipt.events =
        keptEvents executed := by
      obtain receipt | ⟨events, results⟩ := executed
      · rfl
      · rfl
    rw [events]
    exact ran.silent_iff

/-- What the machine is asked and replies while a transaction is handled. -/
def WasmConfig.partNotes (tx : Transaction) (height : UInt64) (index : UInt32)
    (blockTimestamp : UInt64) (s : Execution W) : List PartNote :=
  (after (config.handleTransaction tx height index blockTimestamp)
    ((opened tx s).logged (L := PartNote))).wm.log

/-- A receipt has no events exactly if the calls whose events are kept emit none. -/
theorem WasmConfig.receipt_silent_iff {tx : Transaction} {height : UInt64} {index : UInt32}
    {blockTimestamp : UInt64} {s : Execution W} {receipt : Receipt}
    (h : result (config.executeTransaction tx height index blockTimestamp) s = .ok receipt) :
    receipt.events = none ↔
      Silent (keepsEvents tx) (config.partNotes tx height index blockTimestamp s) := by
  obtain ⟨res, hres, executed⟩ := of_executeTransaction_ok h
  have same := (WasmConfig.handleTransaction_related (SameLogged.congruence (L := PartNote))
    (SameNetwork.refl config) tx height index blockTimestamp (opened tx s) (opened tx s).logged rfl).1
  obtain ⟨notes, hlog, hevents⟩ := config.handleTransaction_silent (same.symm.trans hres)
  have log : config.partNotes tx height index blockTimestamp s = notes :=
    hlog.trans (List.nil_append notes)
  have kept : receipt.events = res.receipt.events := by
    obtain ⟨-, -, -, kept⟩ | ⟨-, -, -, kept⟩ := executed
    · exact kept
    · exact kept
  rw [kept, log]
  exact hevents

end Transactions

/-! ## What the subscribers are sent -/

/-- The contract events that are sent when a block of these transactions is consolidated:
those of the stored receipts. -/
def propagatedEvents (db : Db) (txsHashes : List Hash) : List SmartContractEvent :=
  txsHashes.flatMap fun txHash => ((db.receipts.lookup txHash).bind Receipt.events).getD []

/-- The contract events of the transactions whose effects persist. -/
def persistentEvents (db : Db) (txsHashes : List Hash) : List SmartContractEvent :=
  txsHashes.flatMap fun txHash =>
    (((db.receipts.lookup txHash).filter Receipt.success).bind Receipt.events).getD []

theorem propagated_eq_persistent {db : Db} {txsHashes : List Hash}
    (silent : ∀ txHash ∈ txsHashes, ∀ receipt, db.receipts.lookup txHash = some receipt →
      receipt.success = false → receipt.events = none) :
    propagatedEvents db txsHashes = persistentEvents db txsHashes := by
  rw [propagatedEvents, persistentEvents, List.flatMap_def, List.flatMap_def]
  apply congrArg List.flatten
  apply List.map_congr_left
  intro txHash hmem
  cases hreceipt : db.receipts.lookup txHash with
  | none => rfl
  | some receipt =>
    cases hsuccess : receipt.success with
    | true => rw [Option.filter_some, hsuccess, if_pos rfl]
    | false =>
      rw [Option.filter_some, hsuccess, Option.bind_some, silent txHash hmem receipt hreceipt hsuccess]
      rfl

section Blocks

variable [Primitives] [NodeCodec] [Wm W] (config : WasmConfig)

/-- The transactions of a block, with their indexes and the states that they are executed
from. -/
def WasmConfig.blockSteps (height blockTimestamp : UInt64) :
    List Transaction → (index : UInt32) → Execution W → List (Transaction × UInt32 × Execution W)
  | [], _, _ => []
  | tx :: txs, index, s =>
    (tx, index, s) ::
      match result (config.executeTransaction tx height index blockTimestamp) s with
      | .ok receipt => WasmConfig.blockSteps height blockTimestamp txs (index + 1)
        (stored tx receipt (after (config.executeTransaction tx height index blockTimestamp) s))
      | .error _ => []

omit [Primitives] [NodeCodec] in
/-- The handling of a transaction leaves the receipts alone. -/
theorem keepsReceipts_rule : ExecutorRule (Keeps Db.receipts : Execution W → Execution W → Prop) where
  refl _ _ h := h
  trans h h' a ha := h' a (h a ha)
  recorded _ _ _ h := ⟨h.working, h.saved⟩
  rolledBack _ _ h := ⟨h.saved, h.saved⟩
  called _ _ h := ⟨h.working, h.saved⟩
  checked _ _ h := ⟨h.working, h.saved⟩

theorem WasmConfig.executeTransaction_receipts (tx : Transaction) (height : UInt64) (index : UInt32)
    (blockTimestamp : UInt64) (s : Execution W) :
    (after (config.executeTransaction tx height index blockTimestamp) s).fork.working.receipts =
      s.fork.working.receipts := by
  have rule := keepsReceipts_rule (W := W)
  have moves := rule.bind (config.handleTransaction_moves rule tx height index blockTimestamp)
    fun res => config.settled_moves rule res height index blockTimestamp
  exact (moves (opened tx s) s.fork.working.receipts ⟨rfl, rfl⟩).working

/-- A receipt in the fork was there before, under another hash than those of the block, or
a transaction of the block came to it. -/
theorem WasmConfig.executeBlockTransactions_receipts (height blockTimestamp : UInt64)
    (txs : List Transaction) (index : UInt32) (s : Execution W) (hashes : List Hash)
    (h : result (config.executeBlockTransactions height blockTimestamp txs index) s = .ok hashes)
    (txHash : Hash) (receipt : Receipt)
    (found : (after (config.executeBlockTransactions height blockTimestamp txs index)
      s).fork.working.receipts.lookup txHash = some receipt) :
    (s.fork.working.receipts.lookup txHash = some receipt ∧ txHash ∉ txs.map Transaction.getHash) ∨
      ∃ step ∈ config.blockSteps height blockTimestamp txs index s,
        result (config.executeTransaction step.1 height step.2.1 blockTimestamp) step.2.2 =
          .ok receipt := by
  induction txs generalizing index s hashes with
  | nil => exact .inl ⟨found, List.not_mem_nil⟩
  | cons tx txs ih =>
    have kept := config.executeTransaction_receipts tx height index blockTimestamp s
    obtain ⟨executed, hexecuted, hrest, hafter⟩ := of_bind_ok h
    obtain ⟨-, -, hlater, hstored⟩ := of_bind_ok hrest
    obtain ⟨later, hlater, -, hreturn⟩ := of_bind_ok hlater
    rw [WasmConfig.executeBlockTransactions, hafter, hstored, hreturn] at found
    rw [WasmConfig.blockSteps, hexecuted]
    obtain ⟨hbefore, hother⟩ | ⟨step, hmem, hstep⟩ := ih _ _ _ hlater found
    · have hinserted : (AList.insert tx.getHash executed s.fork.working.receipts).lookup txHash =
          some receipt := by
        rw [← kept]
        exact hbefore
      by_cases heq : txHash = tx.getHash
      · right
        rw [heq, AList.lookup_insert] at hinserted
        cases hinserted
        exact ⟨_, List.mem_cons_self .., hexecuted⟩
      · left
        rw [AList.lookup_insert_ne heq] at hinserted
        refine ⟨hinserted, ?_⟩
        rw [List.map_cons, List.mem_cons]
        rintro (hfirst | hlast)
        · exact heq hfirst
        · exact hother hlast
    · exact .inr ⟨step, List.mem_cons_of_mem _ hmem, hstep⟩

/-- Where a step of a block fails, the calls whose events are kept emit nothing. -/
def WasmConfig.FailsSilently (height blockTimestamp : UInt64)
    (step : Transaction × UInt32 × Execution W) : Prop :=
  ∀ receipt,
    result (config.executeTransaction step.1 height step.2.1 blockTimestamp) step.2.2 = .ok receipt →
    receipt.success = false →
    Silent (keepsEvents step.1) (config.partNotes step.1 height step.2.1 blockTimestamp step.2.2)

/-- For every machine: the receipt of a failed transaction has no events exactly if the
calls whose events its handler keeps emitted none. In a block all of whose failed
transactions are so, the events that are sent are those of the transactions that persist. -/
theorem failed_receipts_silent_iff :
    (∀ (tx : Transaction) (height : UInt64) (index : UInt32) (blockTimestamp : UInt64)
        (s : Execution W) (receipt : Receipt),
      result (config.executeTransaction tx height index blockTimestamp) s = .ok receipt →
      receipt.success = false →
      (receipt.events = none ↔
        Silent (keepsEvents tx) (config.partNotes tx height index blockTimestamp s))) ∧
    ∀ (height blockTimestamp : UInt64) (txs : List Transaction) (index : UInt32) (s : Execution W)
        (hashes : List Hash),
      result (config.executeBlockTransactions height blockTimestamp txs index) s = .ok hashes →
      (∀ step ∈ config.blockSteps height blockTimestamp txs index s,
        config.FailsSilently height blockTimestamp step) →
      let db := (after (config.executeBlockTransactions height blockTimestamp txs index) s).fork.working
      propagatedEvents db (txs.map Transaction.getHash) =
        persistentEvents db (txs.map Transaction.getHash) := by
  constructor
  · intro tx height index blockTimestamp s receipt h failed
    exact config.receipt_silent_iff h
  · intro height blockTimestamp txs index s hashes h silent
    apply propagated_eq_persistent
    intro txHash hmem receipt found failed
    obtain ⟨-, hother⟩ | ⟨step, hstep, hexecuted⟩ := config.executeBlockTransactions_receipts height
      blockTimestamp txs index s hashes h txHash receipt found
    · exact absurd hmem hother
    · exact (config.receipt_silent_iff hexecuted).mpr (silent step hstep receipt hexecuted failed)

end Blocks

namespace Sample

section Emissions

/-- Every contract fails. The first one emits an event before. -/
local instance emittingEngine : WasmEngine := scripted fun wasmBin =>
  if wasmBin = [1] then .ok ⟨[], [.emit "sold" []], .ok [0]⟩
  else .ok ⟨[], [], .ok [0]⟩

/-- A network in which the shop has the contract with this number. -/
def selling (n : UInt8) : Execution WmLocal where
  wm := freshWm 2
  drand := SeedSource.new [] [] Hash.default Hash.default Hash.default
  fork := { Db.empty with accounts := deployed [("shop", n)] }.createFork
  executed := []
  ran := []

def sold (n : UInt8) : Except Stop Receipt :=
  result (config.executeTransaction (unitOf 1 (keypair 1)) 1 0 0) (selling n)

/-- The database once a block of alice's call is executed. -/
def soldBlock (n : UInt8) : Db :=
  (after (config.executeBlockTransactions 1 0 [unitOf 1 (keypair 1)] 0) (selling n)).fork.working

def soldHashes : List Hash := [(unitOf 1 (keypair 1)).getHash]

/-- The names of the events in a receipt. -/
def eventNames : Except Stop Receipt → List String
  | .ok receipt => (receipt.events.getD []).map SmartContractEvent.eventName
  | .error _ => []

/-- The failed call was rolled back, and its event is in the receipt and is sent. -/
theorem failed_sale_is_announced : failedIn (sold 1) = true ∧ eventNames (sold 1) = ["sold"] ∧
    (propagatedEvents (soldBlock 1) soldHashes).map SmartContractEvent.eventName = ["sold"] ∧
    persistentEvents (soldBlock 1) soldHashes = [] ∧
    ¬ ∀ receipt, sold 1 = .ok receipt → receipt.success = false → receipt.events = none := by
  have failed : failedIn (sold 1) = true := by decide +kernel
  have names : eventNames (sold 1) = ["sold"] := by decide +kernel
  refine ⟨failed, names, by decide +kernel, by decide +kernel, fun silent => ?_⟩
  obtain ⟨receipt, hreceipt, notOk⟩ := of_failedIn failed
  rw [hreceipt, eventNames, silent receipt hreceipt notOk] at names
  cases names

/-- A call that fails without an event leaves nothing to send. -/
theorem silent_sale_is_not_announced :
    (∃ receipt, sold 2 = .ok receipt ∧ receipt.success = false ∧ receipt.events = none) ∧
      propagatedEvents (soldBlock 2) soldHashes = persistentEvents (soldBlock 2) soldHashes := by
  have silent : Silent (keepsEvents (unitOf 1 (keypair 1)))
      (config.partNotes (unitOf 1 (keypair 1)) 1 0 0 (selling 2)) := by decide +kernel
  obtain ⟨receipt, hreceipt, failed⟩ := of_failedIn (show failedIn (sold 2) = true by decide +kernel)
  constructor
  · refine ⟨receipt, hreceipt, failed, ?_⟩
    exact ((failed_receipts_silent_iff config).1 (unitOf 1 (keypair 1)) 1 0 0 (selling 2) receipt
      hreceipt failed).mpr silent
  · have executed : result (config.executeBlockTransactions 1 0 [unitOf 1 (keypair 1)] 0) (selling 2) =
        .ok [receipt.getHash] := by
      rw [WasmConfig.executeBlockTransactions, (bind_ok hreceipt).2]
      rfl
    refine (failed_receipts_silent_iff config).2 1 0 [unitOf 1 (keypair 1)] 0 (selling 2) _ executed ?_
    intro step hstep
    have steps : config.blockSteps 1 0 [unitOf 1 (keypair 1)] 0 (selling 2) =
        [(unitOf 1 (keypair 1), 0, selling 2)] := by
      rw [WasmConfig.blockSteps, show result _ _ = Except.ok receipt from hreceipt]
      rfl
    rw [steps, List.mem_singleton] at hstep
    rw [hstep]
    exact fun _ _ _ => silent

end Emissions

end Sample

end Trinci
