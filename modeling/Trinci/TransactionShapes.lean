import Trinci.TransactionAuthentication
import Trinci.WmLocal

/-!
# Which transactions can be executed

Verification and execution look at the variants of the transaction data in ways of
their own. A unit transaction may carry the data of a bulk and verifies by the checks
of a bulk; executed, it asks that data for a contract and a method, which an empty
root has not. The nodes of a bulk verify whatever their callers are, and a caller
without an account id stops the service. A transaction is executed without stopping
it exactly when neither is the case.

The texts of the machine's errors, and the machine itself, may panic on their own;
these panics are not about transactions and are set apart.
-/

namespace Trinci

open StatefulSteps Exec

/-- A machine whose failed calls have errors with a kind and a cause. -/
class Explains (W : Type) [Wm W] : Prop where
  caused : ∀ {args : CallArgs} {w : World W} {left : Called W Bytes} {err : WasmError},
    Wm.call args w = .ok left → left.2.2.2 = .error err → err.text.2.isSome

/-- An error of the transaction, or a panic of the machine. -/
def Handled : Stop → Prop
  | .failed _ => True
  | .panic (.machine _) => True
  | .panic _ => False

section Shapes

variable [Primitives] [NodeCodec]

/-- The execution of the transaction reaches no accessor that panics, on every machine
and in every state. -/
def ExecutesHandled (tx : Transaction) : Prop :=
  ∀ (W : Type) [Wm W] [Explains W] (config : WasmConfig) (height : UInt64) (index : UInt32)
    (blockTimestamp : UInt64),
    StopsWith Handled
      (config.executeTransaction tx height index blockTimestamp : Exec W Receipt)

/-- The data, or the innermost root of the bulk that it is, is a call. -/
def hasCall : TransactionData → Bool
  | .v1 _ => true
  | .bulkNodeV1 _ => true
  | .bulkRootV1 _ => true
  | .bulkV1 ⟨⟨⟨root⟩, _⟩⟩ => hasCall root
  | .bulkEmptyRoot _ => false

/-- What execution asks of the data of a caller with an account id: a call of a unit,
and of a bulk with one of the two kinds of roots that every node has a caller with an
account id. -/
def Runnable : Transaction → Prop
  | .unitTransaction tx => hasCall tx.data
  | .bulkTransaction tx =>
    match tx.data with
    | .bulkV1 data =>
      isBulkRoot data.txs.root.data →
        ∀ node ∈ data.txs.nodes.getD [], node.data.getCaller.accountId?.isSome
    | _ => True

/-- The header of the caller's key can be written, and if the key has an account id the
transaction can be executed. -/
def ShapeHandled (tx : Transaction) : Prop :=
  match tx.data.getCaller.toAccountId with
  | .error _ => False
  | .ok (.error _) => True
  | .ok (.ok _) => Runnable tx

/-! ## The accessors -/

omit [Primitives] [NodeCodec] in
/-- The data of a call answers every accessor that execution uses. -/
theorem accessors_of_hasCall : (data : TransactionData) → hasCall data →
    (∃ contract, data.getContract = .ok contract) ∧ (∃ method, data.getMethod = .ok method) ∧
      ∃ args, data.getArgs = .ok args
  | .v1 txData, _ => ⟨⟨_, rfl⟩, ⟨_, rfl⟩, ⟨_, rfl⟩⟩
  | .bulkNodeV1 txData, _ => ⟨⟨_, rfl⟩, ⟨_, rfl⟩, ⟨_, rfl⟩⟩
  | .bulkRootV1 txData, _ => ⟨⟨_, rfl⟩, ⟨_, rfl⟩, ⟨_, rfl⟩⟩
  | .bulkV1 ⟨⟨⟨root⟩, nodes⟩⟩, h => by
    rw [TransactionData.getContract, TransactionData.getMethod, TransactionData.getArgs]
    exact accessors_of_hasCall root (by rwa [hasCall] at h)
  | .bulkEmptyRoot txData, h => by cases h

omit [Primitives] [NodeCodec] in
theorem getContract_of_not_hasCall : (data : TransactionData) → ¬ hasCall data →
    data.getContract = .error .noContract
  | .v1 txData, h => absurd rfl h
  | .bulkNodeV1 txData, h => absurd rfl h
  | .bulkRootV1 txData, h => absurd rfl h
  | .bulkV1 ⟨⟨⟨root⟩, nodes⟩⟩, h => by
    rw [TransactionData.getContract]
    exact getContract_of_not_hasCall root (by rwa [hasCall] at h)
  | .bulkEmptyRoot txData, _ => rfl

/-! ## What stops a computation -/

section Parts

variable {W : Type} {α : Type}

omit [Primitives] [NodeCodec] in
theorem ofText_handled (text : Except MachinePanic α) :
    StopsWith Handled (ofText text : Exec W α) := by
  cases text with
  | ok a => exact StopsWith.pure a
  | error p => exact StopsWith.throw trivial

omit [Primitives] [NodeCodec] in
theorem ofMachine_handled (run : World W → Except MachinePanic (World W × α)) :
    StopsWith Handled (ofMachine run : Exec W α) := by
  intro s e he
  cases h : run (Exec.world s) with
  | error p =>
    rw [(ofMachine_error h).2] at he
    cases he
    trivial
  | ok out =>
    rw [(ofMachine_ok (w := out.1) (a := out.2) h).2] at he
    cases he

omit [Primitives] [NodeCodec] in
theorem ofTransaction_handled {x : Except TransactionPanic α} (h : ∃ a, x = .ok a) :
    StopsWith Handled (ofTransaction x : Exec W α) := by
  obtain ⟨a, rfl⟩ := h
  exact StopsWith.pure a

omit [NodeCodec] in
theorem toAccountId_handled {key : TrinciPublicKey} (h : ∀ p, key.toAccountId ≠ .error p) :
    StopsWith Handled (toAccountId key : Exec W String) := by
  rw [toAccountId]
  cases hid : key.toAccountId with
  | error p => exact absurd hid (h p)
  | ok out =>
    cases out with
    | error e => exact StopsWith.throw trivial
    | ok id => exact StopsWith.pure id

omit [NodeCodec] in
theorem toAccountId_eq_ok {key : TrinciPublicKey} {s : Execution W} {id : String}
    (h : result (toAccountId key : Exec W String) s = .ok id) :
    key.toAccountId = .ok (.ok id) := by
  rw [toAccountId] at h
  cases hid : key.toAccountId with
  | error p =>
    rw [hid] at h
    cases h
  | ok out =>
    rw [hid] at h
    cases out with
    | error e => cases h
    | ok id' =>
      cases h
      rfl

omit [NodeCodec] in
theorem expectAccountId_handled {key : TrinciPublicKey} (h : key.accountId?.isSome) :
    StopsWith Handled (expectAccountId key : Exec W String) := by
  obtain ⟨id, hid⟩ := expectAccountId_pure (W := W) h
  rw [hid]
  exact StopsWith.pure id

variable [Wm W]

omit [Primitives] [NodeCodec] in
theorem call_explained [Explains W] {args : CallArgs} {s : Execution W}
    {out : List SmartContractEvent × UInt64 × Except WasmError Bytes}
    (h : result (Exec.call args : Exec W _) s = .ok out) {err : WasmError}
    (failed : out.2.2 = .error err) : err.text.2.isSome := by
  cases hrun : Wm.call args (Exec.world s) with
  | error p =>
    rw [Exec.call, (ofMachine_error hrun).2] at h
    cases h
  | ok left =>
    rw [Exec.call, (ofMachine_ok (w := left.1) (a := left.2) hrun).2] at h
    cases h
    exact Explains.caused hrun failed

omit [Primitives] [NodeCodec] in
theorem kind_of_explained {err : WasmError} (h : err.text.2.isSome) {kind : Option Bytes}
    (hkind : err.kind? = .ok kind) : kind.isSome := by
  obtain ⟨e, he⟩ := Option.isSome_iff_exists.1 h
  have htext : err.text = (err.text.1, some e) := Prod.ext rfl he
  rw [WasmError.kind?, htext] at hkind
  cases hformat : formatErrorString e with
  | error p =>
    simp only [hformat, bind, Except.bind] at hkind
    cases hkind
  | ok rest =>
    simp only [hformat, bind, Except.bind, pure, Except.pure, Except.ok.injEq] at hkind
    rw [← hkind]
    rfl

omit [Primitives] [NodeCodec] [Wm W] in
theorem unitOutcome_handled {outcome : Except WasmError Bytes}
    (h : ∀ err, outcome = .error err → err.text.2.isSome) :
    StopsWith Handled (WasmConfig.unitOutcome outcome : Exec W _) := by
  cases outcome with
  | ok value => exact StopsWith.pure _
  | error err =>
    have explained := h err rfl
    have named : ∀ (s : Execution W) kind, result (ofText err.kind?) s = .ok kind →
        ∃ msg, kind = some msg := by
      intro s kind hkind
      cases hk : err.kind? with
      | error p =>
        rw [hk] at hkind
        cases hkind
      | ok kind' =>
        rw [hk] at hkind
        cases hkind
        exact Option.isSome_iff_exists.1 (kind_of_explained explained hk)
    refine StopsWith.bind (StopsWith.modify _) fun _ => ?_
    cases err with
    | smartContractFault e => exact StopsWith.bind (ofText_handled _) fun msg => StopsWith.pure _
    | resourceNotFound e => exact StopsWith.bind (ofText_handled _) fun msg => StopsWith.pure _
    | _ =>
      refine StopsWith.bind_of (ofText_handled _) fun s kind hkind => ?_
      obtain ⟨msg, rfl⟩ := named s kind hkind
      exact StopsWith.pure _

end Parts

/-! ## What can be executed is executed -/

section Executed

variable {W : Type} [Wm W] (config : WasmConfig)

/-- Data that is a call is executed up to its result. -/
theorem handleUnitTransaction_handled [Explains W] {tx : SignedTransaction}
    (header : ∀ p, tx.data.getCaller.toAccountId ≠ .error p)
    (shape : ∀ id, tx.data.getCaller.toAccountId = .ok (.ok id) → hasCall tx.data)
    (height : UInt64) (index : UInt32) (blockTimestamp : UInt64) :
    StopsWith Handled
      (config.handleUnitTransaction tx height index blockTimestamp : Exec W _) := by
  rw [WasmConfig.handleUnitTransaction]
  refine StopsWith.ite (fun _ => ?_) fun _ => ?_
  · exact StopsWith.bind (toAccountId_handled header) fun account => StopsWith.pure _
  · refine StopsWith.bind_of (toAccountId_handled header) fun s caller hcaller => ?_
    obtain ⟨contract, method, args⟩ :=
      accessors_of_hasCall tx.data (shape caller (toAccountId_eq_ok hcaller))
    refine StopsWith.bind StopsWith.get fun s => ?_
    refine StopsWith.bind (ofTransaction_handled contract) fun contract => ?_
    refine StopsWith.bind (StopsWith.modify _) fun _ => ?_
    refine StopsWith.bind (ofMachine_handled _) fun appHash => ?_
    cases appHash with
    | error e => exact StopsWith.bind (ofText_handled _) fun msg => StopsWith.pure _
    | ok appHash =>
      refine StopsWith.bind (ofTransaction_handled method) fun method => ?_
      refine StopsWith.bind (ofTransaction_handled args) fun args => ?_
      refine StopsWith.bind_of (ofMachine_handled _) fun s called hcalled => ?_
      refine StopsWith.bind (unitOutcome_handled fun err => call_explained hcalled) fun out => ?_
      exact StopsWith.pure _

/-- A verified node is a call: only its caller may stop the service. -/
theorem handleBulkNodesExecution_handled (height blockTimestamp : UInt64)
    {nodes : List SignedTransaction}
    (bulk : ∀ node ∈ nodes, ∃ txData, node.data = .bulkNodeV1 txData)
    (callers : ∀ node ∈ nodes, node.data.getCaller.accountId?.isSome)
    (remainingWmFuel : UInt64) :
    StopsWith Handled (config.handleBulkNodesExecution height blockTimestamp nodes
      remainingWmFuel : Exec W _) := by
  induction nodes generalizing remainingWmFuel with
  | nil => exact StopsWith.pure _
  | cons node nodes ih =>
    obtain ⟨txData, hdata⟩ := bulk node (List.mem_cons_self ..)
    have call : hasCall node.data := by rw [hdata]; rfl
    obtain ⟨contract, method, args⟩ := accessors_of_hasCall node.data call
    have later := ih (fun node hnode => bulk node (List.mem_cons_of_mem _ hnode))
      fun node hnode => callers node (List.mem_cons_of_mem _ hnode)
    rw [WasmConfig.handleBulkNodesExecution]
    refine StopsWith.ite (fun _ => StopsWith.pure _) fun _ => ?_
    refine StopsWith.bind (expectAccountId_handled (callers node (List.mem_cons_self ..)))
      fun caller => ?_
    refine StopsWith.bind StopsWith.get fun s => ?_
    refine StopsWith.bind (ofTransaction_handled contract) fun contract => ?_
    refine StopsWith.bind (StopsWith.modify _) fun _ => ?_
    refine StopsWith.bind (ofMachine_handled _) fun appHash => ?_
    cases appHash with
    | error e => exact StopsWith.bind (ofText_handled _) fun msg => StopsWith.pure _
    | ok appHash =>
      refine StopsWith.bind (ofTransaction_handled method) fun method => ?_
      refine StopsWith.bind (ofTransaction_handled args) fun args => ?_
      refine StopsWith.bind (ofMachine_handled _) fun called => ?_
      obtain ⟨events, burntWmFuel, outcome⟩ := called
      cases outcome with
      | error e => exact StopsWith.bind (ofText_handled _) fun msg => StopsWith.pure _
      | ok rcpt => exact StopsWith.bind (later _) fun done => StopsWith.pure _

omit [Primitives] [NodeCodec] in
theorem handleBulkRoot_handled (tx : SignedTransaction) (root : TransactionData)
    (bulkCaller : String) (limit height : UInt64) (index : UInt32) (blockTimestamp : UInt64) :
    StopsWith Handled (config.handleBulkRoot tx root bulkCaller limit height index
      blockTimestamp : Exec W _) := by
  cases root with
  | bulkRootV1 txData =>
    rw [WasmConfig.handleBulkRoot]
    refine StopsWith.ite (fun _ => StopsWith.pure _) fun _ => ?_
    refine StopsWith.bind (StopsWith.modify _) fun _ => ?_
    refine StopsWith.bind (ofMachine_handled _) fun appHash => ?_
    cases appHash with
    | error e => exact StopsWith.bind (ofText_handled _) fun msg => StopsWith.pure _
    | ok appHash => exact StopsWith.bind (ofMachine_handled _) fun out => StopsWith.pure _
  | _ => exact StopsWith.pure _

omit [Primitives] [NodeCodec] in
/-- Only the two kinds of roots let execution come to the nodes. -/
theorem handleBulkRoot_fault {tx : SignedTransaction} {root : TransactionData}
    (hroot : ¬ isBulkRoot root) {bulkCaller : String} {limit height : UInt64} {index : UInt32}
    {blockTimestamp : UInt64} {s : Execution W}
    {out : Except Receipt (List SmartContractEvent × UInt64 × Except WasmError Bytes)}
    (h : result (config.handleBulkRoot tx root bulkCaller limit height index blockTimestamp :
      Exec W _) s = .ok out) : ∃ receipt, out = .error receipt := by
  cases root with
  | bulkRootV1 txData => exact absurd rfl hroot
  | bulkEmptyRoot txData => exact absurd rfl hroot
  | _ =>
    cases h
    exact ⟨_, rfl⟩

theorem handleBulkV1_handled (tx : SignedTransaction) {data : TransactionDataBulkV1}
    (bulk : ∀ node ∈ data.txs.nodes.getD [], ∃ txData, node.data = .bulkNodeV1 txData)
    (callers : isBulkRoot data.txs.root.data →
      ∀ node ∈ data.txs.nodes.getD [], node.data.getCaller.accountId?.isSome)
    (bulkCaller : String) (limit height : UInt64) (index : UInt32) (blockTimestamp : UInt64) :
    StopsWith Handled (config.handleBulkV1 tx data bulkCaller limit height index
      blockTimestamp : Exec W _) := by
  rw [WasmConfig.handleBulkV1]
  refine StopsWith.bind_of (handleBulkRoot_handled config tx _ bulkCaller limit height index
    blockTimestamp) fun s rooted hrooted => ?_
  rcases rooted with receipt | ⟨events, burntWmFuel, e | rcpt⟩
  · exact StopsWith.pure _
  · exact StopsWith.bind (ofText_handled _) fun msg => StopsWith.pure _
  · have hroot : isBulkRoot data.txs.root.data := by
      by_contra hroot
      obtain ⟨receipt, hreceipt⟩ := handleBulkRoot_fault config hroot hrooted
      cases hreceipt
    exact StopsWith.bind
      (handleBulkNodesExecution_handled config height blockTimestamp bulk (callers hroot) _)
      fun nodes => StopsWith.pure _

theorem handleBulkTransaction_handled {tx : SignedTransaction}
    (verified : (Transaction.bulkTransaction tx).verify = .ok true)
    (header : ∀ p, tx.data.getCaller.toAccountId ≠ .error p)
    (shape : ∀ id, tx.data.getCaller.toAccountId = .ok (.ok id) → Runnable (.bulkTransaction tx))
    (height : UInt64) (index : UInt32) (blockTimestamp : UInt64) :
    StopsWith Handled
      (config.handleBulkTransaction tx height index blockTimestamp : Exec W _) := by
  rw [WasmConfig.handleBulkTransaction]
  refine StopsWith.bind_of (toAccountId_handled header) fun s bulkCaller hcaller => ?_
  have runnable := shape bulkCaller (toAccountId_eq_ok hcaller)
  refine StopsWith.bind StopsWith.get fun s => ?_
  refine StopsWith.bind ?_ fun executed => ?_
  · cases hdata : tx.data with
    | bulkV1 data =>
      rw [Runnable, hdata] at runnable
      rw [WasmConfig.handleBulkData, hdata]
      exact handleBulkV1_handled config tx (verify_bulkNodes hdata verified) runnable bulkCaller _
        height index blockTimestamp
    | _ =>
      rw [WasmConfig.handleBulkData, hdata]
      exact StopsWith.pure _
  · cases executed with
    | error receipt => exact StopsWith.pure _
    | ok results => exact StopsWith.bind (StopsWith.modify _) fun _ => StopsWith.pure _

omit [Primitives] in
theorem burnFuel_handled (args : BurnFuelArgs) (blockTimestamp : UInt64) :
    StopsWith Handled (config.burnFuel args blockTimestamp : Exec W _) := by
  rw [WasmConfig.burnFuel]
  refine StopsWith.ite (fun _ => StopsWith.pure _) fun _ => ?_
  rw [WasmConfig.callBurnFuel]
  refine StopsWith.bind StopsWith.get fun s => ?_
  cases s.fork.accounts.loadAccount serviceAccountId with
  | none => exact StopsWith.pure _
  | some account =>
    cases hcontract : account.contract with
    | none =>
      dsimp only
      rw [hcontract]
      exact StopsWith.pure _
    | some contract =>
      dsimp only
      rw [hcontract]
      exact StopsWith.bind (ofMachine_handled _) fun called => StopsWith.pure _

theorem executeTransaction_handled [Explains W] {tx : Transaction} (verified : tx.verify = .ok true)
    (shape : ShapeHandled tx) (height : UInt64) (index : UInt32) (blockTimestamp : UInt64) :
    StopsWith Handled (config.executeTransaction tx height index blockTimestamp : Exec W _) := by
  have header : ∀ p, tx.data.getCaller.toAccountId ≠ .error p := by
    intro p hp
    rw [ShapeHandled, hp] at shape
    exact shape
  have runnable : ∀ id, tx.data.getCaller.toAccountId = .ok (.ok id) → Runnable tx := by
    intro id hid
    rw [ShapeHandled, hid] at shape
    exact shape
  rw [WasmConfig.executeTransaction]
  refine StopsWith.bind (StopsWith.modify _) fun _ => ?_
  refine StopsWith.bind (StopsWith.modify _) fun _ => ?_
  refine StopsWith.bind ?_ fun res => ?_
  · cases tx with
    | unitTransaction tx =>
      exact handleUnitTransaction_handled config header runnable height index blockTimestamp
    | bulkTransaction tx =>
      exact handleBulkTransaction_handled config verified header runnable height index
        blockTimestamp
  · refine StopsWith.bind (burnFuel_handled config _ _) fun burnResult => ?_
    refine StopsWith.ite (fun _ => ?_) fun _ => StopsWith.pure _
    exact StopsWith.bind (StopsWith.modify _) fun _ => StopsWith.pure _

end Executed

/-! ## What cannot be executed stops the willing machine -/

omit [Primitives] [NodeCodec] in
instance : Explains Willing where
  caused h failed := by
    cases h
    cases failed

section Stopped

variable (config : WasmConfig) (index : UInt32) (blockTimestamp : UInt64)

/-- The computation stops the service, and not in the machine. -/
def Panics {α : Type} (x : Exec Willing α) : Prop :=
  ∀ s, ∃ e, result x s = .error e ∧ ¬ Handled e

namespace Panics

variable {α β : Type} {x : Exec Willing α}

omit [Primitives] [NodeCodec] in
theorem panic {p : ExecutionPanic} (h : ¬ Handled (.panic p)) :
    Panics (Exec.panic p : Exec Willing α) :=
  fun _ => ⟨_, rfl, h⟩

omit [Primitives] [NodeCodec] in
theorem first {f : α → Exec Willing β} (h : Panics x) : Panics (x >>= f) := by
  intro s
  obtain ⟨e, he, bad⟩ := h s
  exact ⟨e, (bind_error he).2, bad⟩

omit [Primitives] [NodeCodec] in
theorem later {f : α → Exec Willing β} (hx : ∀ s, ∃ a, result x s = .ok a ∧ Panics (f a)) :
    Panics (x >>= f) := by
  intro s
  obtain ⟨a, ha, panics⟩ := hx s
  obtain ⟨e, he, bad⟩ := panics (after x s)
  exact ⟨e, (bind_ok ha).2.trans he, bad⟩

end Panics

omit [NodeCodec] in
theorem expectAccountId_panics {key : TrinciPublicKey} (h : ¬ key.accountId?.isSome) :
    Panics (expectAccountId key) := by
  rw [expectAccountId]
  rw [TrinciPublicKey.accountId?] at h
  cases hid : key.toAccountId with
  | error p => exact Panics.panic id
  | ok out =>
    cases out with
    | error e => exact Panics.panic id
    | ok id =>
      rw [hid] at h
      exact absurd rfl h

/-- The willing machine comes to the first node whose caller has no account id. -/
theorem handleBulkNodesExecution_panics {nodes : List SignedTransaction}
    (bulk : ∀ node ∈ nodes, ∃ txData, node.data = .bulkNodeV1 txData)
    (caller : ∃ node ∈ nodes, ¬ node.data.getCaller.accountId?.isSome)
    (remainingWmFuel : UInt64) :
    Panics (config.handleBulkNodesExecution 0 blockTimestamp nodes remainingWmFuel) := by
  induction nodes generalizing remainingWmFuel with
  | nil =>
    obtain ⟨node, hnode, -⟩ := caller
    cases hnode
  | cons node nodes ih =>
    have open0 : ¬ (node.data.getNetwork ≠ config.networkName ∧ (0 : UInt64) < 0) := by simp
    rw [WasmConfig.handleBulkNodesExecution, if_neg open0]
    by_cases hcaller : node.data.getCaller.accountId?.isSome
    · have rest : ∃ node ∈ nodes, ¬ node.data.getCaller.accountId?.isSome := by
        obtain ⟨bad, hbad, none⟩ := caller
        rcases List.mem_cons.1 hbad with rfl | hbad
        · exact absurd hcaller none
        · exact ⟨bad, hbad, none⟩
      have later := ih (fun node hnode => bulk node (List.mem_cons_of_mem _ hnode)) rest
      obtain ⟨txData, hdata⟩ := bulk node (List.mem_cons_self ..)
      obtain ⟨id, hid⟩ := expectAccountId_pure (W := Willing) hcaller
      rw [hid, pure_bind]
      refine Panics.later fun s => ⟨s, rfl, ?_⟩
      rw [hdata]
      refine Panics.later fun s => ⟨_, rfl, ?_⟩
      refine Panics.later fun s => ⟨⟨⟩, rfl, ?_⟩
      refine Panics.later fun s => ⟨_, rfl, ?_⟩
      refine Panics.later fun s => ⟨_, rfl, ?_⟩
      refine Panics.later fun s => ⟨_, rfl, ?_⟩
      refine Panics.later fun s => ⟨_, rfl, ?_⟩
      exact Panics.first (later _)
    · exact Panics.first (expectAccountId_panics hcaller)

theorem handleTransaction_panics {tx : Transaction} (verified : tx.verify = .ok true)
    (shape : ¬ ShapeHandled tx) :
    Panics (config.handleTransaction tx 0 index blockTimestamp) := by
  rw [ShapeHandled] at shape
  cases hkey : tx.data.getCaller.toAccountId with
  | error p =>
    have header : Panics (toAccountId tx.data.getCaller) := by
      rw [toAccountId, hkey]
      exact Panics.panic id
    cases tx with
    | unitTransaction tx =>
      have open0 : ¬ (tx.data.getNetwork ≠ config.networkName ∧ (0 : UInt64) < 0) := by simp
      rw [WasmConfig.handleTransaction, WasmConfig.handleUnitTransaction, if_neg open0]
      exact Panics.first header
    | bulkTransaction tx =>
      rw [WasmConfig.handleTransaction, WasmConfig.handleBulkTransaction]
      exact Panics.first header
  | ok out =>
    rw [hkey] at shape
    cases out with
    | error e => exact absurd trivial shape
    | ok caller =>
      have named : (toAccountId tx.data.getCaller : Exec Willing String) = pure caller := by
        rw [toAccountId, hkey]
      cases tx with
      | unitTransaction tx =>
        have open0 : ¬ (tx.data.getNetwork ≠ config.networkName ∧ (0 : UInt64) < 0) := by simp
        have noContract := getContract_of_not_hasCall tx.data shape
        change (toAccountId tx.data.getCaller : Exec Willing String) = _ at named
        rw [WasmConfig.handleTransaction, WasmConfig.handleUnitTransaction, if_neg open0, named,
          pure_bind]
        refine Panics.later fun s => ⟨s, rfl, ?_⟩
        rw [noContract]
        exact Panics.first (Panics.panic id)
      | bulkTransaction tx =>
        change (toAccountId tx.data.getCaller : Exec Willing String) = _ at named
        rw [WasmConfig.handleTransaction, WasmConfig.handleBulkTransaction, named, pure_bind]
        refine Panics.later fun s => ⟨s, rfl, Panics.first ?_⟩
        cases hdata : tx.data with
        | bulkV1 data =>
          simp only [Runnable, hdata, Classical.not_imp, not_forall] at shape
          obtain ⟨hroot, node, hnode, none⟩ := shape
          rw [WasmConfig.handleBulkData, hdata]
          refine Panics.later fun s => ?_
          obtain ⟨events, burnt, rcpt, hrooted⟩ := willing_root config tx hroot caller _ index
            blockTimestamp s
          refine ⟨_, hrooted, Panics.first ?_⟩
          exact handleBulkNodesExecution_panics config blockTimestamp (verify_bulkNodes hdata verified)
            ⟨node, hnode, none⟩ _
        | _ => simp [Runnable, hdata] at shape

end Stopped

/-- For every verified transaction: its execution reaches no panicking accessor exactly
when the header of its caller's key can be written and, if that key has an account id,
a unit's data has a call and every node that a bulk can come to has a caller with an
account id. -/
theorem executesHandled_iff_shapeHandled (tx : Transaction) (h : tx.verify = .ok true) :
    ExecutesHandled tx ↔ ShapeHandled tx := by
  constructor
  · intro handled
    by_contra shape
    let config : WasmConfig := ⟨"", "", ""⟩
    let start : Execution Willing :=
      ⟨.mk, SeedSource.new [] [] Hash.default Hash.default Hash.default, Db.empty.createFork, [], []⟩
    have panics : Panics (config.executeTransaction tx 0 0 0) := by
      rw [WasmConfig.executeTransaction]
      refine Panics.later fun s => ⟨⟨⟩, rfl, ?_⟩
      refine Panics.later fun s => ⟨⟨⟩, rfl, ?_⟩
      exact Panics.first (handleTransaction_panics config 0 0 h shape)
    obtain ⟨e, he, bad⟩ := panics start
    exact bad (handled Willing config 0 0 0 start e he)
  · intro shape W _ _ config height index blockTimestamp
    exact executeTransaction_handled config h shape height index blockTimestamp

end Shapes

/-! ## The machine of the node -/

section Machine

variable [WasmEngine] [Primitives] [Merkle] [Pcg32] [WmCodec]

namespace WmLocal

omit [WasmEngine] [Primitives] [Merkle] [Pcg32] [WmCodec] in
theorem callError_caused (e : EngineError) : (callError e).text.2.isSome := by
  cases e <;> rfl

omit [WasmEngine] [Primitives] [Merkle] [Pcg32] in
theorem callResult_caused {slice : Option Bytes} {err : WasmError}
    (h : callResult slice = .error err) : err.text.2.isSome := by
  cases slice with
  | none =>
    cases h
    rfl
  | some buf =>
    rw [callResult] at h
    split at h
    · cases h
    · cases h
      rfl
    · cases h
      rfl

omit [Primitives] [Merkle] [Pcg32] [WmCodec] in
/-- A missing or broken contract is a resource that was not found. -/
theorem getModule_caused {wm : WmLocal} {accounts : Accounts} {target : Hash} {err : WasmError}
    (h : (wm.getModule accounts target).2 = .error err) : err.text.2.isSome := by
  rw [getModule, loadModule] at h
  cases hcached : wm.cache.lookup target with
  | some entry =>
    simp only [hcached] at h
    cases h
  | none =>
    cases hcode : accounts.codeOf target with
    | none =>
      simp only [hcached, hcode] at h
      cases h
      rfl
    | some wasmBin =>
      cases hnew : WasmEngine.new wasmBin with
      | error e =>
        simp only [hcached, hcode, hnew] at h
        cases h
        rfl
      | ok module =>
        simp only [hcached, hcode, hnew] at h
        cases h

omit [Primitives] [Pcg32] in
theorem leave_caused {args : CallArgs} {f : Frame} {ended : Ended (Option Bytes)}
    {err : WasmError}
    (h : (leave args callError (fun consumed => consumed) callResult f ended).2.2.2 =
      .error err) : err.text.2.isSome := by
  rw [leave] at h
  cases hended : ended.result with
  | error e =>
    simp only [hended] at h
    cases h
    exact callError_caused e
  | ok slice =>
    simp only [hended] at h
    cases hupdate : updateDataHash f args.owner with
    | none =>
      simp only [hupdate] at h
      cases h
      rfl
    | some w =>
      simp only [hupdate] at h
      exact callResult_caused h

theorem call_caused (inner : Machine) {args : CallArgs} {w : World WmLocal}
    {left : Called WmLocal Bytes} {err : WasmError} (h : call inner args w = .ok left)
    (failed : left.2.2.2 = .error err) : err.text.2.isSome := by
  rw [call, enter, moduleOf] at h
  cases hmodule : (w.wm.getModule w.accounts args.contract).2 with
  | error e =>
    simp only [hmodule] at h
    cases h
    cases failed
    exact getModule_caused hmodule
  | ok module =>
    simp only [hmodule] at h
    cases hrun : execute inner args (WasmEngine.run module (inputOf args args.method) args.args
        args.initialFuel) { w with wm := (w.wm.getModule w.accounts args.contract).1 } with
    | error p =>
      simp only [hrun, Bind.bind, Except.bind] at h
      cases h
    | ok out =>
      simp only [hrun, Bind.bind, Except.bind, pure, Except.pure, Except.ok.injEq] at h
      rw [← h] at failed
      exact leave_caused failed

end WmLocal

instance : Explains WmLocal where
  caused := by
    intro args w left err h failed
    change (WmLocal.machine w.wm.stack).call args w = .ok left at h
    cases hstack : w.wm.stack with
    | zero =>
      rw [hstack] at h
      cases h
    | succ stack =>
      rw [hstack] at h
      exact WmLocal.call_caused _ h failed

end Machine

namespace Sample

/-- A unit transaction of alice's with the data of a bulk that has an empty root. -/
def bulkInUnit : Transaction :=
  .unitTransaction (signed (keypair 1) (.bulkV1 ⟨⟨⟨emptyRoot 1 (keypair 1)⟩,
    some [signed (keypair 2) (nodeOf (emptyRoot 1 (keypair 1)) 2 (keypair 2).publicKey)]⟩⟩))

/-- It verifies, and its execution asks an empty root for its contract. -/
theorem bulk_in_unit_panics : bulkInUnit.verify = .ok true ∧
    result (config.executeTransaction bulkInUnit 1 0 0) idle =
      .error (.panic (.transaction .noContract)) ∧
    ¬ ExecutesHandled bulkInUnit := by
  have stopped : result (config.executeTransaction bulkInUnit 1 0 0) idle =
      .error (.panic (.transaction .noContract)) := rfl
  refine ⟨by decide +kernel, stopped, fun handled => ?_⟩
  exact handled Willing config 1 0 0 idle _ stopped

theorem bulk_with_bob_is_handled : signedBulk.verify = .ok true ∧
    ExecutesHandled signedBulk := by
  have verified : signedBulk.verify = .ok true := by decide +kernel
  have shape : ShapeHandled signedBulk := by
    change isBulkRoot _ → ∀ node ∈ [_], _
    decide +kernel
  exact ⟨verified, (executesHandled_iff_shapeHandled signedBulk verified).2 shape⟩

end Sample

end Trinci
