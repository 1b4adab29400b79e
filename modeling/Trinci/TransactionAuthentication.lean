import Trinci.ExecutionEffects

/-!
# Who signed what is executed

A verified transaction carries a signature of its caller over its data, which
covers a unit or the root of a bulk. The nodes of a bulk have callers of their own:
the integrity check compares their dependency and their network and never looks at
their signatures. Execution runs them for their callers all the same.
-/

namespace Trinci

open StatefulSteps Exec

section Authentication

variable [Primitives] [NodeCodec]

/-- The signature verifies over the data under the key it was run for. -/
def Ran.Authentic (part : Ran) : Prop := part.data.verify part.caller part.signature = true

instance (part : Ran) : Decidable part.Authentic := inferInstanceAs (Decidable (_ = true))

/-- Everything that the execution of the transaction runs is authentic, on every
machine and in every state. -/
def ExecutesAuthentic (tx : Transaction) : Prop :=
  ∀ (W : Type) [Wm W] (config : WasmConfig) (height : UInt64) (index : UInt32)
    (blockTimestamp : UInt64) (s : Execution W),
    ∀ part ∈ (after (config.executeTransaction tx height index blockTimestamp) s).ran.drop
      s.ran.length, part.Authentic

def isBulkRoot : TransactionData → Bool
  | .bulkRootV1 _ => true
  | .bulkEmptyRoot _ => true
  | _ => false

/-- The nodes that execution can come to: those of a bulk whose root has one of the
two kinds of roots and a caller with an account id, before the first node whose
caller has none. -/
def reachableNodes : Transaction → List SignedTransaction
  | .unitTransaction _ => []
  | .bulkTransaction tx =>
    match tx.data with
    | .bulkV1 data =>
      if tx.data.getCaller.accountId?.isSome && isBulkRoot data.txs.root.data then
        runnableNodes (data.txs.nodes.getD [])
      else []
    | _ => []

/-- Each of these nodes carries a signature of its own caller. -/
def NodesSigned (tx : Transaction) : Prop :=
  ∀ node ∈ reachableNodes tx, node.data.verify node.data.getCaller node.signature = true

instance (tx : Transaction) : Decidable (NodesSigned tx) :=
  inferInstanceAs (Decidable (∀ node ∈ _, _ = true))

/-! ## What verification gives -/

theorem verify_ok {tx : Transaction} (h : tx.verify = .ok true) :
    tx.checkIntegrity = .ok true ∧ tx.data.verify tx.data.getCaller tx.getSignature = true := by
  unfold Transaction.verify at h
  cases hcheck : tx.checkIntegrity with
  | error p =>
    rw [hcheck] at h
    cases h
  | ok intact =>
    rw [hcheck] at h
    cases intact with
    | false => cases h
    | true => exact ⟨rfl, Except.ok.inj h⟩

omit [Primitives] [NodeCodec] in
/-- Only a bulk node has a dependency. -/
theorem checkNodes_bulkNodes {rootHash : Hash} {network : String}
    {nodes : List SignedTransaction}
    (h : TransactionDataBulkV1.checkNodes rootHash network nodes = .ok true) :
    ∀ node ∈ nodes, ∃ txData, node.data = .bulkNodeV1 txData := by
  induction nodes with
  | nil => intro node hnode; cases hnode
  | cons first nodes ih =>
    rw [TransactionDataBulkV1.checkNodes] at h
    cases hdata : first.data with
    | bulkNodeV1 txData =>
      rw [hdata] at h
      have rest : TransactionDataBulkV1.checkNodes rootHash network nodes = .ok true := by
        change (if txData.dependsOn ≠ rootHash then .ok false
          else if (TransactionData.bulkNodeV1 txData).getNetwork ≠ network then .ok false
          else TransactionDataBulkV1.checkNodes rootHash network nodes) = _ at h
        split at h
        · cases h
        · split at h
          · cases h
          · exact h
      intro node hnode
      rcases List.mem_cons.mp hnode with rfl | hnode
      · exact ⟨txData, hdata⟩
      · exact ih rest node hnode
    | _ =>
      rw [hdata] at h
      cases h

theorem verify_bulkNodes {tx : SignedTransaction} {data : TransactionDataBulkV1}
    (hdata : tx.data = .bulkV1 data) (h : (Transaction.bulkTransaction tx).verify = .ok true) :
    ∀ node ∈ data.txs.nodes.getD [], ∃ txData, node.data = .bulkNodeV1 txData := by
  have intact := (verify_ok h).1
  have intact : TransactionDataBulkV1.checkIntegrity data = .ok true := by
    simpa only [Transaction.checkIntegrity, Transaction.data, hdata,
      TransactionData.checkIntegrity] using intact
  unfold TransactionDataBulkV1.checkIntegrity at intact
  split at intact
  · cases intact
  · cases intact
  · next nodes _ hnodes =>
    rw [hnodes]
    exact checkNodes_bulkNodes intact

/-! ## What is run is authentic if the nodes are signed -/

omit [NodeCodec] in
/-- The parts of a transaction: itself, or one of the nodes. -/
theorem mem_partsOf {tx : Transaction} {part : Ran} (h : part ∈ partsOf tx) :
    (part.data = tx.data ∧ part.caller = tx.data.getCaller ∧
      part.signature = tx.getSignature) ∨
    ∃ node ∈ reachableNodes tx, part = nodePart node := by
  cases tx with
  | unitTransaction tx =>
    rw [List.mem_singleton.mp h]
    exact .inl ⟨rfl, rfl, rfl⟩
  | bulkTransaction tx =>
    cases hdata : tx.data with
    | bulkV1 data =>
      simp only [partsOf, hdata] at h
      split at h
      · next hcaller =>
        cases hroot : data.txs.root.data with
        | bulkRootV1 root =>
          simp only [bulkParts, hroot, List.mem_cons, List.mem_map] at h
          obtain rfl | ⟨node, hnode, rfl⟩ := h
          · exact .inl ⟨rfl, rfl, rfl⟩
          · exact .inr ⟨node, by simpa [reachableNodes, hdata, hcaller, hroot, isBulkRoot], rfl⟩
        | bulkEmptyRoot root =>
          simp only [bulkParts, hroot, List.mem_map] at h
          obtain ⟨node, hnode, rfl⟩ := h
          exact .inr ⟨node, by simpa [reachableNodes, hdata, hcaller, hroot, isBulkRoot], rfl⟩
        | _ => simp [bulkParts, hroot] at h
      · cases h
    | _ => simp [partsOf, hdata] at h

/-- Signed nodes are enough. -/
theorem executesAuthentic_of_signed {tx : Transaction} (h : tx.verify = .ok true)
    (signed : NodesSigned tx) : ExecutesAuthentic tx := by
  intro W _ config height index blockTimestamp s part hpart
  have within := config.executeTransaction_within tx height index blockTimestamp s
  obtain ⟨extra, hran, hextra⟩ := within.ran
  have hpart : part ∈ extra := by
    have hdrop := congrArg (List.drop s.ran.length) hran
    rw [hdrop] at hpart
    simpa [WasmConfig.opened] using hpart
  obtain ⟨hdata, hcaller, hsignature⟩ | ⟨node, hnode, rfl⟩ := mem_partsOf (hextra.subset hpart)
  · unfold Ran.Authentic
    rw [hdata, hcaller, hsignature]
    exact (verify_ok h).2
  · exact signed node hnode

/-! ## Every reachable node is run somewhere -/

/-- A machine on which every call succeeds and does nothing. -/
inductive Willing
  | mk

instance : Wm Willing where
  call _ w := .ok (w, [], 0, .ok [])
  appHashCheck _ _ _ w := .ok (w, .ok Hash.default)

omit [NodeCodec] in
theorem expectAccountId_pure {W : Type} {key : TrinciPublicKey} (h : key.accountId?.isSome) :
    ∃ id, (Exec.expectAccountId key : Exec W String) = pure id := by
  unfold TrinciPublicKey.accountId? at h
  unfold Exec.expectAccountId
  split at h
  · next id hid => exact ⟨id, by rw [hid]⟩
  · cases h

omit [NodeCodec] in
theorem toAccountId_pure {W : Type} {key : TrinciPublicKey} (h : key.accountId?.isSome) :
    ∃ id, (Exec.toAccountId key : Exec W String) = pure id := by
  unfold TrinciPublicKey.accountId? at h
  unfold Exec.toAccountId
  split at h
  · next id hid => exact ⟨id, by rw [hid]⟩
  · cases h

/-- In the genesis block no network is compared, so the willing machine runs every
node up to the first without an account id. -/
theorem willing_runs_nodes (config : WasmConfig) (blockTimestamp : UInt64)
    {nodes : List SignedTransaction}
    (bulk : ∀ node ∈ nodes, ∃ txData, node.data = .bulkNodeV1 txData)
    (remainingWmFuel : UInt64) (s : Execution Willing) :
    (after (config.handleBulkNodesExecution 0 blockTimestamp nodes remainingWmFuel) s).ran =
      s.ran ++ (runnableNodes nodes).map nodePart := by
  induction nodes generalizing remainingWmFuel s with
  | nil => simp [WasmConfig.handleBulkNodesExecution, runnableNodes]
  | cons node nodes ih =>
    obtain ⟨txData, hdata⟩ := bulk node (List.mem_cons_self ..)
    have later := ih fun node hnode => bulk node (List.mem_cons_of_mem _ hnode)
    have open0 : ¬ (node.data.getNetwork ≠ config.networkName ∧ (0 : UInt64) < 0) := by simp
    rw [WasmConfig.handleBulkNodesExecution, if_neg open0]
    by_cases hcaller : node.data.getCaller.accountId?.isSome
    · obtain ⟨id, hid⟩ := expectAccountId_pure (W := Willing) hcaller
      rw [runnableNodes_cons hcaller, hid, pure_bind, after_get_bind]
      rw [hdata]
      refine (congrArg Execution.ran (after_bind_pure _ _ _)).trans ((later _ _).trans ?_)
      simp [Exec.setWorld, nodePart, hdata]
    · obtain ⟨e, he⟩ := expectAccountId_error (W := Willing) hcaller
      rw [he, (bind_error (result_throw e s)).1]
      simp [runnableNodes, hcaller]

omit [Primitives] [NodeCodec] in
theorem willing_root (config : WasmConfig) (tx : SignedTransaction) {root : TransactionData}
    (hroot : isBulkRoot root) (bulkCaller : String) (limit : UInt64) (index : UInt32)
    (blockTimestamp : UInt64) (s : Execution Willing) :
    ∃ events burnt rcpt, result (config.handleBulkRoot tx root bulkCaller limit 0 index
      blockTimestamp) s = .ok (.ok (events, burnt, .ok rcpt)) := by
  cases root with
  | bulkRootV1 txData =>
    have open0 : ¬ (txData.network ≠ config.networkName ∧ (0 : UInt64) < 0) := by simp
    simp only [WasmConfig.handleBulkRoot, if_neg open0]
    exact ⟨[], 0, [], rfl⟩
  | bulkEmptyRoot txData => exact ⟨[], 0, [192], rfl⟩
  | _ => cases hroot

theorem willing_runs_bulk (config : WasmConfig) (tx : SignedTransaction)
    (data : TransactionDataBulkV1) (bulkCaller : String) (limit : UInt64) (index : UInt32)
    (blockTimestamp : UInt64) (hroot : isBulkRoot data.txs.root.data)
    (bulk : ∀ node ∈ data.txs.nodes.getD [], ∃ txData, node.data = .bulkNodeV1 txData)
    (s : Execution Willing) {node : SignedTransaction}
    (hnode : node ∈ runnableNodes (data.txs.nodes.getD [])) :
    nodePart node ∈
      (after (config.handleBulkV1 tx data bulkCaller limit 0 index blockTimestamp) s).ran := by
  obtain ⟨events, burnt, rcpt, hrooted⟩ :=
    willing_root config tx hroot bulkCaller limit index blockTimestamp s
  have rest := bind_ok (f := config.handleBulkAfterRoot data limit 0 blockTimestamp) hrooted
  rw [WasmConfig.handleBulkV1, rest.1, WasmConfig.handleBulkAfterRoot, after_bind_pure,
    willing_runs_nodes config blockTimestamp bulk]
  exact List.mem_append_right _ (List.mem_map_of_mem hnode)

/-- Every reachable node of a verified bulk is run by the willing machine. -/
theorem willing_runs_reachable (config : WasmConfig) {tx : Transaction}
    (h : tx.verify = .ok true) (index : UInt32) (blockTimestamp : UInt64)
    (s : Execution Willing) {node : SignedTransaction} (hnode : node ∈ reachableNodes tx) :
    nodePart node ∈
      (after (config.executeTransaction tx 0 index blockTimestamp) s).ran := by
  rw [config.executeTransaction_ran]
  cases tx with
  | unitTransaction tx => cases hnode
  | bulkTransaction tx =>
    cases hdata : tx.data with
    | bulkV1 data =>
      simp only [reachableNodes, hdata] at hnode
      split at hnode
      · next hreach =>
        rw [Bool.and_eq_true, ← hdata] at hreach
        obtain ⟨id, hid⟩ := toAccountId_pure (W := Willing) hreach.1
        have whole : ∀ limit, config.handleBulkData (W := Willing) tx id limit 0 index
            blockTimestamp = config.handleBulkV1 tx data id limit 0 index blockTimestamp := by
          intro limit
          simp only [WasmConfig.handleBulkData, hdata]
        rw [WasmConfig.handleTransaction, WasmConfig.handleBulkTransaction, hid, pure_bind,
          after_get_bind]
        dsimp only
        rw [Runs.ran_bind, whole]
        · exact willing_runs_bulk config tx data id _ index blockTimestamp hreach.2
            (verify_bulkNodes hdata h) _ hnode
        · intro executed
          cases executed with
          | error receipt => exact Runs.pure _
          | ok results => exact Runs.bind_nil (Runs.rollback_if _) fun _ => Runs.pure _
      · cases hnode
    | _ => simp [reachableNodes, hdata] at hnode

/-- For every verified transaction: whatever is executed was signed by the one it is
executed for exactly when the nodes that execution can come to are signed by their
callers. Nothing checks that they are. -/
theorem executesAuthentic_iff_nodesSigned (tx : Transaction) (h : tx.verify = .ok true) :
    ExecutesAuthentic tx ↔ NodesSigned tx := by
  constructor
  · intro authentic node hnode
    let config : WasmConfig := ⟨"", "", ""⟩
    let start : Execution Willing :=
      ⟨.mk, SeedSource.new [] [] Hash.default Hash.default Hash.default, Db.empty.createFork, [], []⟩
    have ran := willing_runs_reachable config h 0 0 start hnode
    exact authentic Willing config 0 0 0 start (nodePart node) ran
  · exact executesAuthentic_of_signed h

end Authentication

namespace Sample

/-- A bulk of alice's with a node in the name of bob that bob never signed. -/
def unsignedBulk : Transaction :=
  bulkOf (keypair 1) (emptyRoot 1 (keypair 1))
    [⟨nodeOf (emptyRoot 1 (keypair 1)) 2 (keypair 2).publicKey, []⟩]

/-- The same bulk with bob's signature. -/
def signedBulk : Transaction :=
  bulkOf (keypair 1) (emptyRoot 1 (keypair 1))
    [signed (keypair 2) (nodeOf (emptyRoot 1 (keypair 1)) 2 (keypair 2).publicKey)]

def idle : Execution Willing :=
  ⟨.mk, SeedSource.new [] [] Hash.default Hash.default Hash.default, Db.empty.createFork, [], []⟩

/-- The forged bulk verifies, and its node runs for bob in a block of the network. -/
theorem unsigned_node_runs_for_bob : unsignedBulk.verify = .ok true ∧
    (∃ part ∈ (after (config.executeTransaction unsignedBulk 1 0 0) idle).ran,
      part.part = .node ∧ part.caller = (keypair 2).publicKey ∧ ¬ part.Authentic) ∧
    ¬ ExecutesAuthentic unsignedBulk := by
  have ran : ∃ part ∈ (after (config.executeTransaction unsignedBulk 1 0 0) idle).ran,
      part.part = .node ∧ part.caller = (keypair 2).publicKey ∧ ¬ part.Authentic := by
    decide +kernel
  refine ⟨by decide +kernel, ran, fun authentic => ?_⟩
  obtain ⟨part, hpart, -, -, hunsigned⟩ := ran
  exact hunsigned (authentic Willing config 1 0 0 idle part hpart)

theorem countersigned_node_authentic : signedBulk.verify = .ok true ∧
    ExecutesAuthentic signedBulk :=
  have verified : signedBulk.verify = .ok true := by decide +kernel
  ⟨verified, (executesAuthentic_iff_nodesSigned signedBulk verified).mpr (by decide +kernel)⟩

end Sample

end Trinci
