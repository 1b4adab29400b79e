import Trinci.TransactionAuthentication
import Trinci.TransactionService

/-!
# Where the check of a transaction panics

A bulk is checked node by node, up to the first node that does not depend on the root or
names another network. A node is asked for its dependency before anything is known about
it, and only one variant of the data answers. The check is made on every transaction that
reaches the pool.
-/

namespace Trinci

/-- The data of a node of a bulk. -/
def isBulkNode : TransactionData → Bool
  | .bulkNodeV1 _ => true
  | _ => false

/-- The node depends on the root and names its network. -/
def belongsTo (rootHash : Hash) (network : String) (node : SignedTransaction) : Bool :=
  isBulkNode node.data && decide (node.data.getDependency.toOption = some (some rootHash)) &&
    node.data.getNetwork == network

/-- The first of the nodes that does not belong to the root is still a node of a bulk. -/
def StraysAsNode (rootHash : Hash) (network : String) (nodes : List SignedTransaction) : Prop :=
  ∀ node, (nodes.dropWhile (belongsTo rootHash network)).head? = some node → isBulkNode node.data

/-- The nodes of the transaction, where it is a bulk, can be checked. -/
def Checkable [Primitives] [Serialize TransactionData] (tx : Transaction) : Prop :=
  ∀ data, tx.data = .bulkV1 data → StraysAsNode data.txs.root.data.getHash
    data.txs.root.data.getNetwork (data.txs.nodes.getD [])

section Nodes

variable {rootHash : Hash} {network : String}

theorem getDependency_of_not_isBulkNode {data : TransactionData} (h : ¬ isBulkNode data) :
    data.getDependency = .error .noDependency := by
  cases data with
  | bulkNodeV1 txData => exact absurd rfl h
  | _ => rfl

theorem checkNodes_cons_stray {node : SignedTransaction} {nodes : List SignedTransaction}
    (hnode : isBulkNode node.data) (stray : ¬ belongsTo rootHash network node) :
    TransactionDataBulkV1.checkNodes rootHash network (node :: nodes) = .ok false := by
  rw [TransactionDataBulkV1.checkNodes]
  cases hdata : node.data with
  | bulkNodeV1 txData =>
    change (if txData.dependsOn ≠ rootHash then _ else _) = _
    by_cases hroot : txData.dependsOn = rootHash
    · by_cases hnetwork : (TransactionData.bulkNodeV1 txData).getNetwork = network
      · refine absurd ?_ stray
        rw [belongsTo, hdata, hnetwork, TransactionData.getDependency, hroot]
        simp [isBulkNode, Except.toOption]
      · rw [if_neg (not_not.mpr hroot), if_pos hnetwork]
        rfl
    · rw [if_pos hroot]
      rfl
  | _ =>
    rw [hdata] at hnode
    cases hnode

theorem checkNodes_cons_belongs {node : SignedTransaction} {nodes : List SignedTransaction}
    (belongs : belongsTo rootHash network node) :
    TransactionDataBulkV1.checkNodes rootHash network (node :: nodes) =
      TransactionDataBulkV1.checkNodes rootHash network nodes := by
  rw [belongsTo, Bool.and_eq_true, Bool.and_eq_true, decide_eq_true_eq, beq_iff_eq] at belongs
  obtain ⟨⟨hnode, hroot⟩, hnetwork⟩ := belongs
  cases hdata : node.data with
  | bulkNodeV1 txData =>
    rw [hdata] at hroot hnetwork
    have hroot : txData.dependsOn = rootHash := Option.some.inj (Option.some.inj hroot)
    rw [TransactionDataBulkV1.checkNodes, hdata]
    change (if txData.dependsOn ≠ rootHash then _ else _) = _
    rw [if_neg (not_not.mpr hroot), if_neg (not_not.mpr hnetwork)]
  | _ =>
    rw [hdata] at hnode
    cases hnode

/-- The loop over the nodes comes to an answer, or panics at the first that strays. -/
theorem checkNodes_isOk_iff (nodes : List SignedTransaction) :
    (∃ intact, TransactionDataBulkV1.checkNodes rootHash network nodes = .ok intact) ↔
      StraysAsNode rootHash network nodes := by
  induction nodes with
  | nil =>
    refine iff_of_true ⟨true, rfl⟩ fun node hnode => ?_
    cases hnode
  | cons node nodes ih =>
    by_cases belongs : belongsTo rootHash network node
    · rw [checkNodes_cons_belongs belongs, ih, StraysAsNode, StraysAsNode,
        List.dropWhile_cons_of_pos belongs]
    · rw [StraysAsNode, List.dropWhile_cons_of_neg belongs, List.head?_cons]
      by_cases hnode : isBulkNode node.data
      · refine iff_of_true ⟨false, checkNodes_cons_stray hnode belongs⟩ ?_
        rintro _ ⟨⟩
        exact hnode
      · constructor
        · rintro ⟨intact, h⟩
          rw [TransactionDataBulkV1.checkNodes, getDependency_of_not_isBulkNode hnode] at h
          cases h
        · exact fun strays => absurd (strays node rfl) hnode

end Nodes

section Verification

variable [Primitives] [Serialize TransactionData]

theorem bulk_checkIntegrity_isOk_iff (data : TransactionDataBulkV1) :
    (∃ intact, TransactionDataBulkV1.checkIntegrity data = .ok intact) ↔
      StraysAsNode data.txs.root.data.getHash data.txs.root.data.getNetwork
        (data.txs.nodes.getD []) := by
  have unasked : StraysAsNode data.txs.root.data.getHash data.txs.root.data.getNetwork [] :=
    fun node hnode => by cases hnode
  rw [TransactionDataBulkV1.checkIntegrity]
  cases hnodes : data.txs.nodes with
  | none => exact iff_of_true ⟨false, rfl⟩ unasked
  | some nodes =>
    cases nodes with
    | nil => exact iff_of_true ⟨false, rfl⟩ unasked
    | cons node nodes => exact checkNodes_isOk_iff (node :: nodes)

theorem checkIntegrity_isOk_iff (tx : Transaction) :
    (∃ intact, tx.checkIntegrity = .ok intact) ↔ Checkable tx := by
  rw [Transaction.checkIntegrity, Checkable]
  cases tx.data with
  | bulkV1 data =>
    rw [TransactionData.checkIntegrity, bulk_checkIntegrity_isOk_iff]
    constructor
    · rintro strays _ ⟨⟩
      exact strays
    · exact fun strays => strays data rfl
  | _ =>
    refine iff_of_true ⟨_, rfl⟩ fun data hdata => ?_
    cases hdata

theorem verify_isOk_iff (tx : Transaction) :
    (∃ verified, tx.verify = .ok verified) ↔ Checkable tx := by
  rw [← checkIntegrity_isOk_iff, Transaction.verify]
  cases tx.checkIntegrity with
  | error p =>
    constructor
    · rintro ⟨verified, h⟩
      cases h
    · rintro ⟨intact, h⟩
      cases h
  | ok intact =>
    refine iff_of_true ?_ ⟨intact, rfl⟩
    cases intact with
    | false => exact ⟨false, rfl⟩
    | true => exact ⟨_, rfl⟩

/-- For every transaction, of any variants in any positions: its check and its verification
come to an answer exactly if its nodes can be checked. -/
theorem checks_return_iff_checkable (tx : Transaction) :
    ((∃ intact, tx.checkIntegrity = .ok intact) ∧ ∃ verified, tx.verify = .ok verified) ↔
      Checkable tx := by
  rw [checkIntegrity_isOk_iff, verify_isOk_iff, and_self_iff]

/-- The transaction service survives a transaction exactly if its nodes can be checked. -/
theorem addTx_isOk_iff {A B C : Type} [DecidableEq A] (now : UInt64)
    (s : TransactionService A Transaction) (tx : Transaction) (size : Nat)
    (attachments : Option (List A)) :
    (∃ out, s.addTx (B := B) (C := C) now tx size attachments = .ok out) ↔ Checkable tx := by
  rw [← verify_isOk_iff, TransactionService.addTx]
  have hverify : Transactable.verify tx = tx.verify.toOption := rfl
  rw [hverify]
  cases tx.verify with
  | error p =>
    constructor
    · rintro ⟨out, h⟩
      cases h
    · rintro ⟨verified, h⟩
      cases h
  | ok verified =>
    refine iff_of_true ?_ ⟨verified, rfl⟩
    cases verified with
    | false => exact ⟨_, rfl⟩
    | true =>
      dsimp only [Except.toOption]
      split
      · exact ⟨_, rfl⟩
      · exact ⟨_, rfl⟩

end Verification

namespace Sample

/-- A bulk of alice's that has a unit of bob's for a node. -/
def unitInBulk : Transaction :=
  bulkOf (keypair 1) (emptyRoot 1 (keypair 1))
    [signed (keypair 2) (.v1 (request 2 (keypair 2).publicKey))]

theorem unit_in_bulk_panics : unitInBulk.verify = .error .noDependency ∧
    ¬ ((∃ intact, unitInBulk.checkIntegrity = .ok intact) ∧
      ∃ verified, unitInBulk.verify = .ok verified) := by
  have panics : unitInBulk.verify = .error .noDependency := by decide +kernel
  refine ⟨panics, ?_⟩
  rintro ⟨-, verified, h⟩
  rw [panics] at h
  cases h

end Sample

end Trinci
