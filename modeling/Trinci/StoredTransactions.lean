import Trinci.PoolContents

/-!
# What the database answers about stored transactions

A bulk is stored with its root and its nodes as attachments, and an attachment counts as a
transaction of the database. Loading one looks for it among the nodes of the bulk that is
stored under the parent's hash. A root is no node, so the database has it and gives nothing
for it, unless a later bulk gives it as a node or it is stored on its own.
-/

namespace Trinci

section Stores

variable [Primitives] [Serialize TransactionData]

/-- The database after transactions are stored under their own hashes. -/
def Db.storeAll (txs : List Transaction) : Db :=
  txs.foldl (fun db tx => db.storeTransaction tx.getHash tx) Db.empty

/-- The last of the transactions that was stored under the hash. -/
def lastStored (txs : List Transaction) (hash : Hash) : Option Transaction :=
  txs.reverse.find? fun tx => tx.getHash = hash

/-- The transaction is a bulk with a part of this hash, its root or a node. -/
def listsPart (hash : Hash) (tx : Transaction) : Bool :=
  ((Db.retrieveAttachmentsFromTx tx).getD []).contains hash

/-- The last of the bulks that have a part of this hash. -/
def lastListing (txs : List Transaction) (hash : Hash) : Option Transaction :=
  txs.reverse.find? (listsPart hash)

/-- The transaction is a bulk with a node of this hash. -/
def HasNode (hash : Hash) : Transaction → Prop
  | .bulkTransaction ⟨.bulkV1 data, _⟩ => ∃ node ∈ data.txs.nodes.getD [], node.data.getHash = hash
  | _ => False

/-- The database has what it gives for a hash and gives what it has, under that hash. -/
def Db.Faithful (db : Db) (hash : Hash) : Prop :=
  (db.containsTransaction hash = true ↔ ∃ tx, db.loadTransaction hash = some tx) ∧
    ∀ tx, db.loadTransaction hash = some tx → tx.getHash = hash

theorem Db.not_faithful {db : Db} {hash : Hash} (contained : db.containsTransaction hash = true)
    (absent : db.loadTransaction hash = none) : ¬ db.Faithful hash := by
  intro faithful
  obtain ⟨tx, htx⟩ := faithful.1.mp contained
  rw [absent] at htx
  cases htx

/-! ## One transaction -/

section Steps

variable {db : Db} {hash own : Hash} {tx : Transaction}

omit [Primitives] [Serialize TransactionData] in
theorem foldl_insert_lookup (hashes : List Hash) (parent : Hash)
    (map : AList fun _ : Hash => Hash) :
    (hashes.foldl (fun map attachment => map.insert attachment parent) map).lookup hash =
      if hash ∈ hashes then some parent else map.lookup hash := by
  induction hashes generalizing map with
  | nil => simp
  | cons first later ih =>
    rw [List.foldl_cons, ih]
    by_cases again : hash ∈ later
    · rw [if_pos again, if_pos (List.mem_cons_of_mem _ again)]
    · by_cases same : hash = first
      · subst same
        rw [if_neg again, if_pos List.mem_cons_self, AList.lookup_insert]
      · have absent : hash ∉ first :: later := by
          rw [List.mem_cons, not_or]
          exact ⟨same, again⟩
        rw [if_neg again, if_neg absent, AList.lookup_insert_ne same]

omit [Primitives] [Serialize TransactionData] in
theorem insert_lookup (map : AList fun _ : Hash => Transaction) :
    (map.insert own tx).lookup hash = if own = hash then some tx else map.lookup hash := by
  split
  · next same => rw [← same, AList.lookup_insert]
  · next differs => exact AList.lookup_insert_ne (Ne.symm differs)

/-- A bulk is the parent of all its parts, whatever had them before. -/
theorem storeTransaction_loadAttachment (db : Db) (own : Hash) (tx : Transaction) (hash : Hash) :
    (db.storeTransaction own tx).loadAttachment hash =
      if listsPart hash tx then some own else db.loadAttachment hash := by
  unfold Db.storeTransaction listsPart Db.retrieveAttachmentsFromTx Db.loadAttachment
  split
  · simp only [Option.getD_some, List.contains_iff_mem]
    exact foldl_insert_lookup _ _ _
  · rfl

/-- The node that is given for a part of a bulk. -/
def findNode (hash : Hash) : Transaction → Option Transaction
  | .bulkTransaction ⟨.bulkV1 bulk, _⟩ => do
    let nodes ← bulk.txs.nodes
    let node ← nodes.find? fun node => node.data.getHash = hash
    return .unitTransaction node
  | _ => none

theorem findNode_bulk {data : TransactionDataBulkV1} {signature : Bytes} {found : Transaction} :
    findNode hash (.bulkTransaction ⟨.bulkV1 data, signature⟩) = some found ↔
      ∃ node, (data.txs.nodes.getD []).find? (fun node => node.data.getHash = hash) = some node ∧
        .unitTransaction node = found := by
  rw [findNode]
  cases data.txs.nodes with
  | none => simp
  | some nodes => simp [Option.bind_eq_some_iff]

theorem findNode_isSome_iff : (∃ found, findNode hash tx = some found) ↔ HasNode hash tx := by
  unfold HasNode
  split
  · next data signature =>
    simp only [findNode_bulk]
    rw [exists_comm]
    simp only [exists_and_left, exists_eq', and_true]
    rw [← Option.isSome_iff_exists, List.find?_isSome]
    simp
  · next other =>
    refine iff_of_false ?_ id
    rintro ⟨found, hfound⟩
    unfold findNode at hfound
    split at hfound
    · next data signature => exact other data signature rfl
    · cases hfound

theorem findNode_getHash {found : Transaction} (h : findNode hash tx = some found) :
    found.getHash = hash := by
  obtain ⟨data, signature, rfl⟩ : ∃ data signature,
      tx = .bulkTransaction ⟨.bulkV1 data, signature⟩ := by
    unfold findNode at h
    split at h
    · exact ⟨_, _, rfl⟩
    · cases h
  obtain ⟨node, hfind, rfl⟩ := findNode_bulk.mp h
  have own := List.find?_some hfind
  rwa [decide_eq_true_eq] at own

theorem loadTransaction_eq (db : Db) (hash : Hash) : db.loadTransaction hash =
    (db.transactions.lookup hash).or ((db.loadAttachment hash).bind fun parent =>
      (db.transactions.lookup parent).bind (findNode hash)) := by
  unfold Db.loadTransaction
  cases db.transactions.lookup hash with
  | some tx => rfl
  | none =>
    cases db.loadAttachment hash with
    | none => rfl
    | some parent =>
      change ((db.transactions.lookup parent).bind _) = _
      rw [Option.none_or, Option.bind_some]
      apply Option.bind_congr
      intro tx _
      cases tx with
      | unitTransaction tx => rfl
      | bulkTransaction tx =>
        obtain ⟨data, signature⟩ := tx
        cases data <;> rfl

end Steps

/-! ## Any sequence of transactions -/

section Sequences

variable {txs : List Transaction} {hash : Hash}

theorem storeAll_snoc (txs : List Transaction) (tx : Transaction) :
    Db.storeAll (txs ++ [tx]) = (Db.storeAll txs).storeTransaction tx.getHash tx := by
  rw [Db.storeAll, List.foldl_append]
  rfl

omit [Primitives] [Serialize TransactionData] in
theorem find?_reverse_snoc {α : Type} (p : α → Bool) (xs : List α) (x : α) :
    (xs ++ [x]).reverse.find? p = if p x = true then some x else xs.reverse.find? p := by
  rw [List.reverse_append, List.reverse_singleton, List.singleton_append, List.find?_cons]
  cases p x <;> rfl

theorem storeAll_lookup (txs : List Transaction) (hash : Hash) :
    (Db.storeAll txs).transactions.lookup hash = lastStored txs hash := by
  induction txs using List.reverseRecOn with
  | nil => rfl
  | append_singleton txs tx ih =>
    rw [storeAll_snoc, Db.storeTransaction_transactions, insert_lookup, ih, lastStored,
      lastStored, find?_reverse_snoc]
    simp only [decide_eq_true_eq]

theorem storeAll_loadAttachment (txs : List Transaction) (hash : Hash) :
    (Db.storeAll txs).loadAttachment hash = (lastListing txs hash).map Transaction.getHash := by
  induction txs using List.reverseRecOn with
  | nil => rfl
  | append_singleton txs tx ih =>
    rw [storeAll_snoc, storeTransaction_loadAttachment, ih, lastListing, lastListing,
      find?_reverse_snoc]
    cases listsPart hash tx <;> rfl

theorem storeAll_containsTransaction : (Db.storeAll txs).containsTransaction hash = true ↔
    (lastStored txs hash).isSome ∨ (lastListing txs hash).isSome := by
  rw [Db.containsTransaction, Bool.or_eq_true, Db.containsAttachment, decide_eq_true_eq,
    decide_eq_true_eq, ← AList.lookup_isSome, ← AList.lookup_isSome, storeAll_lookup]
  have attached := storeAll_loadAttachment txs hash
  rw [Db.loadAttachment] at attached
  rw [attached, Option.isSome_map]

theorem lastStored_getHash {tx : Transaction} (h : lastStored txs hash = some tx) :
    tx.getHash = hash := by
  simpa using List.find?_some h

theorem lastStored_isSome_iff : (lastStored txs hash).isSome ↔ ∃ tx ∈ txs, tx.getHash = hash := by
  simp [lastStored]

/-- What the database gives for a hash. -/
theorem storeAll_loadTransaction (txs : List Transaction) (hash : Hash) :
    (Db.storeAll txs).loadTransaction hash = (lastStored txs hash).or
      ((lastListing txs hash).bind fun parent =>
        (lastStored txs parent.getHash).bind (findNode hash)) := by
  rw [loadTransaction_eq, storeAll_lookup, storeAll_loadAttachment, Option.bind_map]
  congr 1
  apply Option.bind_congr
  intro parent _
  rw [Function.comp_apply, storeAll_lookup]

/-- After any transactions were stored, the database is faithful about a hash if and only if
one of them has it, or whatever is stored under the hash of the last bulk with such a part is
a bulk with such a node. -/
theorem storeAll_faithful_iff (txs : List Transaction) (hash : Hash) :
    (Db.storeAll txs).Faithful hash ↔
      (∃ tx ∈ txs, tx.getHash = hash) ∨ ∀ parent ∈ lastListing txs hash,
        ∃ tx ∈ lastStored txs parent.getHash, HasNode hash tx := by
  rw [Db.Faithful, storeAll_containsTransaction, storeAll_loadTransaction,
    ← lastStored_isSome_iff]
  cases hstored : lastStored txs hash with
  | some tx =>
    refine iff_of_true ⟨?_, ?_⟩ (.inl rfl)
    · exact iff_of_true (.inl rfl) ⟨tx, rfl⟩
    · intro found hfound
      cases hfound
      exact lastStored_getHash hstored
  | none =>
    simp only [Option.isSome_none, Bool.false_eq_true, false_or, Option.none_or]
    cases hlisting : lastListing txs hash with
    | none => simp
    | some parent =>
      have named : ∀ found, (lastStored txs parent.getHash).bind (findNode hash) = some found →
          found.getHash = hash := by
        intro found hfound
        obtain ⟨tx, -, hnode⟩ := Option.bind_eq_some_iff.mp hfound
        exact findNode_getHash hnode
      have found_iff : (∃ found, (lastStored txs parent.getHash).bind (findNode hash) =
          some found) ↔ ∃ tx ∈ lastStored txs parent.getHash, HasNode hash tx := by
        simp only [Option.bind_eq_some_iff, ← findNode_isSome_iff, Option.mem_def]
        constructor
        · rintro ⟨found, tx, htx, hfound⟩
          exact ⟨tx, htx, found, hfound⟩
        · rintro ⟨tx, htx, found, hfound⟩
          exact ⟨found, tx, htx, hfound⟩
      simp only [Option.bind_some, Option.isSome_some, true_iff, Option.mem_def,
        Option.some.injEq, forall_eq']
      rw [found_iff]
      exact and_iff_left named

end Sequences

end Stores

/-! ## A root, and a node of a bulk that was copied -/

namespace Sample

/-- The shared bulk as a unit transaction: it has the same data, signature and hash. -/
def copiedBulk : Transaction := .unitTransaction ⟨sharedBulk.data, sharedBulk.getSignature⟩

def sharedNodeHash : Hash := (nodeOf (emptyRoot 1 (keypair 1)) 2 (keypair 2).publicKey).getHash

/-- The database has the root of a stored bulk and gives nothing for it. The same happens to
a node once the bulk is stored again as a unit. -/
theorem stored_root_is_not_given :
    sharedBulk.verify = .ok true ∧ copiedBulk.verify = .ok true ∧
      ((Db.storeAll [sharedBulk]).containsTransaction (emptyRoot 1 (keypair 1)).getHash = true ∧
        (Db.storeAll [sharedBulk]).loadTransaction (emptyRoot 1 (keypair 1)).getHash = none ∧
        ¬ (Db.storeAll [sharedBulk]).Faithful (emptyRoot 1 (keypair 1)).getHash) ∧
      ¬ (Db.storeAll [sharedBulk, copiedBulk]).Faithful sharedNodeHash := by
  have root : (Db.storeAll [sharedBulk]).loadTransaction (emptyRoot 1 (keypair 1)).getHash =
      none := Option.isNone_iff_eq_none.mp (by decide +kernel)
  have node : (Db.storeAll [sharedBulk, copiedBulk]).loadTransaction sharedNodeHash = none :=
    Option.isNone_iff_eq_none.mp (by decide +kernel)
  refine ⟨by decide +kernel, by decide +kernel, ⟨by decide +kernel, root, ?_⟩, ?_⟩
  · exact Db.not_faithful (by decide +kernel) root
  · exact Db.not_faithful (by decide +kernel) node

end Sample

end Trinci
