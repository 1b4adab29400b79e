import Mathlib.Data.List.AList
import Mathlib.Data.List.Sort
import Mathlib.Data.UInt
import Trinci.NodeModels

/-!
# The node's database and its forks

The indexes of the database are association lists. A fork is a working copy with
the checkpoint of its last `flush`. Merging makes the working copy the database:
a fork is only ever merged into the database it was created from. The Merkle
roots of the indexes come from the database crate and are a class here.
-/

namespace Trinci

def serviceAccountId : String := "TRINCI"

def validatorsKey : String := "blockchain:validators"

def settingsKey : String := "blockchain:settings"

def slashedKey : String := "blockchain:slashed_player"

class Deserialize (α : Type) where
  rmpDeserialize : Bytes → Option α

export Deserialize (rmpDeserialize)

structure Account where
  id : String
  assets : AList fun _ : String => Bytes
  contract : Option Hash
  dataHash : Option Hash

namespace Account

def new (id : String) (contract : Option Hash) : Account where
  id := id
  assets := ∅
  contract := contract
  dataHash := none

def loadAsset (account : Account) (asset : String) : Bytes :=
  (account.assets.lookup asset).getD []

def storeAsset (account : Account) (asset : String) (value : Bytes) : Account :=
  { account with assets := account.assets.insert asset value }

def removeAsset (account : Account) (asset : String) : Account :=
  { account with assets := account.assets.erase asset }

end Account

/-- The part of the database that contracts read and write. -/
structure Accounts where
  accounts : AList fun _ : String => Account
  data : AList fun _ : String × String => Bytes

/-- Roots of the Merkle indexes. -/
class Merkle where
  accountsRoot : (AList fun _ : String => Account) → Hash
  dataRoot : List (String × Bytes) → Hash
  listRoot : List Hash → Hash

namespace Accounts

def loadAccount (s : Accounts) (id : String) : Option Account := s.accounts.lookup id

def storeAccount (s : Accounts) (account : Account) : Accounts :=
  { s with accounts := s.accounts.insert account.id account }

/-- The data of an account, by ascending keys. -/
def dataOf (s : Accounts) (id : String) : List (String × Bytes) :=
  ((s.data.entries.filter fun entry => entry.1.1 == id).map
    fun entry => (entry.1.2, entry.2)).insertionSort fun a b => a.1 ≤ b.1

def loadAccountKeys (s : Accounts) (id : String) : List String := (s.dataOf id).map Prod.fst

def loadAccountData (s : Accounts) (id key : String) : Option Bytes := s.data.lookup (id, key)

def storeAccountData (s : Accounts) (id key : String) (data : Bytes) : Accounts :=
  { s with data := s.data.insert (id, key) data }

def removeAccountData (s : Accounts) (id key : String) : Accounts :=
  { s with data := s.data.erase (id, key) }

/-- `state_hash` of the whole map, or of the data of one account. -/
def stateHash [Merkle] (s : Accounts) (id : String) : Hash :=
  if id.isEmpty then Merkle.accountsRoot s.accounts
  else Merkle.dataRoot (s.dataOf id)

end Accounts

structure Db where
  accounts : Accounts
  transactions : AList fun _ : Hash => Transaction
  attachments : AList fun _ : Hash => Hash
  receipts : AList fun _ : Hash => Receipt
  blocks : List Block
  confirmations : List (List Confirmation)
  transactionsHashes : AList fun _ : UInt64 => List Hash
  receiptsHashes : AList fun _ : UInt64 => List Hash
  configuration : AList fun _ : String => Bytes

namespace Db

def empty : Db where
  accounts := ⟨∅, ∅⟩
  transactions := ∅
  attachments := ∅
  receipts := ∅
  blocks := []
  confirmations := []
  transactionsHashes := ∅
  receiptsHashes := ∅
  configuration := ∅

def containsAttachment (db : Db) (hash : Hash) : Bool := hash ∈ db.attachments

def containsTransaction (db : Db) (hash : Hash) : Bool :=
  hash ∈ db.transactions || db.containsAttachment hash

def loadBlock (db : Db) (height : UInt64) : Option Block :=
  if height = UInt64.ofNat (2 ^ 64 - 1) then db.blocks.getLast? else db.blocks[height.toNat]?

section Transactions

variable [Primitives] [Serialize TransactionData]

/-- The root and the nodes of a bulk, by the hash of their data. -/
def bulkHashes (data : TransactionDataBulkV1) : List Hash :=
  data.txs.root.data.getHash ::
    (data.txs.nodes.getD []).map fun node => node.data.getHash

/-- `retrieve_attachments_from_tx` -/
def retrieveAttachmentsFromTx : Transaction → Option (List Hash)
  | .bulkTransaction ⟨.bulkV1 data, _⟩ => some (bulkHashes data)
  | _ => none

def storeTransaction (db : Db) (hash : Hash) (tx : Transaction) : Db :=
  let attachments := match tx with
    | .bulkTransaction ⟨.bulkV1 data, _⟩ =>
      (bulkHashes data).foldl (fun map attachment => map.insert attachment hash) db.attachments
    | _ => db.attachments
  { db with
    attachments := attachments
    transactions := db.transactions.insert hash tx }

@[simp]
theorem storeTransaction_transactions (db : Db) (hash : Hash) (tx : Transaction) :
    (db.storeTransaction hash tx).transactions = db.transactions.insert hash tx := rfl

omit [Primitives] [Serialize TransactionData] in
theorem mem_foldl_insert (hashes : List Hash) (hash : Hash)
    (map : AList fun _ : Hash => Hash) {a : Hash} :
    a ∈ hashes.foldl (fun map attachment => map.insert attachment hash) map ↔
      a ∈ map ∨ a ∈ hashes := by
  induction hashes generalizing map with
  | nil => simp
  | cons b hashes ih =>
    rw [List.foldl_cons, ih, AList.mem_insert, List.mem_cons]
    constructor
    · rintro ((h | h) | h)
      · exact .inr (.inl h)
      · exact .inl h
      · exact .inr (.inr h)
    · rintro (h | h | h)
      · exact .inl (.inr h)
      · exact .inl (.inl h)
      · exact .inr h

/-- A stored transaction adds its attachments and no other. -/
theorem mem_storeTransaction_attachments {db : Db} {hash a : Hash} {tx : Transaction} :
    a ∈ (db.storeTransaction hash tx).attachments ↔
      a ∈ db.attachments ∨ a ∈ (retrieveAttachmentsFromTx tx).getD [] := by
  unfold storeTransaction retrieveAttachmentsFromTx
  split
  · exact mem_foldl_insert _ _ _
  · simp

def loadAttachment (db : Db) (hash : Hash) : Option Hash := db.attachments.lookup hash

/-- The node of a bulk comes back as a unit transaction. -/
def loadTransaction (db : Db) (hash : Hash) : Option Transaction :=
  match db.transactions.lookup hash with
  | some tx => some tx
  | none => do
    let parentTx ← db.loadAttachment hash
    match ← db.transactions.lookup parentTx with
    | .bulkTransaction ⟨.bulkV1 bulk, _⟩ => do
      let nodes ← bulk.txs.nodes
      let node ← nodes.find? fun node => node.data.getHash = hash
      return .unitTransaction node
    | _ => none

/-- For a root or a node of a bulk it is the receipt of the bulk. -/
def loadReceipt (db : Db) (hash : Hash) : Option Receipt :=
  match db.receipts.lookup hash with
  | some receipt => some receipt
  | none => do
    let parentTx ← db.loadAttachment hash
    db.receipts.lookup parentTx

def loadConfirmations (db : Db) (height : UInt64) : Option (List Confirmation) :=
  if height = UInt64.ofNat (2 ^ 64 - 1) then db.confirmations.getLast?
  else db.confirmations[height.toNat]?

/-- The hashes a block lists; an empty list is not told from a missing one. -/
def loadTransactionsHashes (db : Db) (height : UInt64) : Option (List Hash) :=
  let list := (db.transactionsHashes.lookup height).getD []
  if list.isEmpty then none else some list

def loadFullBlock (db : Db) (height : UInt64) : Option (FullBlock Block Confirmation Transaction) := do
  let block ← db.loadBlock height
  let confirmations ← db.loadConfirmations height
  let txsHashes ← db.loadTransactionsHashes block.data.height
  let txs := txsHashes.filterMap db.loadTransaction
  if txs.length ≠ txsHashes.length then none
  else return ⟨block, confirmations, txs⟩

end Transactions

def storeReceipt (db : Db) (hash : Hash) (receipt : Receipt) : Db :=
  { db with receipts := db.receipts.insert hash receipt }

def storeBlock (db : Db) (block : Block) (confirmations : List Confirmation) : Db :=
  { db with
    blocks := db.blocks ++ [block]
    confirmations := db.confirmations ++ [confirmations] }

def storeTransactionsHashes [Merkle] (db : Db) (height : UInt64) (hashes : List Hash) :
    Db × Hash :=
  let list := (db.transactionsHashes.lookup height).getD [] ++ hashes
  ({ db with transactionsHashes := db.transactionsHashes.insert height list },
    Merkle.listRoot list)

def storeReceiptsHashes [Merkle] (db : Db) (height : UInt64) (hashes : List Hash) :
    Db × Hash :=
  let list := (db.receiptsHashes.lookup height).getD [] ++ hashes
  ({ db with receiptsHashes := db.receiptsHashes.insert height list }, Merkle.listRoot list)

def storeConfiguration (db : Db) (id : String) (config : Bytes) : Db :=
  { db with configuration := db.configuration.insert id config }

end Db

/-- A writable copy of the database. -/
structure DbFork where
  working : Db
  saved : Db

namespace DbFork

def flush (fork : DbFork) : DbFork := { fork with saved := fork.working }

def rollback (fork : DbFork) : DbFork := { fork with working := fork.saved }

def modify (fork : DbFork) (f : Db → Db) : DbFork := { fork with working := f fork.working }

def accounts (fork : DbFork) : Accounts := fork.working.accounts

def setAccounts (fork : DbFork) (accounts : Accounts) : DbFork :=
  fork.modify fun db => { db with accounts := accounts }

end DbFork

namespace Db

def createFork (db : Db) : DbFork := ⟨db, db⟩

def mergeFork (_ : Db) (fork : DbFork) : Db := fork.working

end Db

end Trinci
