import Trinci.EventService
import Trinci.LiveLedger
import Trinci.PlayersReaders

/-!
# Requests of peers

Peers send the requests that the services of a node send to each other, and whatever can be
decoded is passed on to the database service. Some requests it does not survive: the list of
hashes of a block is expected to be there, but an empty one is not told from none, and the
last block is also found at a height at which nothing is listed.
-/

namespace Trinci

open StepMachines StatefulSteps

variable {W : Type}

/-- The requests between the services of a node. `Subscribe` is left out: it is not serialized,
and the event service alone takes it. -/
inductive NodeReq
  | disconnect (subscriberId : UInt64)
  | executeGenesisBlock (block : Block) (txs : List Transaction) (networkName : String)
  | getAccount (accountId : String)
  | getAccountData (accountId key : String)
  | getConfirmations (blockHeight : UInt64) (blockHash : Hash) (askForBlock : Bool)
  | getFullBlock (blockHeight : UInt64) (trustedPeers : List String)
  | getHeight
  | getLastBlockInfo (neighbor : String)
  | getMiningAccount
  | getNeighbors
  | getP2pAddresses
  | getPlayers
  | getRx (txHash : Hash)
  | getStatus
  | getTxs (missingTxHashes : List Hash)
  | hasBlock (height : UInt64)
  | hasTx (txHash : Hash)
  | hasTxs (txsHashes : List Hash)
  | unsubscribe (eventTopics : EventTopics) (subscriberId : UInt64)

inductive NodeRes
  | disconnect (success : Bool)
  | executeGenesisBlock
  | getAccount (account : Option Account)
  | getAccountData (data : Option Bytes)
  | getConfirmations (confirmations : Option (List Confirmation))
      (block : Option (Block × List Hash))
  | getFullBlock (fullBlock : Option (FullBlock Block Confirmation Transaction))
      (accountId : String)
  | getHeight (height : UInt64)
  | getLastBlockInfo (info : BlockInfo)
  | getMiningAccount (accountId : Option String)
  | getNeighbors (ids : List String)
  | getP2pAddresses (addresses : List String)
  | getPlayers (players : Option (List Player))
  | getRx (rx : Option Receipt)
  | getStatus (height : UInt64) (dbHash : Hash)
  | getTxs (txs : List Transaction)
  | hasBlock (answer : Bool)
  | hasTx (answer : Bool)
  | hasTxs (mask : List Bool)
  | unsubscribe (success : Bool)

def miningCoinKey : String := "stake_coin"

/-- The encodings of what the database service reads and answers. -/
class DbCodec where
  keys : List String → Bytes
  miningAccount : Bytes → Option String

inductive DbServicePanic
  | confirmations (p : DbPanic)
  | players (p : ExecutionPanic)

namespace DbService

/-- What the database and the pool know while a request is handled. Nothing is read from a
database whose lock is poisoned. -/
structure Sources where
  nodeId : String
  db : Option Db
  /-- The answer of the pool to `GetTxs`. -/
  unconfirmed : List Hash → Reply (List (Transaction × Nat × Option (List Hash)))

variable [Primitives] [NodeCodec] [Serialize BlockData] [DbCodec]

/-- The transactions that are stored, and those of the others that the pool has. -/
def getTxs (db : Db)
    (unconfirmed : List Hash → Reply (List (Transaction × Nat × Option (List Hash))))
    (missingTxHashes : List Hash) : List Transaction :=
  let txsCollector := missingTxHashes.filterMap db.loadTransaction
  let remaining := missingTxHashes.filter fun hash => (db.loadTransaction hash).isNone
  if txsCollector.length < missingTxHashes.length then
    match unconfirmed remaining with
    | .answer missingTxs => txsCollector ++ missingTxs.map Prod.fst
    | _ => txsCollector
  else txsCollector

/-- What is sent back, if anything. -/
def handleRequests (s : Sources) (req : NodeReq) : Except DbServicePanic (Option NodeRes) :=
  match s.db with
  | none => .ok none
  | some db =>
    match req with
    | .getAccount accountId => .ok (some (.getAccount (db.accounts.loadAccount accountId)))
    | .getAccountData accountId key =>
      .ok (some (.getAccountData (if key = "*" then
        some (DbCodec.keys (db.accounts.loadAccountKeys accountId))
      else db.accounts.loadAccountData accountId key)))
    | .getConfirmations blockHeight blockHash askForBlock =>
      match getConfirmations db blockHeight blockHash askForBlock with
      | .error p => .error (.confirmations p)
      | .ok (confirmations, block) => .ok (some (.getConfirmations confirmations block))
    | .getFullBlock blockHeight _ =>
      .ok (some (.getFullBlock (db.loadFullBlock blockHeight) s.nodeId))
    | .getHeight => .ok (some (.getHeight ((db.lastBlock?.map fun b => b.data.height).getD 0)))
    | .getLastBlockInfo _ =>
      .ok (some (.getLastBlockInfo (match db.lastBlock? with
        | some block => ⟨block.data.height, block.getHash⟩
        | none => ⟨0, Hash.default⟩)))
    | .getMiningAccount =>
      .ok (some (.getMiningAccount
        ((db.accounts.loadAccountData serviceAccountId miningCoinKey).bind DbCodec.miningAccount)))
    | .getPlayers =>
      match getPlayers db.accounts with
      | .error p => .error (.players p)
      | .ok players => .ok (some (.getPlayers (some players)))
    | .getRx txHash => .ok (some (.getRx (db.loadReceipt txHash)))
    | .getStatus =>
      .ok (some (match db.lastBlock? with
        | some block => .getStatus block.data.height block.data.stateHash
        | none => .getStatus 0 Hash.default))
    | .getTxs missingTxHashes => .ok (some (.getTxs (getTxs db s.unconfirmed missingTxHashes)))
    | .hasBlock height => .ok (some (.hasBlock (db.loadBlock height).isSome))
    | .hasTx txHash => .ok (some (.hasTx (db.containsTransaction txHash)))
    | .hasTxs txsHashes => .ok (some (.hasTxs (txsHashes.map db.containsTransaction)))
    | _ => .ok none

end DbService

namespace DbService

section Ends

variable [Primitives] [NodeCodec] [Serialize BlockData] [DbCodec]

/-- The requests that the database service does not survive. -/
inductive Ends (c : Chronicle) (db : Db) : NodeReq → Prop
  | confirmations {blockHeight : UInt64} {blockHash : Hash} {askForBlock : Bool} {block : Block}
      (loaded : db.loadBlock blockHeight = some block)
      (sent : block.getHash = blockHash → askForBlock = true)
      (noTxs : ∀ fullBlock, c.blocks[blockHeight.toNat]? = some fullBlock → fullBlock.txs = []) :
      Ends c db (.getConfirmations blockHeight blockHash askForBlock)
  | players {p : ExecutionPanic} (unreadable : getPlayers db.accounts = .error p) :
      Ends c db .getPlayers

omit [NodeCodec] [DbCodec] in
/-- A peer that has the block and does not ask for it gets the confirmations only. -/
theorem getConfirmations_of_loaded {db : Db} {blockHeight : UInt64} {block : Block}
    (loaded : db.loadBlock blockHeight = some block) (blockHash : Hash) (askForBlock : Bool) :
    getConfirmations db blockHeight blockHash askForBlock =
      if block.getHash = blockHash ∧ askForBlock = false then
        .ok (db.loadConfirmations blockHeight, none)
      else (blockToPeer db block blockHeight).map fun sent =>
        (db.loadConfirmations blockHeight, sent) := by
  simp only [getConfirmations, loaded]
  by_cases same : block.getHash = blockHash
  · rw [if_pos same]
    cases askForBlock with
    | false => exact (if_pos ⟨same, rfl⟩).symm
    | true =>
      rw [if_neg (c := _ ∧ _) fun both => absurd both.2 (by decide)]
      cases blockToPeer db block blockHeight <;> rfl
  · rw [if_neg same, if_neg (c := _ ∧ _) fun both => same both.1]
    cases blockToPeer db block blockHeight <;> rfl

omit [NodeCodec] [DbCodec] in
theorem getConfirmations_error_iff {db : Db} {blockHeight : UInt64} {blockHash : Hash}
    {askForBlock : Bool} :
    (∃ p, getConfirmations db blockHeight blockHash askForBlock = .error p) ↔
      (∃ block, db.loadBlock blockHeight = some block ∧
        (block.getHash = blockHash → askForBlock = true)) ∧
      db.loadTransactionsHashes blockHeight = none := by
  cases loaded : db.loadBlock blockHeight with
  | none => simp [getConfirmations, loaded]
  | some block =>
    rw [getConfirmations_of_loaded loaded]
    by_cases settled : block.getHash = blockHash ∧ askForBlock = false
    · rw [if_pos settled]
      simp [settled]
    · have sent : block.getHash = blockHash → askForBlock = true := fun same => by
        cases ask : askForBlock with
        | false => exact absurd ⟨same, ask⟩ settled
        | true => rfl
      rw [if_neg settled, blockToPeer]
      cases db.loadTransactionsHashes blockHeight with
      | none => exact ⟨fun _ => ⟨⟨block, rfl, sent⟩, rfl⟩, fun _ => ⟨_, rfl⟩⟩
      | some hashes => simp [Except.map]

end Ends

end DbService

namespace LiveNode

section Serving

variable [Primitives] [NodeCodec] [Serialize BlockData] [DbCodec]
  {n : LiveNode W} {c : Chronicle} {s : DbService.Sources}

omit [Serialize BlockData] [DbCodec] in
/-- No hashes are found at a height without a block, and at that of an empty one. -/
theorem Recorded.loadTransactionsHashes_eq_none_iff (h : Recorded c n) (blockHeight : UInt64) :
    n.wasm.db.loadTransactionsHashes blockHeight = none ↔
      ∀ fullBlock, c.blocks[blockHeight.toNat]? = some fullBlock → fullBlock.txs = [] := by
  rw [Db.loadTransactionsHashes]
  cases hblock : c.blocks[blockHeight.toNat]? with
  | none =>
    have above := List.getElem?_eq_none_iff.mp hblock
    rw [h.unlisted blockHeight (h.length ▸ above)]
    simp
  | some fullBlock =>
    have listed := h.listed _ _ hblock
    rw [UInt64.ofNat_toNat] at listed
    rw [listed]
    simp

/-- The requests that the database service does not survive, by the blocks of the
chronicle. -/
theorem Recorded.ends_iff (h : Recorded c n) (hdb : s.db = some n.wasm.db) {req : NodeReq} :
    (∃ p, DbService.handleRequests s req = .error p) ↔ DbService.Ends c n.wasm.db req := by
  cases req with
  | getConfirmations blockHeight blockHash askForBlock =>
    have fails : (∃ p, DbService.handleRequests s
        (.getConfirmations blockHeight blockHash askForBlock) = .error p) ↔
        ∃ p, DbService.getConfirmations n.wasm.db blockHeight blockHash askForBlock = .error p := by
      simp only [DbService.handleRequests, hdb]
      cases DbService.getConfirmations n.wasm.db blockHeight blockHash askForBlock with
      | error p => exact ⟨fun _ => ⟨p, rfl⟩, fun _ => ⟨_, rfl⟩⟩
      | ok found => simp
    rw [fails, DbService.getConfirmations_error_iff, h.loadTransactionsHashes_eq_none_iff]
    constructor
    · rintro ⟨⟨block, loaded, sent⟩, noTxs⟩
      exact .confirmations loaded sent noTxs
    · rintro (⟨loaded, sent, noTxs⟩ | _)
      exact ⟨⟨_, loaded, sent⟩, noTxs⟩
  | getPlayers =>
    simp only [DbService.handleRequests, hdb]
    cases players : getPlayers n.wasm.db.accounts with
    | error p => exact ⟨fun _ => .players players, fun _ => ⟨_, rfl⟩⟩
    | ok list =>
      refine ⟨fun fails => ?_, fun ends => ?_⟩
      · obtain ⟨p, hp⟩ := fails
        cases hp
      · cases ends with
        | players unreadable => rw [players] at unreadable; cases unreadable
  | _ =>
    simp only [DbService.handleRequests, hdb]
    exact ⟨fun fails => (by obtain ⟨p, hp⟩ := fails; cases hp), fun ends => (by cases ends)⟩

variable [Serialize ConfirmationData] [Merkle] [Pcg32] [Wm W] {env : Env}
  {keypair : TrinciKeyPair} {nodeId : String} {wm : W} {accounts : Accounts}
  {bootstrapTxs : List Transaction} {networkName : String} {start : LiveNode W}
  {trace : List (LiveEvent W)}

/-- In every state of a node: for a request for confirmations the database service is ended
exactly where it has to send a block without transactions, or one at a height that is not its
own; and such a request there always is. -/
theorem run_ends_iff (hashed : HeightsHashed)
    (hstart : bootstrap env keypair nodeId wm accounts bootstrapTxs networkName = .ok start)
    (run : Run (Computes handle) start trace n) (hdb : s.db = some n.wasm.db) :
    (∀ req, (∃ p, DbService.handleRequests s req = .error p) ↔
        DbService.Ends (chronicle start bootstrapTxs trace) n.wasm.db req) ∧
      ∀ blockHash, ∃ p, DbService.handleRequests s
        (.getConfirmations (UInt64.ofNat (2 ^ 64 - 1)) blockHash true) = .error p := by
  obtain ⟨tip, ordered, -, recorded⟩ := run_recorded hashed hstart run
  refine ⟨fun req => recorded.ends_iff hdb, fun blockHash => ?_⟩
  obtain ⟨last, hlast⟩ := ordered.exists_last
  have loaded : n.wasm.db.loadBlock (UInt64.ofNat (2 ^ 64 - 1)) = some last := by
    rw [Db.loadBlock, if_pos rfl, hlast]
  -- no chain is that long
  have above : (chronicle start bootstrapTxs trace).blocks[(UInt64.ofNat (2 ^ 64 - 1)).toNat]? =
      none := by
    have room := ordered.room
    rw [List.getElem?_eq_none_iff, recorded.length]
    simp
    omega
  refine (recorded.ends_iff hdb).mpr (.confirmations loaded (fun _ => rfl) fun fullBlock h => ?_)
  rw [above] at h
  cases h

end Serving

end LiveNode

/-! ## Requests for an empty block and for the last one -/

namespace Sample.Duo

open LiveNode

scoped instance dbCodec : DbCodec where
  keys := fun keys => keys.flatMap fun key => key.toUTF8.toList
  miningAccount := fun _ => none

/-- Bob's database service, with an unanswering pool. -/
def bobServes (db : Db) : DbService.Sources := ⟨"bob", some db, fun _ => .failed⟩

/-- Bob has consolidated an empty block. A peer that wants it ends his database service, one
that has it does not, and one that wants the last block does. -/
theorem empty_block_request_ends : ∃ node trace n block, start 2 = .ok node ∧
    Run (Computes handle) node trace n ∧ trace.map Event.input = consolidatesEmpty ∧
    n.wasm.db.loadBlock 1 = some block ∧
    (∀ blockHash, ∃ p, DbService.handleRequests (bobServes n.wasm.db)
      (.getConfirmations 1 blockHash true) = .error p) ∧
    (¬ ∃ p, DbService.handleRequests (bobServes n.wasm.db)
      (.getConfirmations 1 block.getHash false) = .error p) ∧
    ∃ p, DbService.handleRequests (bobServes n.wasm.db)
      (.getConfirmations (UInt64.ofNat (2 ^ 64 - 1)) Hash.default true) = .error p := by
  obtain ⟨node, trace, n, hstart, run, check, inputs⟩ := exists_run_from 2 consolidatesEmpty
    (fun _ n => (n.wasm.db.loadBlock 1).isSome && (n.wasm.db.loadTransactionsHashes 1).isNone)
    (by decide +kernel)
  rw [Bool.and_eq_true, Option.isSome_iff_exists, Option.isNone_iff_eq_none] at check
  obtain ⟨⟨block, loaded⟩, unlisted⟩ := check
  obtain ⟨ends, last⟩ := run_ends_iff (s := bobServes n.wasm.db) heightsHashed hstart run rfl
  refine ⟨node, trace, n, block, hstart, run, inputs, loaded, fun blockHash => ?_, ?_,
    last Hash.default⟩
  · obtain ⟨-, -, -, recorded⟩ := run_recorded heightsHashed hstart run
    have noTxs := (recorded.loadTransactionsHashes_eq_none_iff 1).mp unlisted
    exact (ends _).mpr (.confirmations loaded (fun _ => rfl) noTxs)
  · rw [ends]
    rintro (⟨again, sent, -⟩ | _)
    obtain rfl := Option.some.inj (loaded.symm.trans again)
    exact Bool.false_ne_true (sent rfl)

end Sample.Duo

end Trinci
