import Trinci.StatefulSteps
import Trinci.StepMachines
import Trinci.WasmMachine

/-!
# The execution of blocks

One function for each method of `WasmService` that executes, over a state that
holds the machine, the seed of the drand service and the fork. A failed `expect`
or an `unreachable!` stops the service; an error returned with `?` stops the
block. The state also keeps what was run and under whose name: nothing reads it
but the statements about executions.
-/

namespace Trinci

open StatefulSteps

inductive ExecutionPanic
  | key (panic : KeyPanic)
  | accountId
  | transaction (panic : TransactionPanic)
  | machine (panic : MachinePanic)
  | errorKind
  | missingFork
  | missingSettings
  | missingPlayer

inductive NodeError
  | crypto (e : CryptoError)
  | blockAlreadyInDB
  | wasm (e : WasmError)

inductive Stop
  | panic (p : ExecutionPanic)
  | failed (e : NodeError)

/-- The kinds of what is run under a caller. -/
inductive Part
  | unit
  | root
  | node
  deriving DecidableEq

/-- Something that was run: its signed data, the signature it came with and the key
whose account it ran for. The data of a bulk root is the data of the bulk, which is
what the bulk's signature covers. -/
structure Ran where
  part : Part
  caller : TrinciPublicKey
  data : TransactionData
  signature : Bytes

structure Execution (W : Type) where
  wm : W
  drand : SeedSource
  fork : DbFork
  /-- The transactions executed so far, by hash. -/
  executed : List Hash
  /-- Everything run so far. -/
  ran : List Ran

abbrev Exec (W : Type) := Stateful (Execution W) Stop

/-- What the service is configured with. -/
structure WasmConfig where
  nodeId : String
  networkName : String
  burningFuelMethod : String

structure BurnFuelReturns where
  success : Bool
  units : UInt64

structure BurnFuelRequest where
  sender : String
  units : UInt64

structure BulkResult where
  success : Bool
  result : Bytes
  burntWmFuel : UInt64

structure BurnFuelArgs where
  account : String
  fuelToBurn : UInt64
  fuelLimit : UInt64

structure HandleTransactionReturns where
  burnFuelArgs : BurnFuelArgs
  receipt : Receipt

/-- Both ways the database holds a player. -/
inductive ValidatorDbValue
  | player (player : Player)
  | bool (value : Bool)

/-- The settings, with the fields that are not read here as one. -/
structure BlockchainSettings where
  burningFuelMethod : String
  networkName : Option String
  others : Bytes

/-- The encodings of the records that receipts and calls carry. -/
class NodeCodec where
  transactionData : TransactionData → Bytes
  transaction : Transaction → Bytes
  receipt : Receipt → Bytes
  bulkResults : List (String × BulkResult) → Bytes
  slashed : String × Bool → Bytes
  burnFuelRequest : BurnFuelRequest → Bytes
  burnFuelReturns : Bytes → Option BurnFuelReturns
  units : Bytes → Option UInt64
  playersIds : Bytes → Option (Option (List String))
  validator : Bytes → Option ValidatorDbValue
  settings : Bytes → Option BlockchainSettings
  settingsBytes : BlockchainSettings → Bytes

section Codecs

variable [NodeCodec]

instance : Serialize TransactionData := ⟨NodeCodec.transactionData⟩

instance : Serialize Transaction := ⟨NodeCodec.transaction⟩

instance : Serialize Receipt := ⟨NodeCodec.receipt⟩

instance : Serialize (List (String × BulkResult)) := ⟨NodeCodec.bulkResults⟩

instance : Serialize (String × Bool) := ⟨NodeCodec.slashed⟩

instance : Serialize BurnFuelRequest := ⟨NodeCodec.burnFuelRequest⟩

instance : Deserialize BurnFuelReturns := ⟨NodeCodec.burnFuelReturns⟩

instance : Deserialize UInt64 := ⟨NodeCodec.units⟩

instance : Deserialize (Option (List String)) := ⟨NodeCodec.playersIds⟩

instance : Deserialize ValidatorDbValue := ⟨NodeCodec.validator⟩

instance : Deserialize BlockchainSettings := ⟨NodeCodec.settings⟩

instance : Serialize BlockchainSettings := ⟨NodeCodec.settingsBytes⟩

end Codecs

def hexDigit (n : UInt8) : Char := "0123456789abcdef".toList.getD n.toNat '0'

def hexEncode (bytes : Bytes) : String :=
  String.ofList (bytes.flatMap fun byte => [hexDigit (byte / 16), hexDigit (byte % 16)])

variable {W : Type}

namespace Exec

def panic {α : Type} (p : ExecutionPanic) : Exec W α := throw (.panic p)

def ofTransaction {α : Type} : Except TransactionPanic α → Exec W α
  | .ok a => pure a
  | .error p => panic (.transaction p)

def modifyFork (f : DbFork → DbFork) : Exec W PUnit :=
  modify fun s => { s with fork := f s.fork }

def record (part : Ran) : Exec W PUnit := modify fun s => { s with ran := s.ran ++ [part] }

/-- `to_account_id()?` -/
def toAccountId [Primitives] (key : TrinciPublicKey) : Exec W String :=
  match key.toAccountId with
  | .error p => panic (.key p)
  | .ok (.error e) => throw (.failed (.crypto e))
  | .ok (.ok id) => pure id

/-- `to_account_id().expect(..)` -/
def expectAccountId [Primitives] (key : TrinciPublicKey) : Exec W String :=
  match key.toAccountId with
  | .error p => panic (.key p)
  | .ok (.error _) => panic .accountId
  | .ok (.ok id) => pure id

section Machine

variable [Wm W]

def world (s : Execution W) : World W := ⟨s.wm, s.drand, s.fork.accounts⟩

def setWorld (s : Execution W) (w : World W) : Execution W :=
  { s with
    wm := w.wm
    drand := w.drand
    fork := s.fork.setAccounts w.accounts }

/-- What the machine leaves and returns, unless it panics. -/
def ofMachine {α : Type} (run : World W → Except MachinePanic (World W × α)) : Exec W α := do
  let s ← get
  match run (world s) with
  | .error p => panic (.machine p)
  | .ok (w, out) => do
    modify fun s => setWorld s w
    return out

section

omit [Wm W]

variable {α : Type} {run : World W → Except MachinePanic (World W × α)} {s : Execution W}

theorem ofMachine_ok {w : World W} {a : α} (h : run (world s) = .ok (w, a)) :
    after (ofMachine run) s = setWorld s w ∧ result (ofMachine run) s = .ok a := by
  rw [ofMachine, (bind_ok (result_get s)).1, (bind_ok (result_get s)).2]
  simp only [after_get, h]
  exact ⟨rfl, rfl⟩

theorem ofMachine_error {p : MachinePanic} (h : run (world s) = .error p) :
    after (ofMachine run) s = s ∧ result (ofMachine run) s = .error (.panic (.machine p)) := by
  rw [ofMachine, (bind_ok (result_get s)).1, (bind_ok (result_get s)).2]
  simp only [after_get, h]
  exact ⟨rfl, rfl⟩

end

def call (args : CallArgs) :
    Exec W (List SmartContractEvent × UInt64 × Except WasmError Bytes) :=
  ofMachine (Wm.call args)

def appHashCheck (contract : Option Hash) (ctxArgs : CtxArgs) (blockTimestamp : UInt64) :
    Exec W (Except WasmError Hash) :=
  ofMachine (Wm.appHashCheck contract ctxArgs blockTimestamp)

end Machine

/-- The text of an error, which may panic. -/
def ofText {α : Type} : Except MachinePanic α → Exec W α
  | .ok a => pure a
  | .error p => panic (.machine p)

end Exec

open Exec

/-- Events get the hash of what emitted them, and an empty list is left out. -/
def emittedBy (hash : Hash) (events : List SmartContractEvent) : List SmartContractEvent :=
  events.map fun event => { event with eventTx := hash }

def nonEmpty (events : List SmartContractEvent) : Option (List SmartContractEvent) :=
  if events.isEmpty then none else some events

/-- The fuel charged for a part of a bulk, with the flat price of old blocks. -/
def bulkFuel (height burntWmFuel limit : UInt64) (result : Except WasmError Bytes) : UInt64 :=
  let burntWmFuel := min burntWmFuel limit
  if height < activateFuelConsumption ∧ burntWmFuel ≠ 0 then
    match result with
    | .ok _ => 1000
    | .error (.smartContractFault _) => 1000
    | .error _ => 0
  else burntWmFuel

namespace WasmConfig

variable [Primitives] [NodeCodec] [Wm W] (config : WasmConfig)

/-! ## Unit transactions -/

/-- The outcome of a unit's call: success, returned bytes and whether the contract
itself failed. Errors of other kinds show their kind only. -/
def unitOutcome : Except WasmError Bytes → Exec W (Bool × Bytes × Bool)
  | .ok value => pure (true, value, false)
  | .error err => do
    modifyFork DbFork.rollback
    match err with
    | .smartContractFault _ => do
      let msg ← ofText err.message
      return (false, msg, true)
    | .resourceNotFound _ => do
      let msg ← ofText err.message
      return (false, msg, true)
    | _ => do
      let kind ← ofText err.kind?
      match kind with
      | some msg => return (false, msg, false)
      | none => panic .errorKind

def handleUnitTransaction (tx : SignedTransaction) (height : UInt64) (index : UInt32)
    (blockTimestamp : UInt64) : Exec W HandleTransactionReturns :=
  if tx.data.getNetwork ≠ config.networkName ∧ 0 < height then do
    let account ← toAccountId tx.data.getCaller
    return ⟨⟨account, 0, tx.data.getFuelLimit⟩,
      ⟨height, index, 0, false, bytesOf "Unexpected transaction network", none⟩⟩
  else do
    let caller ← toAccountId tx.data.getCaller
    let s ← get
    let wmFuelLimit := calculateWmFuelLimit caller s.fork.accounts height tx.data.getFuelLimit
    let contract ← ofTransaction tx.data.getContract
    record ⟨.unit, tx.data.getCaller, tx.data, tx.signature⟩
    let appHash ← appHashCheck contract ⟨caller, tx.data.getAccount, caller⟩ blockTimestamp
    match appHash with
    | .error e => do
      let msg ← ofText e.message
      return ⟨⟨caller, getFuelBurntForError, tx.data.getFuelLimit⟩,
        ⟨height, index, getFuelBurntForError, false, msg, none⟩⟩
    | .ok appHash => do
      let method ← ofTransaction tx.data.getMethod
      let args ← ofTransaction tx.data.getArgs
      let (events, burntWmFuel, result) ← call
        ⟨0, tx.data.getNetwork, caller, tx.data.getAccount, caller, appHash, method, args,
          wmFuelLimit, blockTimestamp⟩
      let (success, returns, isSmartcontractFault) ← unitOutcome result
      let burntBitbell :=
        if activateFuelConsumption < height then wmFuelToBitbell (min burntWmFuel wmFuelLimit)
        else if success || isSmartcontractFault then 1000
        else 0
      return ⟨⟨caller, burntBitbell, tx.data.getFuelLimit⟩,
        ⟨height, index, burntBitbell, success, returns,
          nonEmpty (emittedBy tx.data.getHash events)⟩⟩

/-! ## Bulk transactions -/

/-- The loop over the nodes of a bulk. A failed node ends it. -/
def handleBulkNodesExecution (height : UInt64) (blockTimestamp : UInt64) :
    List SignedTransaction → (remainingWmFuel : UInt64) →
      Exec W (List SmartContractEvent × List (String × BulkResult))
  | [], _ => pure ([], [])
  | node :: nodes, remainingWmFuel =>
    let name := hexEncode node.data.getHash.asBytes
    if node.data.getNetwork ≠ config.networkName ∧ 0 < height then
      pure ([], [(name, ⟨false, bytesOf "Unexpected transaction network", 0⟩)])
    else do
      let caller ← expectAccountId node.data.getCaller
      let s ← get
      let wmFuelLimit := calculateWmFuelLimit caller s.fork.accounts height
        (min remainingWmFuel node.data.getFuelLimit)
      let contract ← ofTransaction node.data.getContract
      record ⟨.node, node.data.getCaller, node.data, node.signature⟩
      let appHash ← appHashCheck contract ⟨caller, node.data.getAccount, caller⟩ blockTimestamp
      match appHash with
      | .error e => do
        let msg ← ofText e.message
        return ([], [(name, ⟨false, msg, getFuelBurntForError⟩)])
      | .ok appHash => do
        let method ← ofTransaction node.data.getMethod
        let args ← ofTransaction node.data.getArgs
        let (events, burntWmFuel, result) ← call
          ⟨0, node.data.getNetwork, caller, node.data.getAccount, caller, appHash, method, args,
            wmFuelLimit, blockTimestamp⟩
        let burntWmFuel := bulkFuel height burntWmFuel wmFuelLimit result
        match result with
        | .error e => do
          let msg ← ofText e.message
          return ([], [(name, ⟨false, msg, burntWmFuel⟩)])
        | .ok rcpt => do
          let (laterEvents, laterResults) ←
            handleBulkNodesExecution height blockTimestamp nodes (remainingWmFuel - burntWmFuel)
          return (emittedBy node.data.getHash events ++ laterEvents,
            (name, ⟨true, rcpt, burntWmFuel⟩) :: laterResults)

/-- The root of a bulk: its events, the fuel it burnt and its result, or the receipt
of a fault that ends the bulk. -/
def handleBulkRoot (tx : SignedTransaction) (root : TransactionData) (bulkCaller : String)
    (bulkWmFuelLimit height : UInt64) (index : UInt32) (blockTimestamp : UInt64) :
    Exec W (Except Receipt
      (List SmartContractEvent × UInt64 × Except WasmError Bytes)) :=
  match root with
  | .bulkRootV1 txData =>
    if txData.network ≠ config.networkName ∧ 0 < height then
      pure (.error ⟨height, index, 0, false, bytesOf "Unexpected transaction network", none⟩)
    else do
      record ⟨.root, tx.data.getCaller, tx.data, tx.signature⟩
      let appHash ← appHashCheck txData.contract ⟨bulkCaller, root.getAccount, bulkCaller⟩
        blockTimestamp
      match appHash with
      | .error e => do
        let msg ← ofText e.message
        return .error ⟨height, index, getFuelBurntForError, false, msg, none⟩
      | .ok appHash => do
        let out ← call ⟨0, txData.network, bulkCaller, txData.account, bulkCaller, appHash,
          txData.method, txData.args, bulkWmFuelLimit, blockTimestamp⟩
        return .ok out
  | .bulkEmptyRoot _ => pure (.ok ([], 0, .ok [192]))
  | _ =>
    pure (.error ⟨height, index, getFuelBurntForError, false,
      bytesOf "wrong transaction schema", none⟩)

/-- The results of a bulk: its root's, and those of its nodes if the root succeeded. -/
def handleBulkAfterRoot (bulkTxData : TransactionDataBulkV1) (bulkWmFuelLimit height : UInt64)
    (blockTimestamp : UInt64)
    (rooted : Except Receipt (List SmartContractEvent × UInt64 × Except WasmError Bytes)) :
    Exec W (Except Receipt
      (Option (List SmartContractEvent) × List (String × BulkResult))) :=
  let rootHash := bulkTxData.txs.root.data.getHash
  match rooted with
  | .error receipt => pure (.error receipt)
  | .ok (_, burntWmFuel, .error e) =>
    let burntWmFuel := bulkFuel height burntWmFuel bulkWmFuelLimit (.error e)
    do
      let msg ← ofText e.message
      return .ok (none, [(hexEncode rootHash.asBytes, ⟨false, msg, burntWmFuel⟩)])
  | .ok (events, burntWmFuel, .ok rcpt) => do
    let burntWmFuel := bulkFuel height burntWmFuel bulkWmFuelLimit (.ok rcpt)
    let (nodesEvents, nodesResults) ← config.handleBulkNodesExecution height blockTimestamp
      (bulkTxData.txs.nodes.getD []) (bulkWmFuelLimit - burntWmFuel)
    return .ok (nonEmpty (emittedBy rootHash events ++ nodesEvents),
      (hexEncode rootHash.asBytes, ⟨true, rcpt, burntWmFuel⟩) :: nodesResults)

def handleBulkV1 (tx : SignedTransaction) (bulkTxData : TransactionDataBulkV1)
    (bulkCaller : String) (bulkWmFuelLimit height : UInt64) (index : UInt32)
    (blockTimestamp : UInt64) :
    Exec W (Except Receipt
      (Option (List SmartContractEvent) × List (String × BulkResult))) := do
  let rooted ← config.handleBulkRoot tx bulkTxData.txs.root.data bulkCaller bulkWmFuelLimit
    height index blockTimestamp
  config.handleBulkAfterRoot bulkTxData bulkWmFuelLimit height blockTimestamp rooted

/-- Data that is not a bulk is not executed. -/
def handleBulkData (tx : SignedTransaction) (bulkCaller : String)
    (bulkWmFuelLimit height : UInt64) (index : UInt32) (blockTimestamp : UInt64) :
    Exec W (Except Receipt
      (Option (List SmartContractEvent) × List (String × BulkResult))) :=
  match tx.data with
  | .bulkV1 bulkTxData =>
    config.handleBulkV1 tx bulkTxData bulkCaller bulkWmFuelLimit height index blockTimestamp
  | _ => pure (.ok (none, []))

def handleBulkTransaction (tx : SignedTransaction) (height : UInt64) (index : UInt32)
    (blockTimestamp : UInt64) : Exec W HandleTransactionReturns := do
  let bulkCaller ← toAccountId tx.data.getCaller
  let s ← get
  let bulkWmFuelLimit :=
    calculateWmFuelLimit bulkCaller s.fork.accounts height tx.data.getFuelLimit
  let executed ← config.handleBulkData tx bulkCaller bulkWmFuelLimit height index blockTimestamp
  match executed with
  | .error receipt =>
    return ⟨⟨bulkCaller, getFuelBurntForError, tx.data.getFuelLimit⟩, receipt⟩
  | .ok (events, results) => do
    let totalBurntWmFuel := (results.map fun entry => entry.2.burntWmFuel).sum
    let burntBitbell :=
      if activateFuelConsumption < height then wmFuelToBitbell totalBurntWmFuel
      else totalBurntWmFuel
    let success := !results.isEmpty && results.all fun entry => entry.2.success
    modifyFork fun fork => if success then fork else fork.rollback
    return ⟨⟨bulkCaller, burntBitbell, tx.data.getFuelLimit⟩,
      ⟨height, index, burntBitbell, success, rmpSerialize results, events⟩⟩

/-! ## Transactions and blocks -/

def callBurnFuel (burnFuelMethod origin : String) (fuel blockTimestamp : UInt64) :
    Exec W (Except WasmError Bytes) := do
  let s ← get
  match s.fork.accounts.loadAccount serviceAccountId with
  | none => return .error (.accountFault "Service account not found")
  | some account =>
    match account.contract with
    | none => return .error (.accountFault "Service account has no contract")
    | some contract => do
      let (_, _, result) ← call ⟨0, serviceAccountId, serviceAccountId, serviceAccountId,
        serviceAccountId, contract, burnFuelMethod,
        rmpSerialize (BurnFuelRequest.mk origin fuel), maxWmFuel, blockTimestamp⟩
      return result

/-- Whether the fuel was burnt, and the units. -/
def burnOutcome : Except WasmError Bytes → Bool × UInt64
  | .error _ => (false, 0)
  | .ok data =>
    match (rmpDeserialize data : Option BurnFuelReturns) with
    | some returns => (returns.success, returns.units)
    | none => (data.isEmpty, 0)

def handleTransaction (tx : Transaction) (height : UInt64) (index : UInt32)
    (blockTimestamp : UInt64) : Exec W HandleTransactionReturns :=
  match tx with
  | .unitTransaction tx => config.handleUnitTransaction tx height index blockTimestamp
  | .bulkTransaction tx => config.handleBulkTransaction tx height index blockTimestamp

/-- Without a burning method nothing is called. -/
def burnFuel (args : BurnFuelArgs) (blockTimestamp : UInt64) : Exec W (Except WasmError Bytes) :=
  if config.burningFuelMethod.isEmpty then pure (.ok [])
  else callBurnFuel config.burningFuelMethod args.account args.fuelToBurn blockTimestamp

def executeTransaction (tx : Transaction) (height : UInt64) (index : UInt32)
    (blockTimestamp : UInt64) : Exec W Receipt := do
  modifyFork DbFork.flush
  modify fun s => { s with executed := s.executed ++ [tx.getHash] }
  let res ← config.handleTransaction tx height index blockTimestamp
  let burnResult ← config.burnFuel res.burnFuelArgs blockTimestamp
  let (burnOk, burntUnits) := burnOutcome burnResult
  if 0 < height ∧ (!burnOk ∨ res.burnFuelArgs.fuelLimit < res.burnFuelArgs.fuelToBurn) then do
    modifyFork DbFork.rollback
    return ⟨height, index, 0, false, bytesOf "error burning fuel", res.receipt.events⟩
  else return { res.receipt with burnedFuel := burntUnits }

/-- The loop over the transactions of a block, from the given index on. It returns
the hashes of the receipts. -/
def executeBlockTransactions (height blockTimestamp : UInt64) :
    List Transaction → (index : UInt32) → Exec W (List Hash)
  | [], _ => pure []
  | tx :: txs, index => do
    let receipt ← config.executeTransaction tx height index blockTimestamp
    modifyFork fun fork => fork.modify fun db =>
      (db.storeTransaction tx.getHash tx).storeReceipt tx.getHash receipt
    let later ← executeBlockTransactions height blockTimestamp txs (index + 1)
    return receipt.getHash :: later

/-- The slashing note for the service contract, when the expected leader is known. -/
def noteLeader (block : Block) (expectedLeader : Option String) (db : Db) : Db :=
  match expectedLeader with
  | none => db
  | some leader =>
    if leader = block.getBuilderId.getD config.nodeId then
      { db with accounts := db.accounts.removeAccountData serviceAccountId slashedKey }
    else
      { db with accounts :=
          db.accounts.storeAccountData serviceAccountId slashedKey (rmpSerialize (leader, false)) }

end WasmConfig

/-- The three roots of an executed block. -/
structure Roots where
  stateHash : Hash
  txsRoot : Hash
  rxsRoot : Hash
  deriving DecidableEq

namespace WasmConfig

variable [Primitives] [NodeCodec] [Merkle] [Wm W] (config : WasmConfig)

/-- The hash under which a block lists a transaction. -/
def listedHash (height : UInt64) (tx : Transaction) : Hash :=
  if 0 < height then tx.getHash else Hash.primary (rmpSerialize tx)

/-- The execution of a block in a fork of the database, with its roots. -/
def executeInFork (block : Block) (txs : List Transaction)
    (expectedLeader : Option String) : Exec W Roots := do
  modifyFork fun fork => fork.modify (config.noteLeader block expectedLeader)
  let receiptsHashes ←
    config.executeBlockTransactions block.data.height block.data.timestamp txs 0
  let s ← get
  let db := s.fork.working
  let (db', txsRoot) := db.storeTransactionsHashes block.data.height
    (txs.map (listedHash block.data.height))
  let (db'', rxsRoot) := db'.storeReceiptsHashes block.data.height receiptsHashes
  modifyFork fun fork => fork.modify fun _ => db''
  return ⟨db.accounts.stateHash "", txsRoot, rxsRoot⟩

end WasmConfig

/-! ## The service -/

/-- A fork in the collector, with what was run to produce it. -/
structure ExecutedFork where
  fork : DbFork
  executed : List Hash
  ran : List Ran

structure WasmService (W : Type) where
  config : WasmConfig
  db : Db
  forksCollector : AList fun _ : Hash => ExecutedFork
  wm : W
  /-- The seed source of the node's drand service. -/
  drand : SeedSource
  /-- The transactions executed in consolidated blocks, by hash. -/
  executed : List Hash
  /-- Everything run in consolidated blocks. -/
  ran : List Ran

/-- What reaches the service, and what others ask of the drand service. -/
inductive WasmInput
  | executeBlock (block : Block) (round : UInt8) (txs : List Transaction)
      (expectedLeader : Option String)
  | startBlockConsolidation (block : Block) (confirmations : List Confirmation)
      (txsHashes : List Hash)
  | executeGenesisBlock (block : Block) (bootstrapTxs : List Transaction) (networkName : String)
      (expectedLeader : Option String)
  | updateSeedSource (previousBlockHash txsHash rxsHash : Hash)
  | getDRandNum (max : UInt64)

abbrev WasmOutput := Output Hash Block Confirmation Transaction

/-- The players of the service account, as the old chains or the new ones keep them. -/
def loadPlayers [NodeCodec] (accounts : Accounts) : Except ExecutionPanic Players := do
  let playersIds : Option (List String) ←
    match accounts.loadAccountData serviceAccountId validatorsKey with
    | none => pure none
    | some buf =>
      match (rmpDeserialize buf : Option (Option (List String))) with
      | none => throw .missingPlayer
      | some ids => pure ids
  match playersIds with
  | some ids => do
    let weights ← ids.mapM fun id =>
      match accounts.loadAccountData serviceAccountId (validatorsKey ++ ":" ++ id) with
      | none => throw .missingPlayer
      | some buf =>
        match (rmpDeserialize buf : Option ValidatorDbValue) with
        | some (.player player) => pure player.unitsInStake
        | some (.bool true) => pure 1
        | _ => throw .missingPlayer
    return ⟨ids, weights⟩
  | none =>
    let ids := (accounts.loadAccountKeys "TRINCI").filterMap fun key =>
      (key.dropPrefix? "blockchain:validators:").map fun id => id.toString
    return ⟨ids, ids.map fun _ => 1⟩

namespace WasmService

variable [Primitives] [Serialize BlockData] [NodeCodec] [Merkle] [Pcg32] [Wm W]

def consolidateBlock (s : WasmService W) (block : Block) (confirmations : List Confirmation)
    (txsHashes : List Hash) : Except ExecutionPanic (WasmService W × List WasmOutput) :=
  match s.forksCollector.lookup block.getHash with
  | none => .error .missingFork
  | some executed => do
    let db := s.db.mergeFork (executed.fork.modify fun db => db.storeBlock block confirmations)
    let players ← loadPlayers db.accounts
    return ({ s with
        db := db
        forksCollector := ∅
        executed := s.executed ++ executed.executed
        ran := s.ran ++ executed.ran },
      [.msg .blockService (.blockConsolidated block txsHashes players)])

omit [Merkle] [Pcg32] [Wm W] in
/-- A consolidation makes the fork of the block the database, and sends the players there. -/
theorem consolidateBlock_ok {s t : WasmService W} {block : Block}
    {confirmations : List Confirmation} {txsHashes : List Hash} {out : List WasmOutput}
    (h : s.consolidateBlock block confirmations txsHashes = .ok (t, out)) :
    ∃ forked players, s.forksCollector.lookup block.getHash = some forked ∧
      out = [.msg .blockService (.blockConsolidated block txsHashes players)] ∧
      t = { s with
        db := forked.fork.working.storeBlock block confirmations
        forksCollector := ∅
        executed := s.executed ++ forked.executed
        ran := s.ran ++ forked.ran } ∧
      loadPlayers t.db.accounts = .ok players := by
  rw [consolidateBlock] at h
  split at h
  · cases h
  · next forked hforked =>
    obtain ⟨players, hplayers, h⟩ := StepMachines.bind_eq_ok.mp h
    cases h
    exact ⟨forked, players, hforked, rfl, rfl, hplayers⟩

def withRoots (block : Block) (roots : Roots) : Block :=
  { block with
    data.stateHash := roots.stateHash
    data.txsHash := roots.txsRoot
    data.rxsHash := roots.rxsRoot }

/-- What becomes of an executed block: announced by its builder, compared with the
roots of a peer, or consolidated at once if it is the genesis block. -/
def updateDbFork (s : WasmService W) (block : Block) (round : UInt8) (txsHashes : List Hash)
    (roots : Roots) (executed : ExecutedFork) :
    Except ExecutionPanic (WasmService W × List WasmOutput) :=
  let filled := withRoots block roots
  if block.getBuilderId.getD "" = s.config.nodeId then
    .ok ({ s with forksCollector := s.forksCollector.insert filled.getHash executed },
      [.msg .consensusService (.proposalAfterBuild filled round txsHashes)])
  else if 0 < block.data.height then
    if block.data.stateHash ≠ roots.stateHash ∨ block.data.txsHash ≠ roots.txsRoot ∨
        block.data.rxsHash ≠ roots.rxsRoot then .ok (s, [])
    else .ok ({ s with forksCollector := s.forksCollector.insert block.getHash executed },
      [.msg .consensusService (.blockExecutionEnded block txsHashes)])
  else
    ({ s with forksCollector := s.forksCollector.insert filled.getHash executed } :
      WasmService W).consolidateBlock filled [] txsHashes

/-- What `update_db_fork` does, with the checks on the way to it. -/
inductive UpdateOutcome (s : WasmService W) (block : Block) (round : UInt8) (txsHashes : List Hash)
    (roots : Roots) (executed : ExecutedFork) : WasmService W → List WasmOutput → Prop
  | announced : block.getBuilderId.getD "" = s.config.nodeId →
      UpdateOutcome s block round txsHashes roots executed
        { s with
          forksCollector := s.forksCollector.insert (withRoots block roots).getHash executed }
        [.msg .consensusService (.proposalAfterBuild (withRoots block roots) round txsHashes)]
  | rejected : block.getBuilderId.getD "" ≠ s.config.nodeId → 0 < block.data.height →
      (block.data.stateHash ≠ roots.stateHash ∨ block.data.txsHash ≠ roots.txsRoot ∨
        block.data.rxsHash ≠ roots.rxsRoot) →
      UpdateOutcome s block round txsHashes roots executed s []
  | confirmed : block.getBuilderId.getD "" ≠ s.config.nodeId → 0 < block.data.height →
      block.data.stateHash = roots.stateHash → block.data.txsHash = roots.txsRoot →
      block.data.rxsHash = roots.rxsRoot →
      UpdateOutcome s block round txsHashes roots executed
        { s with forksCollector := s.forksCollector.insert block.getHash executed }
        [.msg .consensusService (.blockExecutionEnded block txsHashes)]
  | settled {t : WasmService W} {out : List WasmOutput} :
      block.getBuilderId.getD "" ≠ s.config.nodeId → ¬ 0 < block.data.height →
      ({ s with
        forksCollector := s.forksCollector.insert (withRoots block roots).getHash executed } :
        WasmService W).consolidateBlock (withRoots block roots) [] txsHashes = .ok (t, out) →
      UpdateOutcome s block round txsHashes roots executed t out

omit [Merkle] [Pcg32] [Wm W] in
theorem updateDbFork_outcome {s t : WasmService W} {block : Block} {round : UInt8}
    {txsHashes : List Hash} {roots : Roots} {executed : ExecutedFork} {out : List WasmOutput}
    (h : s.updateDbFork block round txsHashes roots executed = .ok (t, out)) :
    UpdateOutcome s block round txsHashes roots executed t out := by
  unfold updateDbFork at h
  dsimp only at h
  split at h
  · next own =>
    cases h
    exact .announced own
  · next other =>
    split at h
    · next positive =>
      split at h
      · next differ =>
        cases h
        exact .rejected other positive differ
      · next agree =>
        cases h
        simp only [not_or, ne_eq, not_not] at agree
        obtain ⟨state, listed, receipts⟩ := agree
        exact .confirmed other positive state listed receipts
    · next genesis => exact .settled other genesis h

/-- The state an execution starts from. -/
def begin (s : WasmService W) : Execution W := ⟨s.wm, s.drand, s.db.createFork, [], []⟩

/-- `execute_block`: whether it returned `Ok`, with the new state. -/
def executeBlock (s : WasmService W) (block : Block) (round : UInt8) (txs : List Transaction)
    (expectedLeader : Option String) :
    Except ExecutionPanic (Bool × WasmService W × List WasmOutput) :=
  if (s.db.loadBlock block.data.height).isSome then .ok (false, s, [])
  else
    let run := s.config.executeInFork block txs expectedLeader
    let done := after run s.begin
    -- the machine and the drand service keep what a dropped execution did to them
    let t : WasmService W := { s with wm := done.wm, drand := done.drand }
    match result run s.begin with
    | .error (.panic p) => .error p
    | .error (.failed _) => .ok (false, t, [])
    | .ok roots => do
      let (t, out) ← t.updateDbFork block round
        (txs.map (WasmConfig.listedHash block.data.height)) roots ⟨done.fork, done.executed, done.ran⟩
      return (!out.isEmpty, t, out)

/-- What `execute_block` does. The machine and the seed source are left as a run leaves them. -/
inductive ExecuteOutcome (s : WasmService W) (block : Block) (round : UInt8)
    (txs : List Transaction) (expectedLeader : Option String) :
    Bool → WasmService W → List WasmOutput → Prop
  | stored : (s.db.loadBlock block.data.height).isSome →
      ExecuteOutcome s block round txs expectedLeader false s []
  | failed {e : NodeError} : (s.db.loadBlock block.data.height).isSome = false →
      result (s.config.executeInFork block txs expectedLeader) s.begin = .error (.failed e) →
      ExecuteOutcome s block round txs expectedLeader false
        { s with
          wm := (after (s.config.executeInFork block txs expectedLeader) s.begin).wm
          drand := (after (s.config.executeInFork block txs expectedLeader) s.begin).drand } []
  | executed {roots : Roots} {done : Execution W} {t : WasmService W} {out : List WasmOutput} :
      (s.db.loadBlock block.data.height).isSome = false →
      result (s.config.executeInFork block txs expectedLeader) s.begin = .ok roots →
      after (s.config.executeInFork block txs expectedLeader) s.begin = done →
      UpdateOutcome { s with wm := done.wm, drand := done.drand } block round
        (txs.map (WasmConfig.listedHash block.data.height)) roots
        ⟨done.fork, done.executed, done.ran⟩ t out →
      ExecuteOutcome s block round txs expectedLeader (!out.isEmpty) t out

omit [Pcg32] in
theorem executeBlock_outcome {s t : WasmService W} {block : Block} {round : UInt8}
    {txs : List Transaction} {expectedLeader : Option String} {ok : Bool} {out : List WasmOutput}
    (h : s.executeBlock block round txs expectedLeader = .ok (ok, t, out)) :
    ExecuteOutcome s block round txs expectedLeader ok t out := by
  unfold executeBlock at h
  split at h
  · next stored =>
    cases h
    exact .stored stored
  · next absent =>
    have new := Bool.eq_false_iff.mpr absent
    dsimp only at h
    split at h
    · cases h
    · next hfailed =>
      cases h
      exact .failed new hfailed
    · next roots hroots =>
      obtain ⟨⟨u, sent⟩, hupdate, h⟩ := StepMachines.bind_eq_ok.mp h
      cases h
      exact .executed new hroots rfl (updateDbFork_outcome hupdate)

/-- The settings of the genesis block, with the name of the network. -/
def settleGenesis (s : WasmService W) (bootstrapTxs : List Transaction) (networkName : String) :
    Except ExecutionPanic (WasmService W) :=
  match (s.db.accounts.loadAccountData serviceAccountId settingsKey).bind
      (rmpDeserialize : Bytes → Option BlockchainSettings) with
  | none => .error .missingSettings
  | some settings =>
    let db := s.db.storeConfiguration settingsKey
      (rmpSerialize { settings with networkName := some networkName })
    let db := bootstrapTxs.foldl (fun db tx =>
      db.storeTransaction (Hash.primary (rmpSerialize tx)) tx) db
    .ok { s with
      config := { s.config with burningFuelMethod := settings.burningFuelMethod }
      db := db }

omit [Serialize BlockData] [Merkle] [Pcg32] [Wm W] in
theorem settleGenesis_ok {s t : WasmService W} {bootstrapTxs : List Transaction}
    {networkName : String} (h : s.settleGenesis bootstrapTxs networkName = .ok t) :
    ∃ settings : BlockchainSettings,
      (s.db.accounts.loadAccountData serviceAccountId settingsKey).bind
        (rmpDeserialize : Bytes → Option BlockchainSettings) = some settings ∧
      t = { s with
        config := { s.config with burningFuelMethod := settings.burningFuelMethod }
        db := bootstrapTxs.foldl
          (fun db tx => db.storeTransaction (Hash.primary (rmpSerialize tx)) tx)
          (s.db.storeConfiguration settingsKey
            (rmpSerialize { settings with networkName := some networkName })) } := by
  unfold settleGenesis at h
  split at h
  · cases h
  · next settings hsettings =>
    cases h
    exact ⟨settings, hsettings, rfl⟩

def handle (s : WasmService W) : WasmInput → Except ExecutionPanic (WasmService W × List WasmOutput)
  | .executeBlock block round txs expectedLeader => do
    let (_, t, out) ← s.executeBlock block round txs expectedLeader
    return (t, out)
  | .startBlockConsolidation block confirmations txsHashes =>
    s.consolidateBlock block confirmations txsHashes
  | .executeGenesisBlock block bootstrapTxs networkName expectedLeader => do
    let (ok, t, out) ← s.executeBlock block 0 bootstrapTxs expectedLeader
    if ok then do
      let t ← t.settleGenesis bootstrapTxs networkName
      return (t, out)
    else return (t, out)
  | .updateSeedSource previousBlockHash txsHash rxsHash =>
    .ok ({ s with drand := s.drand.updateSeedSource previousBlockHash txsHash rxsHash }, [])
  | .getDRandNum max => .ok ({ s with drand := (s.drand.getDRandNum max).1 }, [])

end WasmService

/-! ## Encodings for the small network

Short encodings that tell apart the records used in the examples. The only records
that are decoded are those of the players: alice alone, with one unit. -/

namespace Sample

def callerByte (key : TrinciPublicKey) : UInt8 := key.value.getD 1 0

def encodeData : TransactionData → Bytes
  | .v1 txData => 1 :: callerByte txData.caller :: txData.nonce
  | .bulkNodeV1 txData => 2 :: callerByte txData.caller :: txData.nonce ++ txData.dependsOn.bytes.take 6
  | .bulkRootV1 txData => 3 :: callerByte txData.caller :: txData.nonce
  | .bulkV1 ⟨⟨⟨root⟩, nodes⟩⟩ =>
    4 :: encodeData root ++ (nodes.getD []).flatMap fun node => (node.signature.drop 65).take 3
  | .bulkEmptyRoot txData => 5 :: callerByte txData.caller :: txData.nonce

scoped instance nodeCodec : NodeCodec where
  transactionData := encodeData
  transaction
    | .unitTransaction tx => 1 :: encodeData tx.data
    | .bulkTransaction tx => 2 :: encodeData tx.data
  receipt receipt := [receipt.height.toUInt8, receipt.success.toUInt8] ++ receipt.returns
  bulkResults results := results.flatMap fun entry => entry.2.result
  slashed entry := bytesOf entry.1
  burnFuelRequest request := bytesOf request.sender
  burnFuelReturns _ := none
  units _ := none
  playersIds bytes := if bytes = [1] then some (some ["alice"]) else none
  validator bytes := if bytes = [1] then some (.player ⟨"alice", 1, 3⟩) else none
  settings _ := none
  settingsBytes settings := bytesOf settings.burningFuelMethod

scoped instance pcg32 : Pcg32 where
  nextU64 seed := seed * 6364136223846793005 + 1442695040888963407

scoped instance merkle : Merkle where
  accountsRoot accounts := Hash.primary (accounts.entries.flatMap fun entry => bytesOf entry.1)
  dataRoot data := Hash.primary (data.flatMap fun entry => bytesOf entry.1 ++ entry.2)
  listRoot hashes := Hash.primary (hashes.flatMap fun hash => (hash.bytes.drop 2).take 8)

/-- A call of a method in the sample network. -/
def request (n : UInt8) (caller : TrinciPublicKey) : TransactionDataV1 where
  account := "shop"
  fuelLimit := 5000
  nonce := [n]
  network := "net"
  contract := none
  method := "buy"
  caller := caller
  args := []

/-- The signature a key pair makes over the data. -/
def signed (kp : TrinciKeyPair) (data : TransactionData) : SignedTransaction where
  data := data
  signature := match kp.sign 0 (rmpSerialize data) with
    | .ok signature => signature
    | .error _ => []

def unitOf (n : UInt8) (kp : TrinciKeyPair) : Transaction :=
  .unitTransaction (signed kp (.v1 (request n kp.publicKey)))

/-- The root of a bulk that calls nothing itself. -/
def emptyRoot (n : UInt8) (kp : TrinciKeyPair) : TransactionData :=
  .bulkEmptyRoot ⟨5000, [n], "net", kp.publicKey⟩

/-- A node of the bulk with this root, as its caller would sign it. -/
def nodeOf (root : TransactionData) (n : UInt8) (caller : TrinciPublicKey) : TransactionData :=
  .bulkNodeV1 ⟨request n caller, root.getHash⟩

def bulkOf (kp : TrinciKeyPair) (root : TransactionData) (nodes : List SignedTransaction) :
    Transaction :=
  .bulkTransaction (signed kp (.bulkV1 ⟨⟨⟨root⟩, some nodes⟩⟩))

def config : WasmConfig where
  nodeId := "alice"
  networkName := "net"
  burningFuelMethod := ""

end Sample

end Trinci
