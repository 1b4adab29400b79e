import Trinci.HostPrograms
import Trinci.WasmService

/-!
# The wasm machine of the node

The engine compiles code to modules and turns a module with its input into a
program that asks the host; what happens in the memory of the module, with the
checks of what is read from it, belongs to the engine. The machine keeps compiled
modules in a cache, answers the host functions from the fork, and calls itself for
nested calls. How deep calls nest is bounded by the stack of the thread: a machine
has a stack size, and a call without a stack left stops the node. The clock readings
that order the cache and the order in which its hash map is walked are part of the
machine.
-/

namespace Trinci

open HostPrograms

inductive HostRequest
  /-- The instance exists: the machine is at the contract's disposal from here on. -/
  | instantiated
  | log (msg : String)
  | emit (eventName : String) (eventData : Bytes)
  | loadData (key : String)
  | storeData (key : String) (data : Bytes)
  | removeData (key : String)
  | isCallable (account method : String)
  | loadAsset (accountId : String)
  | storeAsset (accountId : String) (value : Bytes)
  | removeAsset (accountId : String)
  | getAccountContract (accountId : String)
  | getKeys (pattern : String)
  | call (account method : String) (args : Bytes)
  | sCall (account : String) (contract : Hash) (method : String) (args : Bytes)
  | verify (pk : TrinciPublicKey) (data sign : Bytes)
  | sha256 (data : Bytes)
  | drand (max : UInt64)
  | getBlockTime

inductive HostValue
  | unit
  | bytes (value : Bytes)
  | int (value : Int32)
  | num (value : UInt64)

/-- The answer to a request, with the fuel that is left. -/
structure HostAnswer where
  value : HostValue
  fuel : UInt64

/-- A request and the fuel that is left when it is made. -/
structure HostQuestion where
  request : HostRequest
  fuel : UInt64

/-- Why a module did not return. -/
inductive EngineError
  | unknownImport
  | instantiate (e : String)
  | noAlloc (e : String)
  | noMemory
  | writeMem (e : String)
  | noEntry (e : String)
  | trap (e : String)

/-- What a program ends with: the fuel that is left and its result. -/
structure Ended (α : Type) where
  fuel : UInt64
  result : Except EngineError α

structure AppInput where
  depth : UInt16
  network : String
  owner : String
  caller : String
  method : String
  origin : String

abbrev Contract (α : Type) := Program HostQuestion HostAnswer (Ended α)

/-- The engine, with the two entry points of a module. A run returns the bytes of its
slice, where the slice lies in the memory. -/
class WasmEngine where
  Module : Type
  new : Bytes → Except String Module
  run : Module → AppInput → (args : Bytes) → (initialFuel : UInt64) → Contract (Option Bytes)
  isCallable : Module → AppInput → (args : Bytes) → (initialFuel : UInt64) → Contract Int32

structure ContractUpdatableArgs where
  account : String
  currentContract : Bytes
  newContract : Bytes

structure AppOutput where
  success : Bool
  data : Bytes

/-- The encodings of what contracts and the machine exchange. -/
class WmCodec where
  appOutput : AppOutput → Bytes
  appOutput? : Bytes → Except String AppOutput
  keys : List String → Bytes
  storeAssetData : String × Bytes → Bytes
  contractUpdatableArgs : ContractUpdatableArgs → Bytes
  bool? : Bytes → Option Bool
  fromUtf8Lossy : Bytes → String

/-- `contracts:code:` and the target in hexadecimal. -/
def codeKey (target : Hash) : String := "contracts:code:" ++ hexEncode target.asBytes

/-- The stored code of a contract. -/
def Accounts.codeOf (accounts : Accounts) (target : Hash) : Option Bytes :=
  accounts.loadAccountData serviceAccountId (codeKey target)

section Machine

variable [WasmEngine]

structure CachedModule where
  module : WasmEngine.Module
  lastUsed : UInt64

structure WmLocal where
  cache : AList fun _ : Hash => CachedModule
  cacheMax : Nat
  /-- The readings of the clock, in seconds, and how many were made. -/
  clock : Nat → UInt64
  reads : Nat
  /-- The order in which the cache is walked. -/
  walk : (reads : Nat) → List (Sigma fun _ : Hash => CachedModule) →
    List (Sigma fun _ : Hash => CachedModule)
  walk_perm : ∀ reads entries, (walk reads entries).Perm entries
  /-- How deep calls may nest. -/
  stack : Nat

namespace WmLocal

/-- The first of the entries with the smallest time of use. -/
def older : List (Sigma fun _ : Hash => CachedModule) → Option Hash
  | [] => none
  | first :: rest =>
    some (rest.foldl (fun older curr =>
      if curr.2.lastUsed < older.2.lastUsed then curr else older) first).1

def evict (wm : WmLocal) : WmLocal :=
  if wm.cacheMax < wm.cache.entries.length then
    match older (wm.walk wm.reads wm.cache.entries) with
    | none => wm
    | some hash => { wm with cache := wm.cache.erase hash }
  else wm

def loadModule (wm : WmLocal) (accounts : Accounts) (target : Hash) :
    WmLocal × Except WasmError WasmEngine.Module :=
  let wm := wm.evict
  match accounts.codeOf target with
  | none => (wm, .error (.resourceNotFound "smart contract not found"))
  | some wasmBin =>
    match WasmEngine.new wasmBin with
    | .error e => (wm, .error (.resourceNotFound e))
    | .ok module => ({ wm with cache := wm.cache.insert target ⟨module, 0⟩ }, .ok module)

/-- The module is used now. -/
def touch (wm : WmLocal) (target : Hash) (module : WasmEngine.Module) : WmLocal :=
  { wm with
    cache := wm.cache.insert target ⟨module, wm.clock wm.reads⟩
    reads := wm.reads + 1 }

def getModule (wm : WmLocal) (accounts : Accounts) (target : Hash) :
    WmLocal × Except WasmError WasmEngine.Module :=
  match wm.cache.lookup target with
  | some entry => (wm.touch target entry.module, .ok entry.module)
  | none =>
    match wm.loadModule accounts target with
    | (wm, .error e) => (wm, .error e)
    | (wm, .ok module) => (wm.touch target module, .ok module)

end WmLocal

/-- The functions of a machine that contracts can make it call. -/
structure Machine where
  call : CallArgs → World WmLocal → Except MachinePanic (Called WmLocal Bytes)
  callableCall : CallArgs → World WmLocal → Except MachinePanic (Called WmLocal Int32)
  appHashCheck : Option Hash → CtxArgs → (blockTimestamp : UInt64) → World WmLocal →
    Except MachinePanic (World WmLocal × Except WasmError Hash)

/-- What host functions change: the world, the events and whether the data of the
account was touched. -/
structure Frame where
  world : World WmLocal
  events : List SmartContractEvent
  dataUpdated : Bool
  /-- Whether the machine is at the contract's disposal. -/
  instantiated : Bool

namespace Frame

def accounts (f : Frame) : Accounts := f.world.accounts

def setAccounts (f : Frame) (accounts : Accounts) : Frame :=
  { f with world := { f.world with accounts := accounts } }

end Frame

/-! ## Host functions -/

namespace HostFunc

variable [Primitives] [Pcg32] [WmCodec] (inner : Machine) (ctx : CallArgs)

def getSmartcontractHash (f : Frame) : Hash :=
  ((f.accounts.loadAccount ctx.owner).bind fun account => account.contract).getD Hash.default

def emit (f : Frame) (eventName : String) (eventData : Bytes) : Frame :=
  { f with events := f.events ++
      [⟨Hash.default, ctx.owner, getSmartcontractHash ctx f, eventName, eventData⟩] }

def storeData (f : Frame) (key : String) (data : Bytes) : Frame :=
  { f.setAccounts (f.accounts.storeAccountData ctx.owner key data) with dataUpdated := true }

def removeData (f : Frame) (key : String) : Frame :=
  { f.setAccounts (f.accounts.removeAccountData ctx.owner key) with dataUpdated := true }

def loadAsset (f : Frame) (accountId : String) : Bytes :=
  match f.accounts.loadAccount accountId with
  | some account => account.loadAsset ctx.owner
  | none => []

def storeAsset (f : Frame) (accountId : String) (value : Bytes) : Frame :=
  if accountId.isEmpty then f
  else
    let account := (f.accounts.loadAccount accountId).getD (Account.new accountId none)
    let f := f.setAccounts (f.accounts.storeAccount (account.storeAsset ctx.owner value))
    emit ctx f "STORE_ASSET" (WmCodec.storeAssetData (accountId, value))

def removeAsset (f : Frame) (accountId : String) : Frame :=
  let account := (f.accounts.loadAccount accountId).getD (Account.new accountId none)
  f.setAccounts (f.accounts.storeAccount (account.removeAsset ctx.owner))

def getAccountContract (f : Frame) (accountId : String) : Option Hash :=
  (f.accounts.loadAccount accountId).bind fun account => account.contract

def getKeys (f : Frame) (pattern : String) : List String :=
  (f.accounts.loadAccountKeys ctx.owner).filter fun key =>
    pattern.isEmpty || key.startsWith pattern

/-- The arguments of a nested call. -/
def nestedArgs (account : String) (contract : Hash) (method : String) (args : Bytes)
    (initialFuel : UInt64) : CallArgs :=
  ⟨ctx.depth + 1, ctx.network, ctx.origin, account, ctx.owner, contract, method, args,
    initialFuel, ctx.blockTimestamp⟩

def call (f : Frame) (account : String) (contract : Option Hash) (method : String)
    (args : Bytes) (initialFuel : UInt64) :
    Except MachinePanic (Frame × UInt64 × Except WasmError Bytes) :=
  if f.instantiated then do
    let (world, appHash) ← inner.appHashCheck contract ⟨ctx.origin, account, ctx.owner⟩
      ctx.blockTimestamp f.world
    match appHash with
    | .error e => return ({ f with world := world }, 0, .error e)
    | .ok appHash => do
      let (world, events, consumed, result) ←
        inner.call (nestedArgs ctx account appHash method args initialFuel) world
      return ({ f with world := world, events := f.events ++ events }, consumed, result)
  else
    .ok (f, getFuelBurntForError, .error (.wasmMachineFault "nested calls not implemented"))

def isCallable (f : Frame) (account method : String) (initialFuel : UInt64) :
    Except MachinePanic (Frame × UInt64 × Except WasmError Int32) :=
  match getAccountContract f account with
  | none => .ok (f, 0, .ok 0)
  | some hash =>
    if f.instantiated then do
      let (world, appHash) ← inner.appHashCheck (some hash) ⟨ctx.origin, account, ctx.owner⟩
        ctx.blockTimestamp f.world
      match appHash with
      | .error e => return ({ f with world := world }, 0, .error e)
      | .ok appHash => do
        let (world, events, consumed, result) ← inner.callableCall
          (nestedArgs ctx account appHash method (bytesOf method) initialFuel) world
        return ({ f with world := world, events := f.events ++ events }, consumed, result)
    else .ok (f, getFuelBurntForError, .error (.wasmMachineFault "is_callable not implemented"))

/-- What a nested call returns to the contract that made it. -/
def appOutputOf : Except WasmError Bytes → Except MachinePanic Bytes
  | .ok buf => .ok (WmCodec.appOutput ⟨true, buf⟩)
  | .error err => do
    let msg ← err.message
    return WmCodec.appOutput ⟨false, msg⟩

/-- The pattern must end with `*`. Its last byte is cut off as a text. -/
def keysOutput (f : Frame) (pattern : String) : Except MachinePanic Bytes :=
  let last := pattern.toList.getLast?
  if last.any fun c => 1 < c.utf8Size then .error .keysPattern
  else if last = some '*' then
    .ok (WmCodec.appOutput ⟨true,
      WmCodec.keys (getKeys ctx f (String.ofList pattern.toList.dropLast))⟩)
  else .ok (WmCodec.appOutput ⟨false, bytesOf "last char of search pattern must be '*'"⟩)

def answer (q : HostQuestion) (f : Frame) : Except MachinePanic (Frame × HostAnswer) :=
  match q.request with
  | .instantiated => .ok ({ f with instantiated := true }, ⟨.unit, q.fuel⟩)
  | .log _ => .ok (f, ⟨.unit, q.fuel⟩)
  | .emit eventName eventData => .ok (emit ctx f eventName eventData, ⟨.unit, q.fuel⟩)
  | .loadData key =>
    .ok (f, ⟨.bytes ((f.accounts.loadAccountData ctx.owner key).getD []), q.fuel⟩)
  | .storeData key data => .ok (storeData ctx f key data, ⟨.unit, q.fuel⟩)
  | .removeData key => .ok (removeData ctx f key, ⟨.unit, q.fuel⟩)
  | .isCallable account method => do
    let (f, consumed, result) ← isCallable inner ctx f account method q.fuel
    return (f, ⟨.int (match result with | .ok value => value | .error _ => 0), q.fuel - consumed⟩)
  | .loadAsset accountId => .ok (f, ⟨.bytes (loadAsset ctx f accountId), q.fuel⟩)
  | .storeAsset accountId value => .ok (storeAsset ctx f accountId value, ⟨.unit, q.fuel⟩)
  | .removeAsset accountId => .ok (removeAsset ctx f accountId, ⟨.unit, q.fuel⟩)
  | .getAccountContract accountId =>
    .ok (f, ⟨.bytes (((getAccountContract f accountId).map Hash.asBytes).getD []), q.fuel⟩)
  | .getKeys pattern => do
    let output ← keysOutput ctx f pattern
    return (f, ⟨.bytes output, q.fuel⟩)
  | .call account method args => do
    let (f, consumed, result) ← call inner ctx f account none method args q.fuel
    let output ← appOutputOf result
    return (f, ⟨.bytes output, q.fuel - consumed⟩)
  | .sCall account contract method args => do
    let (f, consumed, result) ← call inner ctx f account (some contract) method args q.fuel
    let output ← appOutputOf result
    return (f, ⟨.bytes output, q.fuel - consumed⟩)
  | .verify pk data sign => .ok (f, ⟨.int (if pk.verify data sign then 1 else 0), q.fuel⟩)
  | .sha256 data => .ok (f, ⟨.bytes (Primitives.sha256 data), q.fuel⟩)
  | .drand max =>
    let (drand, num) := f.world.drand.getDRandNum max
    .ok ({ f with world := { f.world with drand := drand } }, ⟨.num num, q.fuel⟩)
  | .getBlockTime => .ok (f, ⟨.num ctx.blockTimestamp, q.fuel⟩)

end HostFunc

/-! ## The machine -/

namespace WmLocal

variable [Primitives] [Merkle] [Pcg32] [WmCodec]

def callError : EngineError → WasmError
  | .unknownImport => .notImplemented "host function import not found"
  | .instantiate e => .wasmMachineFault e
  | .noAlloc e => .resourceNotFound e
  | .noMemory => .resourceNotFound "wasm `memory` not found"
  | .writeMem e => .wasmMachineFault e
  | .noEntry e => .resourceNotFound e
  | .trap e => .wasmMachineFault e

def callableError : EngineError → WasmError
  | .unknownImport => .notImplemented "host function import not found"
  | .instantiate e => .wasmMachineFault e
  | .noAlloc e => .resourceNotFound e
  | .noMemory => .resourceNotFound "Expected 'memory' not found"
  | .writeMem e => .wasmMachineFault e
  | .noEntry e => .resourceNotFound e
  | .trap e => .smartContractFault e

/-- The module for a call, in the world it leaves. -/
def moduleOf (w : World WmLocal) (target : Hash) :
    World WmLocal × Except WasmError WasmEngine.Module :=
  let (wm, module) := w.wm.getModule w.accounts target
  ({ w with wm := wm }, module)

/-- The world with the data hash of the account, if its data was touched. Nothing if
the account does not exist. -/
def updateDataHash (f : Frame) (owner : String) : Option (World WmLocal) :=
  if f.dataUpdated then
    (f.accounts.loadAccount owner).map fun account =>
      let account := { account with dataHash := some (f.accounts.stateHash account.id) }
      { f.world with accounts := f.accounts.storeAccount account }
  else some f.world

/-- The result of the bytes that a contract returned. -/
def callResult : Option Bytes → Except WasmError Bytes
  | none => .error (.wasmMachineFault "out of bounds memory access")
  | some buf =>
    match WmCodec.appOutput? buf with
    | .ok ⟨true, data⟩ => .ok data
    | .ok ⟨false, data⟩ => .error (.smartContractFault (WmCodec.fromUtf8Lossy data))
    | .error e => .error (.smartContractFault e)

def inputOf (args : CallArgs) (method : String) : AppInput :=
  ⟨args.depth, args.network, args.owner, args.caller, method, args.origin⟩

variable (inner : Machine)

/-- A contract in the context of a call. -/
def execute {α : Type} (args : CallArgs) (contract : Contract α) (w : World WmLocal) :
    Except MachinePanic (Frame × Ended α) :=
  contract.run (HostFunc.answer inner args) ⟨w, [], false, false⟩

/-- What a call leaves and returns once the contract has ended. `faultFuel` is the
charge for a fault. -/
def leave {α β : Type} (args : CallArgs) (errorOf : EngineError → WasmError)
    (faultFuel : (consumed : UInt64) → UInt64) (resultOf : α → Except WasmError β) (f : Frame)
    (ended : Ended α) : Called WmLocal β :=
  let consumed := args.initialFuel - ended.fuel
  match ended.result with
  | .error e => (f.world, f.events, faultFuel consumed, .error (errorOf e))
  | .ok value =>
    match updateDataHash f args.owner with
    | none =>
      (f.world, f.events, faultFuel consumed, .error (.wasmMachineFault "inconsistent state"))
    | some w => (w, f.events, consumed, resultOf value)

/-- The entry into a contract that both entry points share. -/
def enter {α β : Type} (args : CallArgs) (contract : WasmEngine.Module → Contract α)
    (errorOf : EngineError → WasmError) (faultFuel : (consumed : UInt64) → UInt64)
    (resultOf : α → Except WasmError β) (w : World WmLocal) :
    Except MachinePanic (Called WmLocal β) :=
  match moduleOf w args.contract with
  | (w, .error e) => .ok (w, [], 0, .error e)
  | (w, .ok module) => do
    let (f, ended) ← execute inner args (contract module) w
    return leave args errorOf faultFuel resultOf f ended

def call (args : CallArgs) (w : World WmLocal) : Except MachinePanic (Called WmLocal Bytes) :=
  enter inner args
    (fun module => WasmEngine.run module (inputOf args args.method) args.args args.initialFuel)
    callError (fun consumed => consumed) callResult w

/-- Faults of a `callable_call` are not charged. -/
def callableCall (args : CallArgs) (w : World WmLocal) :
    Except MachinePanic (Called WmLocal Int32) :=
  enter inner args
    (fun module =>
      WasmEngine.isCallable module (inputOf args "is_callable") args.args args.initialFuel)
    callableError (fun _ => 0) .ok w

def contractUpdatableCall (account : String) (currentHash newHash : Option Hash)
    (ctxArgs : CtxArgs) (contract : Hash) (blockTimestamp : UInt64) : CallArgs :=
  ⟨0, "", ctxArgs.origin, serviceAccountId, ctxArgs.caller, contract, "contract_updatable",
    WmCodec.contractUpdatableArgs ⟨account, (currentHash.map Hash.asBytes).getD [],
      (newHash.map Hash.asBytes).getD []⟩, maxWmFuel, blockTimestamp⟩

def contractUpdatable (account : String) (currentHash newHash : Option Hash)
    (ctxArgs : CtxArgs) (blockTimestamp : UInt64) (w : World WmLocal) :
    Except MachinePanic (World WmLocal × Bool) :=
  match (w.accounts.loadAccount serviceAccountId).bind fun account => account.contract with
  | none => .ok (w, false)
  | some contract => do
    let (w, _, _, result) ← inner.call
      (contractUpdatableCall account currentHash newHash ctxArgs contract blockTimestamp) w
    match result with
    | .ok val => return (w, (WmCodec.bool? val).getD false)
    | .error _ => return (w, false)

/-- The account takes the contract. -/
def bind (account : Account) (appHash : Option Hash) (w : World WmLocal) :
    World WmLocal × Except WasmError Hash :=
  ({ w with accounts := w.accounts.storeAccount { account with contract := appHash } },
    .ok (appHash.getD Hash.default))

def appHashCheck (appHash : Option Hash) (ctxArgs : CtxArgs) (blockTimestamp : UInt64)
    (w : World WmLocal) : Except MachinePanic (World WmLocal × Except WasmError Hash) :=
  let account := (w.accounts.loadAccount ctxArgs.owner).getD (Account.new ctxArgs.owner none)
  if account.contract ≠ appHash then
    -- without a hash the contract of the account stays
    let appHash := if account.contract.isSome && appHash.isNone then account.contract else appHash
    if account.contract = appHash then .ok (bind account appHash w)
    else do
      let (w, updatable) ← contractUpdatable inner ctxArgs.owner account.contract appHash ctxArgs
        blockTimestamp w
      if updatable then return bind account appHash w
      else return (w, .error (.invalidContract "cannot bind the contract to the account"))
  else
    match appHash with
    | some hash => .ok (w, .ok hash)
    | none => .ok (w, .error (.resourceNotFound "smart contract not specified"))

/-- A machine with this much stack. -/
def machine : (stack : Nat) → Machine
  | 0 =>
    { call := fun _ _ => .error .stackOverflow
      callableCall := fun _ _ => .error .stackOverflow
      appHashCheck := fun _ _ _ _ => .error .stackOverflow }
  | stack + 1 =>
    { call := call (machine stack)
      callableCall := callableCall (machine stack)
      appHashCheck := appHashCheck (machine stack) }

instance : Wm WmLocal where
  call args w := (machine w.wm.stack).call args w
  appHashCheck contract ctxArgs blockTimestamp w :=
    (machine w.wm.stack).appHashCheck contract ctxArgs blockTimestamp w

end WmLocal

end Machine

end Trinci
