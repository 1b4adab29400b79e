import Trinci.DRand
import Trinci.NodeStore

/-!
# The wasm machine seen by the executor

The executor is generic in the machine that runs contracts. A call may change the
machine, the seed of the drand service and the accounts of the fork, and nothing
else: contracts reach the database through the account functions only. Texts of
errors are the bytes that end up in receipts; a text longer than the limit is cut
after its bytes.
-/

namespace Trinci

def activateFuelConsumption : UInt64 := 20000

def maxWmFuel : UInt64 := 1000000000

def maxErrorSourceStringLength : Nat := 128

def getFuelBurntForError : UInt64 := 1000

/-! ## Errors -/

inductive WasmError
  | accountFault (e : String)
  | bulkExecutionFault (receipt : Receipt)
  | blockExecutionMismatch (blockData : BlockData) (stateHash txsRoot rxsRoot : Hash)
  | fuelError (e : String)
  | invalidContract (e : String)
  | notImplemented (e : String)
  | resourceNotFound (e : String)
  | smartContractFault (e : String)
  | wasmMachineFault (e : String)

/-- What stops the service in the machine or in the text of an error. -/
inductive MachinePanic
  /-- The text of an error is cut in the middle of a character. -/
  | errorText
  /-- The pattern of a key search ends in a character of several bytes. -/
  | keysPattern
  /-- Calls nest deeper than the stack of the thread. -/
  | stackOverflow
  deriving DecidableEq

def bytesOf (text : String) : Bytes := text.toUTF8.data.toList

/-- `is_char_boundary` -/
def isCharBoundary (text : Bytes) (n : Nat) : Bool :=
  n == text.length || text[n]?.any fun byte => byte < 0x80 || 0xC0 ≤ byte

def formatErrorString (e : String) : Except MachinePanic Bytes :=
  let text := bytesOf e
  let n := min text.length (maxErrorSourceStringLength - 2)
  if isCharBoundary text n then .ok (text.take n) else .error .errorText

namespace WasmError

/-- The text before the first separator, and what is cut after it where there is one.
The mismatch of a block never reaches a receipt and keeps its first words only. -/
def text : WasmError → String × Option String
  | .accountFault e => ("account fault", some e)
  | .bulkExecutionFault _ => ("bulk execution fault", none)
  | .blockExecutionMismatch _ _ _ _ => ("Hashes mismatch after block execution", none)
  | .fuelError e => ("burning fuel error", some e)
  | .invalidContract e => ("invalid contract hash", some e)
  | .notImplemented e => ("not implemented", some e)
  | .resourceNotFound e => ("resource not found", some e)
  | .smartContractFault e => ("smart contract fault", some e)
  | .wasmMachineFault e => ("wasm machine fault", some e)

/-- `to_string` -/
def message (err : WasmError) : Except MachinePanic Bytes :=
  match err.text with
  | (kind, some e) => do
    let rest ← formatErrorString e
    return bytesOf kind ++ bytesOf ": " ++ rest
  | (kind, none) => .ok (bytesOf kind)

/-- `to_string_kind`: nothing where its `expect` finds no separator. -/
def kind? (err : WasmError) : Except MachinePanic (Option Bytes) :=
  match err.text with
  | (kind, some e) => do
    let _ ← formatErrorString e
    return some (bytesOf kind)
  | (_, none) => .ok none

end WasmError

/-! ## The machine -/

structure CtxArgs where
  origin : String
  owner : String
  caller : String

structure CallArgs where
  depth : UInt16
  network : String
  origin : String
  owner : String
  caller : String
  contract : Hash
  method : String
  args : Bytes
  initialFuel : UInt64
  blockTimestamp : UInt64

/-- What a contract can reach. -/
structure World (W : Type) where
  wm : W
  drand : SeedSource
  accounts : Accounts

/-- What a call leaves and returns: the world, the events it appends, the fuel it burnt
and its result. -/
abbrev Called (W β : Type) :=
  World W × List SmartContractEvent × UInt64 × Except WasmError β

/-- The two functions of the machine that the executor calls. -/
class Wm (W : Type) where
  call : CallArgs → World W → Except MachinePanic (Called W Bytes)
  appHashCheck : Option Hash → CtxArgs → (blockTimestamp : UInt64) → World W →
    Except MachinePanic (World W × Except WasmError Hash)

/-! ## Fuel -/

def retrieveX (y : UInt64) (m : Int64 × Int64) (q : Int64) : UInt64 :=
  (y.toInt64 * m.2 / m.1 - q * m.2 / m.1).toUInt64

def retrieveY (x : UInt64) (m : Int64 × Int64) (q : Int64) : UInt64 :=
  (x.toInt64 * m.1 / m.2 + q).toUInt64

def slowGrowthRangeSlope : Int64 × Int64 := (2, 100)

def fastGrowthRangeSlope : Int64 × Int64 := (5, 100)

def saturationRangeSlope : Int64 × Int64 := (1, 1000)

def slowGrowthRangeIntercept : Int64 := -9000

def fastGrowthRangeIntercept : Int64 := -309000

def saturationRangeIntercept : Int64 := 4591000

def wmFuelToBitbell (burntWmFuel : UInt64) : UInt64 :=
  if burntWmFuel ≤ 500000 then 1000
  else if burntWmFuel ≤ 10000000 then
    retrieveY burntWmFuel slowGrowthRangeSlope slowGrowthRangeIntercept
  else if burntWmFuel ≤ 100000000 then
    retrieveY burntWmFuel fastGrowthRangeSlope fastGrowthRangeIntercept
  else retrieveX burntWmFuel saturationRangeSlope saturationRangeIntercept

def bitbellToWmFuel (bitbell : UInt64) : UInt64 :=
  if bitbell ≤ 999 then 0
  else if bitbell ≤ 191000 then
    retrieveX bitbell slowGrowthRangeSlope slowGrowthRangeIntercept
  else if bitbell ≤ 4691000 then
    retrieveX bitbell fastGrowthRangeSlope fastGrowthRangeIntercept
  else retrieveX bitbell saturationRangeSlope saturationRangeIntercept

def calculateWmFuelLimit [Deserialize UInt64] (callerAccountId : String) (accounts : Accounts)
    (height txFuelLimit : UInt64) : UInt64 :=
  if activateFuelConsumption < height then
    match accounts.loadAccount callerAccountId with
    | none => 0
    | some account =>
      match account.assets.lookup "TRINCI" with
      | none => 0
      | some assets =>
        let bitbellLimit := min txFuelLimit ((rmpDeserialize assets).getD 0)
        min (bitbellToWmFuel bitbellLimit) maxWmFuel
  else maxWmFuel

end Trinci
