import Trinci.BlockService
import Trinci.NodeStore

/-!
# The messages of the T2 interface

A message is answered with what the services of the node reply. A reply of another kind, or
none, an answer that cannot be read back and a message that is no request all end in one and
the same error. A packed message holds one message or a sequence of them, packs among them,
in MessagePack, and its answer is packed again.
-/

namespace Trinci

open StatefulSteps

/-! ## Messages -/

inductive RestRequest
  | exception (kind source : String)
  | putTransactionRequest (confirm : Bool) (tx : Transaction)
  | putTransactionResponse (hash : Hash)
  | getTransactionRequest (hash : Hash) (destination : Option String)
  | getTransactionResponse (tx : Transaction) (origin : Option String)
  | getReceiptRequest (hash : Hash)
  | getReceiptResponse (rx : Receipt)
  | getBlockRequest (height : UInt64) (txs : Bool) (destination : Option String)
  | getBlockResponse (block : Block) (txs : Option (List Hash)) (origin : Option String)
  | getAccountRequest (id : String) (data : List String)
  | getAccountResponse (acc : Account) (data : List (Option Bytes))
  | getCoreStatsRequest
  | getCoreStatsResponse (stats : Hash × Nat × Option Block)
  | getNetworkIdRequest
  | getNetworkIdResponse (networkId : String)
  | stop
  | packed (buf : Bytes)

namespace RestRequest

def notFound : RestRequest := .exception "resource not found" "Null"

def malformed : RestRequest := .exception "malformed data" "rest_api"

/-- The tag of a message is written into its fields, so a message that holds a text or a
tuple in their place cannot be written. -/
def serializable : RestRequest → Bool
  | .getCoreStatsResponse _ => false
  | .getNetworkIdResponse _ => false
  | _ => true

end RestRequest

inductive MultiMessage
  | simple (message : RestRequest)
  | sequence (messages : List RestRequest)

namespace MultiMessage

def messages : MultiMessage → List RestRequest
  | .simple message => [message]
  | .sequence messages => messages

/-- Other messages in their places. -/
def withMessages : MultiMessage → List RestRequest → MultiMessage
  | .simple _, message :: _ => .simple message
  | .simple message, [] => .simple message
  | .sequence _, messages => .sequence messages

theorem messages_withMessages {multi : MultiMessage} {messages : List RestRequest}
    (complete : messages.length = multi.messages.length) :
    (multi.withMessages messages).messages = messages := by
  cases multi with
  | simple message =>
    obtain ⟨entry, rfl⟩ := List.length_eq_one_iff.mp complete
    rfl
  | sequence _ => rfl

end MultiMessage

/-- MessagePack, which can write every message whose tag it can write. -/
class RestCodec where
  rmpSerialize : MultiMessage → Option Bytes
  rmpDeserialize : Bytes → Option MultiMessage
  rmpSerialize_isSome : ∀ multi,
    (rmpSerialize multi).isSome = multi.messages.all RestRequest.serializable

/-- Messages are written exactly if each of them can be. -/
theorem RestCodec.writes_iff [RestCodec] {multi : MultiMessage} {messages : List RestRequest}
    (complete : messages.length = multi.messages.length) :
    (∃ bytes, RestCodec.rmpSerialize (multi.withMessages messages) = some bytes) ↔
      ∀ message ∈ messages, message.serializable = true := by
  rw [← Option.isSome_iff_exists, RestCodec.rmpSerialize_isSome,
    MultiMessage.messages_withMessages complete, List.all_eq_true]

/-- The texts of a type in JSON. An empty text is none. -/
class Json (α : Type) where
  toString? : α → Option String
  fromString? : String → Option α
  fromString?_empty : fromString? "" = none

abbrev NodeFullBlock := FullBlock Block Confirmation Transaction

/-! ## The services -/

structure MessageHandlingError where

/-- What the services reply in a state of the node, and the state they leave. -/
structure RestServices (S : Type) where
  hasTx : Hash → S → Reply Bool × S
  propagateTxToPeers : Transaction → S → S
  addTx : Transaction → (size : Nat) → (attachments : Option (List Hash)) → S → S
  getTxs : List Hash → S → Reply (List Transaction) × S
  getRx : Hash → S → Reply (Option Receipt) × S
  getFullBlock : (blockHeight : UInt64) → S → Reply (Option NodeFullBlock) × S
  getAccount : (accountId : String) → S → Reply (Option Account) × S
  getAccountData : (accountId key : String) → S → Reply (Option Bytes) × S
  getPoolLength : S → Reply Nat × S

abbrev RestHandler (S : Type) := Stateful S MessageHandlingError

namespace RestApi

/-- A response. None is made with a status that is no success. -/
structure Response (B : Type) where
  success : Bool
  body : B

namespace Response

def ok {B : Type} (body : B) : Response B := ⟨true, body⟩

@[simp]
theorem success_ok {B : Type} (body : B) : (ok body).success = true := rfl

/-- The body is gone from the response. -/
def takeBody (response : Response String) : String × Response String :=
  (response.body, { response with body := "" })

end Response

variable {S : Type}

/-- `send_req`, with the replies that are accepted. -/
def sendReq {α : Type} (request : S → Reply α × S) : RestHandler S α := do
  match ← modifyGet request with
  | .answer a => return a
  | .wrong => throw ⟨⟩
  | .failed => throw ⟨⟩

def orFail {α : Type} : Option α → RestHandler S α
  | some a => return a
  | none => throw ⟨⟩

/-- The hash goes through its hexadecimal digits and back. -/
def hashParam (hash : Hash) : RestHandler S Hash := orFail (Hash.fromBytes hash.asBytes).toOption

variable [Primitives] [Serialize TransactionData] [Serialize Transaction] [Json Transaction]
  [Json (Option Receipt)] [Json (Option NodeFullBlock)] [Json Account] (services : RestServices S)
  (networkName : String)

def getAccountInternal (accountId : String) : RestHandler S (Response String) := do
  match ← sendReq (services.getAccount accountId) with
  | some account =>
    let json ← orFail (Json.toString? account)
    return .ok json
  | none => return .ok "\x7b\x7d"

def getAccountDataInternal (accountId key : String) : RestHandler S (Response Bytes) := do
  match ← sendReq (services.getAccountData accountId key) with
  | some data => return .ok data
  | none => throw ⟨⟩

def getFullBlockInternal (blockHeight : UInt64) : RestHandler S (Response String) := do
  let fullBlock ← sendReq (services.getFullBlock blockHeight)
  let json ← orFail (Json.toString? fullBlock)
  return .ok json

def getReceiptInternal (receiptHash : Hash) : RestHandler S (Response String) := do
  let receiptHash ← hashParam receiptHash
  let receipt ← sendReq (services.getRx receiptHash)
  let json ← orFail (Json.toString? receipt)
  return .ok json

def getTransactionInternal (transactionHash : Hash) : RestHandler S (Response String) := do
  let transactionHash ← hashParam transactionHash
  match ← sendReq (services.getTxs [transactionHash]) with
  | [] => return .ok ""
  | tx :: _ =>
    let json ← orFail (Json.toString? tx)
    return .ok json

def getUnconfirmedPoolLenInternal : RestHandler S (Response String) := do
  let length ← sendReq services.getPoolLength
  return .ok (toString length)

def submitTxInternal (tx : Transaction) : RestHandler S (Response String) := do
  if tx.getNetwork ≠ networkName then throw ⟨⟩
  let hasTx ← sendReq (services.hasTx tx.getHash)
  if hasTx then return .ok "Tx already present in DB"
  modify (services.propagateTxToPeers tx)
  modify (services.addTx tx (rmpSerialize tx).length (Db.retrieveAttachmentsFromTx tx))
  return .ok "Tx submitted"

/-! ## The requests -/

def putTransaction (tx : Transaction) : RestHandler S RestRequest := do
  if (rmpSerialize tx).length ≥ blockMaxSizeBytes - blockBaseSizeBytes then throw ⟨⟩
  let response ← submitTxInternal services networkName tx
  if response.success then return .putTransactionResponse tx.getHash else throw ⟨⟩

def getTransaction (hash : Hash) : RestHandler S RestRequest := do
  let response ← getTransactionInternal services hash
  if response.success then
    let json := response.takeBody.1
    if json.isEmpty then return .notFound
    let tx ← orFail (Json.fromString? json)
    return .getTransactionResponse tx none
  else return .notFound

def getReceipt (hash : Hash) : RestHandler S RestRequest := do
  let response ← getReceiptInternal services hash
  if response.success then
    let rx : Option Receipt ← orFail (Json.fromString? response.takeBody.1)
    match rx with
    | some rx => return .getReceiptResponse rx
    | none => return .notFound
  else throw ⟨⟩

def getBlock (height : UInt64) (txs : Bool) : RestHandler S RestRequest := do
  let response ← getFullBlockInternal services height
  if response.success then
    let block : Option NodeFullBlock ← orFail (Json.fromString? response.takeBody.1)
    match block with
    | some block =>
      if txs then
        return .getBlockResponse block.block (some (block.txs.map Transaction.getHash)) none
      else return .getBlockResponse block.block none none
    | none => return .notFound
  else throw ⟨⟩

/-- The data of an account under a key. -/
def keyData (id key : String) : RestHandler S (Option Bytes) := do
  let response ← getAccountDataInternal services id key
  if response.success then return some response.body else return none

def getAccount (id : String) (data : List String) : RestHandler S RestRequest := do
  let response ← getAccountInternal services id
  if response.success then
    let json := response.takeBody.1
    if json.isEmpty then return .notFound
    match (Json.fromString? json : Option Account) with
    | some account =>
      let keyData ← data.mapM (keyData services id)
      return .getAccountResponse account keyData
    | none => return .notFound
  else throw ⟨⟩

/-- The body of the first response is taken twice. -/
def getCoreStats : RestHandler S RestRequest := do
  let response ← getUnconfirmedPoolLenInternal services
  if response.success then
    let (unconfirmedPoolLen, response) := response.takeBody
    let responseLastBlock ← getFullBlockInternal services 18446744073709551615
    if responseLastBlock.success then
      let json := response.takeBody.1
      let block : Option NodeFullBlock ← orFail (Json.fromString? json)
      let length ← orFail unconfirmedPoolLen.toNat?
      return .getCoreStatsResponse (Hash.default, length, block.map FullBlock.block)
    else throw ⟨⟩
  else throw ⟨⟩

end RestApi

/-! ## The accounts of the database service -/

namespace DbService

def getAccount (accounts : Accounts) (accountId : String) : Option Account :=
  accounts.loadAccount accountId

/-- The key `*` asks for the keys of the account. -/
def getAccountData [Serialize (List String)] (accounts : Accounts) (accountId key : String) :
    Option Bytes :=
  if key = "*" then some (rmpSerialize (accounts.loadAccountKeys accountId))
  else accounts.loadAccountData accountId key

end DbService

/-! ## Messages and packs -/

namespace RestApi

variable {S : Type} [Primitives] [Serialize TransactionData] [Serialize Transaction]
  [Json Transaction] [Json (Option Receipt)] [Json (Option NodeFullBlock)] [Json Account]
  [RestCodec] (services : RestServices S) (networkName : String)

def arrayHighNibble : UInt8 := 0x90

def maxPackLevel : Nat := 32

/-- The messages of a pack, if its bytes are an array and can be read. -/
def unpacked (buf : Bytes) : Option MultiMessage :=
  if (buf.head?.getD 0) &&& arrayHighNibble ≠ arrayHighNibble then none
  else RestCodec.rmpDeserialize buf

/-- The answers packed. What cannot be written is left empty. -/
def repacked (res : MultiMessage) : RestRequest :=
  .packed ((RestCodec.rmpSerialize res).getD [])

mutual

def handleMessage (packLevel : Nat) : RestRequest → RestHandler S RestRequest
  | .putTransactionRequest _ tx => putTransaction services networkName tx
  | .getTransactionRequest hash _ => getTransaction services hash
  | .getReceiptRequest hash => getReceipt services hash
  | .getBlockRequest height txs _ => getBlock services height txs
  | .getAccountRequest id data => getAccount services id data
  | .getCoreStatsRequest => getCoreStats services
  | .getNetworkIdRequest => return .getNetworkIdResponse networkName
  | .packed buf => handlePackedMessage buf (packLevel + 1)
  | _ => throw ⟨⟩
  termination_by 2 * (maxPackLevel + 2 - packLevel) + 1

def handlePackedMessage (buf : Bytes) (packLevel : Nat) : RestHandler S RestRequest :=
  if _ : packLevel ≥ maxPackLevel then throw ⟨⟩
  else match unpacked buf with
    | none => return .malformed
    | some (.simple message) => do
      let response ← handleMessage (packLevel + 1) message
      return repacked (.simple response)
    | some (.sequence messages) => do
      let responses ← messages.mapM (handleMessage (packLevel + 1))
      return repacked (.sequence responses)
  termination_by 2 * (maxPackLevel + 2 - packLevel)

end

/-- The answer to a request over HTTP, if it is no error. -/
def postMessage (buf : Bytes) : RestHandler S Bytes := do
  match ← handleMessage services networkName 0 (.packed buf) with
  | .packed buf => return buf
  | _ => throw ⟨⟩

end RestApi

end Trinci
