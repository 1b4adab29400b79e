import Trinci.CoreModels

/-!
# The blocks, confirmations and transactions of a node

The structures of the node with the traits of the core implemented for them.
`NodeHash` is a newtype of `Hash` and is not repeated. A getter that ends in
`unreachable!` for some variant returns an error there.
-/

namespace Trinci

universe u

structure BlockData where
  validator : Option TrinciPublicKey
  height : UInt64
  size : UInt32
  prevHash : Hash
  txsHash : Hash
  rxsHash : Hash
  stateHash : Hash
  timestamp : UInt64
  deriving DecidableEq

structure Block where
  data : BlockData
  signature : Bytes
  deriving DecidableEq

namespace Block

variable [Primitives] [Serialize BlockData]

def getBuilderId (block : Block) : Option String :=
  block.data.validator.bind TrinciPublicKey.accountId?

def getHash (block : Block) : Hash := Hash.primary (rmpSerialize block.data)

def new (builderId : TrinciPublicKey) (hashes : List Hash) (height : UInt64)
    (prevHash : Hash) (timestamp : UInt64) : Block where
  data :=
    { validator := some builderId
      height := height
      size := UInt32.ofNat hashes.length
      prevHash := prevHash
      txsHash := Hash.default
      rxsHash := Hash.default
      stateHash := Hash.default
      timestamp := timestamp }
  signature := []

/-- A failed signature is logged and leaves an empty one. -/
def sign (kp : TrinciKeyPair) (rng : Nat) (block : Block) : Block :=
  { block with signature := match kp.sign rng (rmpSerialize block.data) with
      | .ok signature => signature
      | .error _ => [] }

def verify (block : Block) : Bool :=
  match block.data.validator with
  | some validator => validator.verify (rmpSerialize block.data) block.signature
  | none => false

instance : Executable Block where
  getBuilderId := getBuilderId
  getBuilderPubKey block := block.data.validator
  getHash := getHash
  getHeight block := block.data.height
  getPrevHash block := block.data.prevHash
  getTxsHash block := block.data.txsHash
  getRxsHash block := block.data.rxsHash
  setStateHash block hash := { block with data.stateHash := hash }
  setTxsHash block hash := { block with data.txsHash := hash }
  setRxsHash block hash := { block with data.rxsHash := hash }
  new := new
  sign := sign
  verify := verify
  getHash_sign _ _ _ := rfl
  getHeight_sign _ _ _ := rfl

end Block

structure ConfirmationData where
  blockHash : Hash
  blockHeight : UInt64
  blockRound : UInt8
  signer : TrinciPublicKey
  deriving DecidableEq

structure Confirmation where
  data : ConfirmationData
  signature : Bytes
  deriving DecidableEq

namespace Confirmation

variable [Primitives] [Serialize ConfirmationData]

/-- The id of a signer whose key fits its headers. With any other the source panics:
`getPlayerIdOrPanic` has that. -/
def getPlayerId (confirmation : Confirmation) : String :=
  confirmation.data.signer.accountId?.getD ""

def new (blockHash : Hash) (blockHeight : UInt64) (blockRound : UInt8)
    (signer : TrinciPublicKey) : Confirmation where
  data := ⟨blockHash, blockHeight, blockRound, signer⟩
  signature := []

def sign (kp : TrinciKeyPair) (rng : Nat) (confirmation : Confirmation) : Confirmation :=
  { confirmation with signature := match kp.sign rng (rmpSerialize confirmation.data) with
      | .ok signature => signature
      | .error _ => [] }

def verify (confirmation : Confirmation) : Bool :=
  confirmation.data.signer.verify (rmpSerialize confirmation.data) confirmation.signature

instance : Confirmable Confirmation where
  getBlockHash confirmation := confirmation.data.blockHash
  getBlockHeight confirmation := confirmation.data.blockHeight
  getBlockRound confirmation := confirmation.data.blockRound
  getPlayerId := getPlayerId
  new := new
  sign := sign
  verify := verify
  getBlockHash_sign _ _ _ _ _ _ := rfl
  getBlockHeight_sign _ _ _ _ _ _ := rfl
  getBlockRound_sign _ _ _ _ _ _ := rfl
  getPlayerId_sign _ _ _ _ _ _ := rfl

end Confirmation

structure SmartContractEvent where
  eventTx : Hash
  emitterAccount : String
  emitterSmartContract : Hash
  eventName : String
  eventData : Bytes
  deriving DecidableEq

structure Receipt where
  height : UInt64
  index : UInt32
  burnedFuel : UInt64
  success : Bool
  returns : Bytes
  events : Option (List SmartContractEvent)
  deriving DecidableEq

def Receipt.getHash [Primitives] [Serialize Receipt] (receipt : Receipt) : Hash :=
  Hash.primary (rmpSerialize receipt)

/-! ## Transactions -/

structure TransactionDataV1 where
  account : String
  fuelLimit : UInt64
  nonce : Bytes
  network : String
  contract : Option Hash
  method : String
  caller : TrinciPublicKey
  args : Bytes
  deriving DecidableEq

structure EmptyTransactionDataV1 where
  fuelLimit : UInt64
  nonce : Bytes
  network : String
  caller : TrinciPublicKey
  deriving DecidableEq

structure TransactionDataBulkNodeV1 extends TransactionDataV1 where
  dependsOn : Hash
  deriving DecidableEq

/-- The signed and unsigned wrappers are generic in the payload they hold, which
is a payload again inside a bulk. -/
structure SignedTransactionOf (D : Type u) where
  data : D
  signature : Bytes

structure UnsignedTransactionOf (D : Type u) where
  data : D

structure BulkTransactionsOf (D : Type u) where
  root : UnsignedTransactionOf D
  nodes : Option (List (SignedTransactionOf D))

structure TransactionDataBulkV1Of (D : Type u) where
  txs : BulkTransactionsOf D

inductive TransactionData
  | v1 (txData : TransactionDataV1)
  | bulkNodeV1 (txData : TransactionDataBulkNodeV1)
  | bulkRootV1 (txData : TransactionDataV1)
  | bulkV1 (txData : TransactionDataBulkV1Of TransactionData)
  | bulkEmptyRoot (txData : EmptyTransactionDataV1)

abbrev SignedTransaction := SignedTransactionOf TransactionData

abbrev UnsignedTransaction := UnsignedTransactionOf TransactionData

abbrev BulkTransactions := BulkTransactionsOf TransactionData

abbrev TransactionDataBulkV1 := TransactionDataBulkV1Of TransactionData

/-- The getters that have no case for a variant. -/
inductive TransactionPanic
  | noMethod
  | noArgs
  | noContract
  | noDependency
  | noSetContract
  | noSetAccount
  deriving DecidableEq

def TransactionDataV1.checkIntegrity (txData : TransactionDataV1) : Bool :=
  !txData.account.isEmpty && !txData.nonce.isEmpty && !txData.network.isEmpty &&
    !txData.method.isEmpty

namespace TransactionData

def getCaller : TransactionData → TrinciPublicKey
  | .v1 txData => txData.caller
  | .bulkNodeV1 txData => txData.caller
  | .bulkRootV1 txData => txData.caller
  | .bulkV1 ⟨⟨⟨root⟩, _⟩⟩ => root.getCaller
  | .bulkEmptyRoot txData => txData.caller

def getNetwork : TransactionData → String
  | .v1 txData => txData.network
  | .bulkNodeV1 txData => txData.network
  | .bulkRootV1 txData => txData.network
  | .bulkV1 ⟨⟨⟨root⟩, _⟩⟩ => root.getNetwork
  | .bulkEmptyRoot txData => txData.network

def getAccount : TransactionData → String
  | .v1 txData => txData.account
  | .bulkNodeV1 txData => txData.account
  | .bulkRootV1 txData => txData.account
  | .bulkV1 ⟨⟨⟨root⟩, _⟩⟩ => root.getAccount
  | .bulkEmptyRoot _ => ""

def getMethod : TransactionData → Except TransactionPanic String
  | .v1 txData => .ok txData.method
  | .bulkNodeV1 txData => .ok txData.method
  | .bulkRootV1 txData => .ok txData.method
  | .bulkV1 ⟨⟨⟨root⟩, _⟩⟩ => root.getMethod
  | .bulkEmptyRoot _ => .error .noMethod

def getArgs : TransactionData → Except TransactionPanic Bytes
  | .v1 txData => .ok txData.args
  | .bulkNodeV1 txData => .ok txData.args
  | .bulkRootV1 txData => .ok txData.args
  | .bulkV1 ⟨⟨⟨root⟩, _⟩⟩ => root.getArgs
  | .bulkEmptyRoot _ => .error .noArgs

def getFuelLimit : TransactionData → UInt64
  | .v1 txData => txData.fuelLimit
  | .bulkV1 ⟨⟨⟨.bulkRootV1 txData⟩, _⟩⟩ => txData.fuelLimit
  | .bulkV1 ⟨⟨⟨.bulkEmptyRoot txData⟩, _⟩⟩ => txData.fuelLimit
  | .bulkV1 _ => 0
  | .bulkNodeV1 _ => 0
  | .bulkRootV1 _ => 0
  | .bulkEmptyRoot _ => 0

def getContract : TransactionData → Except TransactionPanic (Option Hash)
  | .v1 txData => .ok txData.contract
  | .bulkNodeV1 txData => .ok txData.contract
  | .bulkRootV1 txData => .ok txData.contract
  | .bulkV1 ⟨⟨⟨root⟩, _⟩⟩ => root.getContract
  | .bulkEmptyRoot _ => .error .noContract

def getDependency : TransactionData → Except TransactionPanic (Option Hash)
  | .bulkNodeV1 txData => .ok (some txData.dependsOn)
  | _ => .error .noDependency

def getHash [Primitives] [Serialize TransactionData] (data : TransactionData) : Hash :=
  Hash.primary (rmpSerialize data)

def verify [Primitives] [Serialize TransactionData] (data : TransactionData)
    (publicKey : TrinciPublicKey) (signature : Bytes) : Bool :=
  publicKey.verify (rmpSerialize data) signature

end TransactionData

namespace TransactionDataBulkV1

/-- The loop over the nodes of a bulk: the first failed check decides. -/
def checkNodes (rootHash : Hash) (network : String) :
    List SignedTransaction → Except TransactionPanic Bool
  | [] => .ok true
  | node :: nodes => do
    match ← node.data.getDependency with
    | none => return false
    | some depHash =>
      if depHash ≠ rootHash then return false
      else if node.data.getNetwork ≠ network then return false
      else checkNodes rootHash network nodes

def checkIntegrity [Primitives] [Serialize TransactionData] (txData : TransactionDataBulkV1) :
    Except TransactionPanic Bool :=
  match txData.txs.nodes with
  | none => .ok false
  | some [] => .ok false
  | some nodes =>
    checkNodes txData.txs.root.data.getHash txData.txs.root.data.getNetwork nodes

end TransactionDataBulkV1

def TransactionData.checkIntegrity [Primitives] [Serialize TransactionData] :
    TransactionData → Except TransactionPanic Bool
  | .bulkV1 txData => TransactionDataBulkV1.checkIntegrity txData
  | .v1 txData => .ok txData.checkIntegrity
  | _ => .ok false

/-- `BulkTransaction` has the fields of `SignedTransaction`. -/
inductive Transaction
  | unitTransaction (tx : SignedTransaction)
  | bulkTransaction (tx : SignedTransaction)

namespace Transaction

def data : Transaction → TransactionData
  | .unitTransaction tx => tx.data
  | .bulkTransaction tx => tx.data

def getSignature : Transaction → Bytes
  | .unitTransaction tx => tx.signature
  | .bulkTransaction tx => tx.signature

def getCaller (tx : Transaction) : TrinciPublicKey := tx.data.getCaller

def getNetwork (tx : Transaction) : String := tx.data.getNetwork

def getAccount (tx : Transaction) : String := tx.data.getAccount

def getMethod (tx : Transaction) : Except TransactionPanic String := tx.data.getMethod

def getArgs (tx : Transaction) : Except TransactionPanic Bytes := tx.data.getArgs

def getContract (tx : Transaction) : Except TransactionPanic (Option Hash) :=
  tx.data.getContract

def getFuelLimit (tx : Transaction) : UInt64 := tx.data.getFuelLimit

variable [Primitives] [Serialize TransactionData]

def getHash (tx : Transaction) : Hash := tx.data.getHash

def checkIntegrity (tx : Transaction) : Except TransactionPanic Bool :=
  tx.data.checkIntegrity

def verify (tx : Transaction) : Except TransactionPanic Bool := do
  if ← tx.checkIntegrity then
    return tx.data.verify tx.getCaller tx.getSignature
  else return false

instance : Transactable Transaction where
  getHash := getHash
  verify tx := tx.verify.toOption

end Transaction

/-! ## A small network

Stand-ins for the crates that can be evaluated: a digest that keeps the first
bytes, signatures that name the key and repeat the data, and account ids for the
keys used below. They agree with the real ones in what the examples rely on:
different inputs get different digests and ids, and a signature verifies for its
own key and data only. -/

namespace Sample

scoped instance primitives : Primitives where
  sha256 data := data.take 32 ++ List.replicate (32 - data.length) 0
  sha256_length data := by
    rw [List.length_append, List.length_take, List.length_replicate]
    omega
  ringPublicKey _ pkcs8 := 4 :: (pkcs8 ++ pkcs8)
  ringSign _ pkcs8 _ data := .ok (4 :: (pkcs8 ++ pkcs8) ++ data)
  ringVerify _ key data sig := sig == key ++ data
  bs58 bytes :=
    if bytes.getD 33 0 = 1 then "alice" else if bytes.getD 33 0 = 2 then "bob" else "carol"

scoped instance blockData : Serialize BlockData where
  rmpSerialize data := [data.height.toUInt8, data.timestamp.toUInt8, data.size.toUInt8] ++
    data.prevHash.bytes.take 6 ++ data.txsHash.bytes.take 6

scoped instance confirmationData : Serialize ConfirmationData where
  rmpSerialize data := data.blockHash.bytes.take 12 ++
    [data.blockHeight.toUInt8, data.blockRound] ++ data.signer.value.take 2

/-- The key pair on a curve whose bytes are all `n`. Its public key is a point without
compression: the byte four and two coordinates. -/
def keypair (n : UInt8) : TrinciKeyPair := .ecdsa .secp256R1 (List.replicate 32 n)

end Sample

end Trinci
