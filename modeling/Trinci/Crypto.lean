import Mathlib.Data.List.Basic

/-!
# Multihashes, public keys and account identifiers

The crates `ring` (digest, signing, verification) and `bs58` are parameters:
only the lengths `ring` documents are recorded here. Signing takes the entropy
that the key pair draws from the system generator. Serialisation by `rmp_serde`
is a parameter too, one instance for each serialised type. A panic of the code
is a value, so that its absence can be stated.
-/

namespace Trinci

universe u

abbrev Bytes := List UInt8

inductive CurveId
  | secp256R1
  | secp384R1
  deriving DecidableEq

inductive CryptoAlg
  | ecdsa (curveId : CurveId)
  | ed25519
  deriving DecidableEq

inductive HashAlgorithm
  | identity
  | sha256
  deriving DecidableEq

inductive CryptoError
  | cryptoAlgUnspecifiedError
  | malformedData (reason : String)
  deriving DecidableEq

/-- The third-party primitives the node is built on. -/
class Primitives where
  sha256 : Bytes → Bytes
  sha256_length : ∀ data, (sha256 data).length = 32
  ringPublicKey : CryptoAlg → Bytes → Bytes
  ringSign : CryptoAlg → Bytes → Nat → Bytes → Except CryptoError Bytes
  ringVerify : CryptoAlg → Bytes → Bytes → Bytes → Bool
  bs58 : Bytes → String

/-- `rmp_serialize` at one type. The types of the node derive `Serialize` and
hold no sequence of unknown length, so writing into a vector does not fail. -/
class Serialize (α : Type u) where
  rmpSerialize : α → Bytes

export Serialize (rmpSerialize)

def multihashValueLenMax : Nat := 36

def multihashBytesLenMax : Nat := 2 + multihashValueLenMax

def multihashTypeIdentity : UInt8 := 0x00

def multihashTypeSha256 : UInt8 := 0x12

structure Hash where
  bytes : Bytes
  length_bytes : bytes.length = multihashBytesLenMax
  deriving DecidableEq

namespace Hash

def default : Hash :=
  ⟨List.replicate multihashBytesLenMax 0, List.length_replicate⟩

instance : Inhabited Hash := ⟨default⟩

/-- The tag, the value length and the value, padded with zeros. -/
def pack (tag : UInt8) (value : Bytes) (fits : value.length ≤ multihashValueLenMax) : Hash where
  bytes := tag :: UInt8.ofNat value.length ::
    (value ++ List.replicate (multihashValueLenMax - value.length) 0)
  length_bytes := by
    simp only [List.length_cons, List.length_append, List.length_replicate,
      multihashBytesLenMax]
    omega

/-- The conversion of the length to a byte cannot fail after the first check. -/
def new (alg : HashAlgorithm) (value : Bytes) : Except CryptoError Hash :=
  if fits : value.length ≤ multihashValueLenMax then
    match alg with
    | .identity => .ok (pack multihashTypeIdentity value fits)
    | .sha256 =>
      if value.length > 32 then
        .error (.malformedData "Hash length greater than 32 for SHA256")
      else
        .ok (pack multihashTypeSha256 value fits)
  else
    .error (.malformedData "Multihash length exceeded maximum (36)")

def hashSize (h : Hash) : Nat := (h.bytes.getD 1 0).toNat

def size (h : Hash) : Nat := 2 + h.hashSize

def asBytes (h : Hash) : Bytes := h.bytes.take h.size

def fromBytes (bytes : Bytes) : Except CryptoError Hash :=
  match bytes with
  | tag :: len :: value =>
    if len.toNat ≠ value.length then
      .error (.malformedData "Multihash length and hash value length error ")
    else if tag = multihashTypeIdentity then
      new .identity value
    else if tag = multihashTypeSha256 then
      new .sha256 value
    else
      .error (.malformedData
        "Couldn't find hash algorithm from algorithm identifier byte")
  | _ => .error (.malformedData "Multihash length lower than 2")

def fromData [Primitives] (alg : HashAlgorithm) (data : Bytes) : Except CryptoError Hash :=
  match alg with
  | .identity => new .identity data
  | .sha256 => new .sha256 (Primitives.sha256 data)

/-- `primary_hash` of serialised data. SHA-256 always has a hash, so the
`expect` behind every use of it never fires. -/
def primary [Primitives] (data : Bytes) : Hash :=
  pack multihashTypeSha256 (Primitives.sha256 data)
    (by rw [Primitives.sha256_length]; decide)

theorem fromData_sha256 [Primitives] (data : Bytes) :
    fromData .sha256 data = .ok (primary data) := by
  have short : ¬ (Primitives.sha256 data).length > 32 := by
    rw [Primitives.sha256_length]
    omega
  have fits : (Primitives.sha256 data).length ≤ multihashValueLenMax := by
    rw [Primitives.sha256_length]
    decide
  simp only [fromData, new, dif_pos fits, if_neg short, primary]

end Hash

/-- The conversions to a byte in the headers of a public key. -/
inductive KeyPanic
  | bitStringLength
  | structLength
  | payloadLength
  deriving DecidableEq

def getCurveOid : CurveId → Bytes
  | .secp256R1 => [0x06, 0x08, 0x2A, 0x86, 0x48, 0xCE, 0x3D, 0x03, 0x01, 0x07]
  | .secp384R1 => [0x06, 0x05, 0x2b, 0x81, 0x04, 0x00, 0x22]

def ecOid : Bytes := [0x06, 0x07, 0x2a, 0x86, 0x48, 0xce, 0x3d, 0x02, 0x01]

def addAsn1X509Header (curveId : CurveId) (keyBytes : Bytes) : Except KeyPanic Bytes :=
  let oids := ecOid ++ getCurveOid curveId
  if keyBytes.length + 1 > 255 then
    .error .bitStringLength
  else
    let body := [0x30, UInt8.ofNat oids.length] ++ oids ++
      [0x03, UInt8.ofNat (keyBytes.length + 1), 0x00] ++ keyBytes
    if body.length > 255 then
      .error .structLength
    else
      .ok ([0x30, UInt8.ofNat body.length] ++ body)

def addProtobufHeader (buf : Bytes) (alg : CryptoAlg) : Except KeyPanic Bytes :=
  let algByte : UInt8 := match alg with
    | .ecdsa _ => 0x03
    | .ed25519 => 0x01
  if buf.length > 255 then
    .error .payloadLength
  else
    .ok ([0x08, algByte, 0x12, UInt8.ofNat buf.length] ++ buf)

inductive TrinciPublicKey
  | ecdsa (curveId : CurveId) (value : Bytes)
  | ed25519 (value : Bytes)
  deriving DecidableEq

namespace TrinciPublicKey

def alg : TrinciPublicKey → CryptoAlg
  | .ecdsa curveId _ => .ecdsa curveId
  | .ed25519 _ => .ed25519

def value : TrinciPublicKey → Bytes
  | .ecdsa _ value => value
  | .ed25519 value => value

def verify [Primitives] (key : TrinciPublicKey) (data sig : Bytes) : Bool :=
  Primitives.ringVerify key.alg key.value data sig

def toAccountId [Primitives] : TrinciPublicKey → Except KeyPanic (Except CryptoError String)
  | .ecdsa curveId value => do
    let bytes ← addAsn1X509Header curveId value
    let bytes ← addProtobufHeader bytes (.ecdsa curveId)
    return (Hash.fromData .sha256 bytes).map fun hash => Primitives.bs58 hash.asBytes
  | .ed25519 value => do
    let bytes ← addProtobufHeader value .ed25519
    return (Hash.fromData .identity bytes).map fun hash => Primitives.bs58 hash.asBytes

/-- The account id where one is returned. A panic of `to_account_id` takes the
whole service down and is recorded as the absence of an id here. -/
def accountId? [Primitives] (key : TrinciPublicKey) : Option String :=
  match key.toAccountId with
  | .ok (.ok id) => some id
  | _ => none

end TrinciPublicKey

/-- A key pair is kept as the PKCS#8 document it was loaded from. -/
inductive TrinciKeyPair
  | ecdsa (curveId : CurveId) (pkcs8 : Bytes)
  | ed25519 (pkcs8 : Bytes)
  deriving DecidableEq

namespace TrinciKeyPair

def publicKey [Primitives] : TrinciKeyPair → TrinciPublicKey
  | .ecdsa curveId pkcs8 => .ecdsa curveId (Primitives.ringPublicKey (.ecdsa curveId) pkcs8)
  | .ed25519 pkcs8 => .ed25519 (Primitives.ringPublicKey .ed25519 pkcs8)

def sign [Primitives] (kp : TrinciKeyPair) (rng : Nat) (data : Bytes) :
    Except CryptoError Bytes :=
  match kp with
  | .ecdsa curveId pkcs8 => Primitives.ringSign (.ecdsa curveId) pkcs8 rng data
  | .ed25519 pkcs8 => Primitives.ringSign .ed25519 pkcs8 rng data

end TrinciKeyPair

end Trinci
