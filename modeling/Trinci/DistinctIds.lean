import Trinci.AccountIds
import Trinci.Multihash
import Trinci.Radix

/-!
# Keys with one account id

The bytes of an account id tell its key if SHA-256 takes no two encodings to one digest
and base58 no two byte strings to one text. The tag of the multihash separates the keys
that are hashed from those that are kept as they are, and the length of the object
identifiers separates the curves.
-/

namespace Trinci

/-! ## The encodings -/

namespace TrinciPublicKey

/-- The key under its headers. -/
def encoding : TrinciPublicKey → Except KeyPanic Bytes
  | .ecdsa curveId value => addAsn1X509Header curveId value >>= fun bytes =>
      addProtobufHeader bytes (.ecdsa curveId)
  | .ed25519 value => addProtobufHeader value .ed25519

end TrinciPublicKey

section Headers

variable {curveId curveId' : CurveId} {keyBytes keyBytes' buf buf' bytes : Bytes}
  {alg alg' : CryptoAlg}

theorem addProtobufHeader_drop (h : addProtobufHeader buf alg = .ok bytes) :
    bytes.drop 4 = buf := by
  obtain ⟨algByte, size, rfl⟩ := addProtobufHeader_bytes h
  rfl

theorem addProtobufHeader_injective (h : addProtobufHeader buf alg = .ok bytes)
    (h' : addProtobufHeader buf' alg' = .ok bytes) : buf = buf' := by
  rw [← addProtobufHeader_drop h, addProtobufHeader_drop h']

/-- What stands before a key on a curve, but for the two lengths that depend on the key. -/
theorem addAsn1X509Header_eq (h : addAsn1X509Header curveId keyBytes = .ok bytes) :
    bytes.drop 3 = UInt8.ofNat (ecOid ++ getCurveOid curveId).length ::
        (ecOid ++ getCurveOid curveId ++
          [0x03, UInt8.ofNat (keyBytes.length + 1), 0x00] ++ keyBytes) ∧
      bytes.drop (headerLength curveId) = keyBytes := by
  obtain ⟨size, rfl⟩ := addAsn1X509Header_bytes h
  cases curveId <;> exact ⟨rfl, rfl⟩

/-- The byte before the object identifiers is 19 for one curve and 16 for the other. -/
theorem addAsn1X509Header_injective (h : addAsn1X509Header curveId keyBytes = .ok bytes)
    (h' : addAsn1X509Header curveId' keyBytes' = .ok bytes) :
    curveId = curveId' ∧ keyBytes = keyBytes' := by
  obtain ⟨oids, key⟩ := addAsn1X509Header_eq h
  obtain ⟨oids', key'⟩ := addAsn1X509Header_eq h'
  have curves : curveId = curveId' := by
    rw [oids] at oids'
    have sizes := (List.cons.inj oids').1
    cases curveId <;> cases curveId' <;> first | rfl | exact absurd sizes (by decide)
  refine ⟨curves, ?_⟩
  rw [← key, ← key', curves]

theorem encoding_ecdsa_injective
    (h : (TrinciPublicKey.ecdsa curveId keyBytes).encoding = .ok bytes)
    (h' : (TrinciPublicKey.ecdsa curveId' keyBytes').encoding = .ok bytes) :
    curveId = curveId' ∧ keyBytes = keyBytes' := by
  rw [TrinciPublicKey.encoding] at h h'
  cases hheaded : addAsn1X509Header curveId keyBytes with
  | error p =>
    rw [hheaded] at h
    cases h
  | ok headed =>
    cases hheaded' : addAsn1X509Header curveId' keyBytes' with
    | error p =>
      rw [hheaded'] at h'
      cases h'
    | ok headed' =>
      rw [hheaded] at h
      rw [hheaded'] at h'
      change addProtobufHeader headed (.ecdsa curveId) = .ok bytes at h
      change addProtobufHeader headed' (.ecdsa curveId') = .ok bytes at h'
      have payload : headed = headed' := addProtobufHeader_injective h h'
      rw [← payload] at hheaded'
      exact addAsn1X509Header_injective hheaded hheaded'

end Headers

/-! ## The ids -/

theorem Hash.asBytes_new {alg : HashAlgorithm} {value : Bytes} {hash : Hash}
    (h : new alg value = .ok hash) :
    hash.asBytes = tagOf alg :: UInt8.ofNat value.length :: value := by
  obtain ⟨fits, rfl⟩ := new_packs h
  exact asBytes_pack fits

section Ids

variable [Primitives]

/-- What SHA-256 is applied to for the ids of some keys. -/
def hashedEncodings (keys : Set TrinciPublicKey) : Set Bytes :=
  {bytes | ∃ curveId value, .ecdsa curveId value ∈ keys ∧
    (TrinciPublicKey.ecdsa curveId value).encoding = .ok bytes}

namespace TrinciPublicKey

/-- The bytes of the hash that base58 writes. -/
def multihash : TrinciPublicKey → Bytes → Bytes
  | .ecdsa _ _, bytes => multihashTypeSha256 :: 32 :: Primitives.sha256 bytes
  | .ed25519 _, bytes => multihashTypeIdentity :: UInt8.ofNat bytes.length :: bytes

theorem asBytes_fromData_sha256 {data : Bytes} {hash : Hash}
    (h : Hash.fromData .sha256 data = .ok hash) :
    hash.asBytes = multihashTypeSha256 :: 32 :: Primitives.sha256 data := by
  rw [Hash.asBytes_new (show Hash.new .sha256 (Primitives.sha256 data) = .ok hash from h),
    Primitives.sha256_length]
  rfl

omit [Primitives] in
theorem map_eq_ok {ε α β : Type} {x : Except ε α} {f : α → β} {b : β} (h : x.map f = .ok b) :
    ∃ a, x = .ok a ∧ b = f a := by
  cases x with
  | error e => cases h
  | ok a => exact ⟨a, rfl, (Except.ok.inj h).symm⟩

theorem toAccountId_reads {key : TrinciPublicKey} {id : String}
    (h : key.toAccountId = .ok (.ok id)) :
    ∃ bytes, key.encoding = .ok bytes ∧ id = Primitives.bs58 (key.multihash bytes) := by
  cases key with
  | ecdsa curveId value =>
    rw [toAccountId_ecdsa] at h
    obtain ⟨bytes, hencoding, h⟩ := map_eq_ok h
    obtain ⟨hash, hhash, hid⟩ := map_eq_ok h.symm
    rw [asBytes_fromData_sha256 hhash] at hid
    exact ⟨bytes, hencoding, hid⟩
  | ed25519 value =>
    rw [toAccountId_ed25519] at h
    obtain ⟨bytes, hencoding, h⟩ := map_eq_ok h
    obtain ⟨hash, hhash, hid⟩ := map_eq_ok h.symm
    rw [Hash.asBytes_new (show Hash.new .identity bytes = .ok hash from hhash)] at hid
    exact ⟨bytes, hencoding, hid⟩

/-- The tags differ, so a digest is never taken for a key that is kept as it is. -/
theorem multihash_injective {keys : Set TrinciPublicKey}
    (collisionFree : Set.InjOn Primitives.sha256 (hashedEncodings keys))
    {key key' : TrinciPublicKey} {bytes bytes' : Bytes} (mem : key ∈ keys) (mem' : key' ∈ keys)
    (h : key.encoding = .ok bytes) (h' : key'.encoding = .ok bytes')
    (same : key.multihash bytes = key'.multihash bytes') : key = key' := by
  cases key with
  | ecdsa curveId value =>
    cases key' with
    | ecdsa curveId' value' =>
      have digests : Primitives.sha256 bytes = Primitives.sha256 bytes' :=
        (List.cons.inj (List.cons.inj same).2).2
      have encodings : bytes = bytes' :=
        collisionFree ⟨curveId, value, mem, h⟩ ⟨curveId', value', mem', h'⟩ digests
      rw [← encodings] at h'
      obtain ⟨rfl, rfl⟩ := encoding_ecdsa_injective h h'
      rfl
    | ed25519 value' => exact absurd (List.cons.inj same).1 (by decide)
  | ed25519 value =>
    cases key' with
    | ecdsa curveId' value' => exact absurd (List.cons.inj same).1 (by decide)
    | ed25519 value' =>
      have encodings : bytes = bytes' := (List.cons.inj (List.cons.inj same).2).2
      rw [← encodings] at h'
      change addProtobufHeader value .ed25519 = .ok bytes at h
      change addProtobufHeader value' .ed25519 = .ok bytes at h'
      rw [addProtobufHeader_injective h h']

/-- Among any keys on whose encodings SHA-256 has no collision, each id belongs to one key.
Over all keys there are collisions, so the encodings are named. -/
theorem toAccountId_injOn (keys : Set TrinciPublicKey)
    (base58 : Function.Injective Primitives.bs58)
    (collisionFree : Set.InjOn Primitives.sha256 (hashedEncodings keys)) :
    ∀ k₁ ∈ keys, ∀ k₂ ∈ keys, ∀ id₁ id₂, k₁.toAccountId = .ok (.ok id₁) →
      k₂.toAccountId = .ok (.ok id₂) → (id₁ = id₂ ↔ k₁ = k₂) := by
  intro k₁ mem₁ k₂ mem₂ id₁ id₂ h₁ h₂
  constructor
  · intro same
    obtain ⟨bytes₁, hencoding₁, hid₁⟩ := toAccountId_reads h₁
    obtain ⟨bytes₂, hencoding₂, hid₂⟩ := toAccountId_reads h₂
    rw [hid₁, hid₂] at same
    exact multihash_injective collisionFree mem₁ mem₂ hencoding₁ hencoding₂ (base58 same)
  · rintro rfl
    rw [h₁] at h₂
    exact Except.ok.inj (Except.ok.inj h₂)

end TrinciPublicKey

end Ids

/-! ## Base58 -/

namespace Base58

def alphabet : List Char := "123456789ABCDEFGHJKLMNPQRSTUVWXYZabcdefghijkmnopqrstuvwxyz".toList

def symbol (digit : Nat) : Char := alphabet.getD digit '1'

/-- `encode` of the crate `bs58`, with the alphabet it has by default. -/
def encode (bytes : Bytes) : String :=
  String.ofList ((Radix.recode 256 58 (bytes.map UInt8.toNat)).map symbol)

def digit (symbol : Char) : Nat := alphabet.idxOf symbol

/-- What the crate reads back from an encoded text. -/
def decode (text : String) : Bytes :=
  (Radix.recode 58 256 (text.toList.map digit)).map UInt8.ofNat

theorem digit_symbol : ∀ d < 58, digit (symbol d) = d := by decide +kernel

theorem map_digit_symbol {digits : List Nat} (valid : ∀ d ∈ digits, d < 58) :
    (digits.map symbol).map digit = digits := by
  rw [List.map_map]
  calc digits.map (digit ∘ symbol) = digits.map id := by
        apply List.map_congr_left
        intro d hd
        exact digit_symbol d (valid d hd)
    _ = digits := List.map_id digits

theorem decode_encode (bytes : Bytes) : decode (encode bytes) = bytes := by
  have small : ∀ d ∈ bytes.map UInt8.toNat, d < 256 := by
    intro d hd
    obtain ⟨byte, -, rfl⟩ := List.mem_map.mp hd
    exact byte.toNat_lt
  have valid : ∀ d ∈ Radix.recode 256 58 (bytes.map UInt8.toNat), d < 58 :=
    Radix.recode_lt (by omega)
  rw [decode, encode, String.toList_ofList, map_digit_symbol valid,
    Radix.recode_recode (by omega) small, List.map_map]
  calc bytes.map (UInt8.ofNat ∘ UInt8.toNat) = bytes.map id := by
        apply List.map_congr_left
        intro byte _
        exact UInt8.ofNat_toNat
    _ = bytes := List.map_id bytes

theorem encode_injective : Function.Injective encode :=
  Function.LeftInverse.injective decode_encode

end Base58

namespace KeySample

/-- A key on each curve and one that is kept as it is. -/
def point256 : TrinciPublicKey := .ecdsa .secp256R1 (List.replicate 65 4)

def point384 : TrinciPublicKey := .ecdsa .secp384R1 (List.replicate 97 4)

def kept : TrinciPublicKey := .ed25519 (List.replicate 32 4)

/-- SHA-256 on the encodings of the two points, of 95 and 124 bytes, and base58. -/
scoped instance primitives : Primitives where
  sha256 data :=
    if data.length = 95 then
      [231, 22, 105, 119, 79, 20, 173, 109, 71, 96, 56, 168, 237, 193, 56, 128, 81, 64, 97, 171,
        132, 65, 126, 111, 178, 220, 64, 25, 54, 135, 231, 131]
    else
      [171, 124, 239, 49, 194, 226, 254, 140, 11, 202, 16, 50, 106, 230, 27, 202, 214, 81, 111,
        147, 98, 154, 47, 12, 225, 23, 254, 47, 20, 219, 89, 169]
  sha256_length data := by
    split <;> rfl
  ringPublicKey _ pkcs8 := pkcs8
  ringSign _ _ _ _ := .error .cryptoAlgUnspecifiedError
  ringVerify _ _ _ _ := false
  bs58 := Base58.encode

theorem sha256_injOn :
    Set.InjOn Primitives.sha256 (hashedEncodings {point256, point384, kept}) := by
  have hashed : ∀ bytes ∈ hashedEncodings {point256, point384, kept},
      point256.encoding = .ok bytes ∨ point384.encoding = .ok bytes := by
    rintro bytes ⟨curveId, value, hkey | hkey | hkey, h⟩
    · exact .inl (hkey ▸ h)
    · exact .inr (hkey ▸ h)
    · cases hkey
  intro bytes mem bytes' mem' same
  rcases hashed bytes mem with h | h <;> rcases hashed bytes' mem' with h' | h'
  · exact Except.ok.inj (h.symm.trans h')
  · cases h
    cases h'
    exact absurd same (by decide)
  · cases h
    cases h'
    exact absurd same (by decide)
  · exact Except.ok.inj (h.symm.trans h')

/-- The two points and the kept key have three ids. -/
theorem three_ids :
    ∃ id₁ id₂ id₃, point256.toAccountId = .ok (.ok id₁) ∧ point384.toAccountId = .ok (.ok id₂) ∧
      kept.toAccountId = .ok (.ok id₃) ∧ id₁ ≠ id₂ ∧ id₁ ≠ id₃ ∧ id₂ ≠ id₃ := by
  have read₁ : TrinciPublicKey.deserialize (.ecdsa .secp256R1) (List.replicate 65 4) =
    .ok point256 := rfl
  have read₂ : TrinciPublicKey.deserialize (.ecdsa .secp384R1) (List.replicate 97 4) =
    .ok point384 := rfl
  have read₃ : TrinciPublicKey.deserialize .ed25519 (List.replicate 32 4) = .ok kept := rfl
  have fits₁ : headerLength .secp256R1 + (List.replicate 65 (4 : UInt8)).length ≤ 255 := by decide
  have fits₂ : headerLength .secp384R1 + (List.replicate 97 (4 : UInt8)).length ≤ 255 := by decide
  have fits₃ : (List.replicate 32 (4 : UInt8)).length ≤ 255 := by decide
  obtain ⟨id₁, h₁⟩ := toAccountId_of_fits read₁ fits₁
  obtain ⟨id₂, h₂⟩ := toAccountId_of_fits read₂ fits₂
  obtain ⟨id₃, h₃⟩ := toAccountId_of_fits read₃ fits₃
  have belongs := TrinciPublicKey.toAccountId_injOn {point256, point384, kept}
    Base58.encode_injective sha256_injOn
  refine ⟨id₁, id₂, id₃, h₁, h₂, h₃, ?_, ?_, ?_⟩
  · intro same
    exact absurd ((belongs _ (.inl rfl) _ (.inr (.inl rfl)) _ _ h₁ h₂).mp same) (by decide)
  · intro same
    exact absurd ((belongs _ (.inl rfl) _ (.inr (.inr rfl)) _ _ h₁ h₃).mp same) (by decide)
  · intro same
    exact absurd ((belongs _ (.inr (.inl rfl)) _ (.inr (.inr rfl)) _ _ h₂ h₃).mp same) (by decide)

end KeySample

end Trinci
