import Trinci.NodeModels

/-!
# Account ids of keys from messages

The account id of a key is a hash of the key under two headers, each of which holds the
length of what follows in one byte. A key of the Ed25519 scheme is decoded from 32 bytes
only. A key on a curve is decoded from any bytes, and its id is asked for before any
signature is checked.
-/

namespace Trinci

namespace TrinciPublicKey

/-- `visit_bytes` of the Ed25519 keys -/
def visitBytes (bytes : Bytes) : Except String Bytes :=
  if bytes.length = 32 then .ok bytes else .error "bytes format invald"

/-- `deserialize`, from the tag and the byte string of a key. -/
def deserialize : CryptoAlg → Bytes → Except String TrinciPublicKey
  | .ecdsa curveId, bytes => .ok (.ecdsa curveId bytes)
  | .ed25519, bytes => (visitBytes bytes).map .ed25519

theorem deserialize_ed25519 {bytes : Bytes} {key : TrinciPublicKey}
    (h : deserialize .ed25519 bytes = .ok key) : bytes.length = 32 ∧ key = .ed25519 bytes := by
  rw [deserialize, visitBytes] at h
  split at h
  · next hlength => exact ⟨hlength, (Except.ok.inj h).symm⟩
  · cases h

end TrinciPublicKey

/-! ## The headers -/

/-- What the header of the curve adds to a key. -/
def headerLength (curveId : CurveId) : Nat := 7 + (ecOid ++ getCurveOid curveId).length

/-- The lengths up to which keys on the curves have an id are 229 and 232 bytes. -/
example : headerLength .secp256R1 = 255 - 229 ∧ headerLength .secp384R1 = 255 - 232 := by decide

section Headers

variable {curveId : CurveId} {keyBytes buf : Bytes} {alg : CryptoAlg}

/-- The header of a key, with the size of all that follows it in one byte. -/
theorem addAsn1X509Header_bytes {bytes : Bytes}
    (h : addAsn1X509Header curveId keyBytes = .ok bytes) :
    ∃ size, bytes = [0x30, size] ++ ([0x30, UInt8.ofNat (ecOid ++ getCurveOid curveId).length] ++
      (ecOid ++ getCurveOid curveId) ++ [0x03, UInt8.ofNat (keyBytes.length + 1), 0x00] ++
        keyBytes) := by
  rw [addAsn1X509Header] at h
  dsimp only at h
  split at h
  · cases h
  · split at h
    · cases h
    · cases h
      exact ⟨_, rfl⟩

theorem addAsn1X509Header_length {bytes : Bytes}
    (h : addAsn1X509Header curveId keyBytes = .ok bytes) :
    bytes.length = headerLength curveId + keyBytes.length := by
  obtain ⟨size, rfl⟩ := addAsn1X509Header_bytes h
  simp only [headerLength, List.length_append, List.length_cons, List.length_nil]
  omega

theorem addAsn1X509Header_isOk (h : headerLength curveId + keyBytes.length ≤ 255) :
    ∃ bytes, addAsn1X509Header curveId keyBytes = .ok bytes := by
  rw [headerLength, List.length_append] at h
  have bitString : ¬ keyBytes.length + 1 > 255 := by omega
  rw [addAsn1X509Header]
  dsimp only
  rw [if_neg bitString]
  refine ⟨_, if_neg ?_⟩
  simp only [List.length_append, List.length_cons, List.length_nil]
  omega

theorem addProtobufHeader_isOk_iff :
    (∃ bytes, addProtobufHeader buf alg = .ok bytes) ↔ buf.length ≤ 255 := by
  unfold addProtobufHeader
  constructor
  · rintro ⟨bytes, h⟩
    dsimp only at h
    split at h
    · cases h
    · omega
  · intro h
    have payload : ¬ buf.length > 255 := by omega
    exact ⟨_, if_neg payload⟩

theorem addProtobufHeader_bytes {bytes : Bytes} (h : addProtobufHeader buf alg = .ok bytes) :
    ∃ algByte size, bytes = [0x08, algByte, 0x12, size] ++ buf := by
  unfold addProtobufHeader at h
  dsimp only at h
  split at h
  · cases h
  · cases h
    exact ⟨_, _, rfl⟩

theorem addProtobufHeader_length {bytes : Bytes} (h : addProtobufHeader buf alg = .ok bytes) :
    bytes.length = 4 + buf.length := by
  obtain ⟨algByte, size, rfl⟩ := addProtobufHeader_bytes h
  simp only [List.length_append, List.length_cons, List.length_nil]

/-- Both headers can be written around a key if the first leaves one byte for the second. -/
theorem headers_isOk_iff :
    (∃ bytes, (addAsn1X509Header curveId keyBytes >>= fun bytes =>
      addProtobufHeader bytes (.ecdsa curveId)) = .ok bytes) ↔
      headerLength curveId + keyBytes.length ≤ 255 := by
  constructor
  · rintro ⟨bytes, h⟩
    cases hheader : addAsn1X509Header curveId keyBytes with
    | error p =>
      rw [hheader] at h
      cases h
    | ok header =>
      rw [hheader] at h
      change addProtobufHeader header (.ecdsa curveId) = _ at h
      rw [← addAsn1X509Header_length hheader]
      exact addProtobufHeader_isOk_iff.mp ⟨bytes, h⟩
  · intro h
    obtain ⟨header, hheader⟩ := addAsn1X509Header_isOk h
    rw [← addAsn1X509Header_length hheader] at h
    have headed : ∃ bytes, addProtobufHeader header (.ecdsa curveId) = .ok bytes :=
      addProtobufHeader_isOk_iff.mpr h
    rw [hheader]
    exact headed

end Headers

/-! ## The ids -/

section Ids

variable [Primitives]

namespace TrinciPublicKey

/-- Its headers can be written around the key. -/
def FitsHeaders : TrinciPublicKey → Prop
  | .ecdsa curveId value => headerLength curveId + value.length ≤ 255
  | .ed25519 value => value.length ≤ 255

instance : DecidablePred FitsHeaders
  | .ecdsa curveId value => inferInstanceAs (Decidable (headerLength curveId + value.length ≤ 255))
  | .ed25519 value => inferInstanceAs (Decidable (value.length ≤ 255))

theorem toAccountId_ecdsa (curveId : CurveId) (value : Bytes) :
    (ecdsa curveId value).toAccountId = (addAsn1X509Header curveId value >>= fun bytes =>
      addProtobufHeader bytes (.ecdsa curveId)).map fun bytes =>
        (Hash.fromData .sha256 bytes).map fun hash => Primitives.bs58 hash.asBytes := by
  rw [toAccountId]
  cases addAsn1X509Header curveId value with
  | error p => rfl
  | ok header =>
    change (addProtobufHeader header (.ecdsa curveId) >>= fun bytes => pure _) =
      (addProtobufHeader header (.ecdsa curveId)).map _
    cases addProtobufHeader header (.ecdsa curveId) <;> rfl

theorem toAccountId_ed25519 (value : Bytes) :
    (ed25519 value).toAccountId = (addProtobufHeader value .ed25519).map fun bytes =>
      (Hash.fromData .identity bytes).map fun hash => Primitives.bs58 hash.asBytes := by
  rw [toAccountId]
  cases addProtobufHeader value .ed25519 <;> rfl

omit [Primitives] in
theorem isOk_map_iff {ε α β : Type} {x : Except ε α} {f : α → β} :
    (∃ b, x.map f = .ok b) ↔ ∃ a, x = .ok a := by
  cases x with
  | error e =>
    constructor
    · rintro ⟨b, hb⟩
      cases hb
    · rintro ⟨a, ha⟩
      cases ha
  | ok a => exact ⟨fun _ => ⟨a, rfl⟩, fun _ => ⟨f a, rfl⟩⟩

theorem toAccountId_isOk_iff (key : TrinciPublicKey) :
    (∃ id, key.toAccountId = .ok id) ↔ key.FitsHeaders := by
  cases key with
  | ecdsa curveId value =>
    rw [toAccountId_ecdsa, isOk_map_iff]
    exact headers_isOk_iff
  | ed25519 value =>
    rw [toAccountId_ed25519, isOk_map_iff]
    exact addProtobufHeader_isOk_iff

/-- For every key that is decoded from a message: its id is computed, or refused, without a
panic exactly if it is no key on a curve that is too long for the header. -/
theorem toAccountId_returns_iff (alg : CryptoAlg) (bytes : Bytes) (key : TrinciPublicKey)
    (h : deserialize alg bytes = .ok key) :
    (∃ id, key.toAccountId = .ok id) ↔
      ∀ curveId, alg = .ecdsa curveId → headerLength curveId + bytes.length ≤ 255 := by
  rw [toAccountId_isOk_iff]
  cases alg with
  | ecdsa curveId =>
    cases h
    constructor
    · intro fits curveId' hcurve
      cases hcurve
      exact fits
    · exact fun fits => fits curveId rfl
  | ed25519 =>
    obtain ⟨hlength, rfl⟩ := deserialize_ed25519 h
    have fits : (ed25519 bytes).FitsHeaders := by
      change bytes.length ≤ 255
      omega
    refine iff_of_true fits fun curveId hcurve => ?_
    cases hcurve

end TrinciPublicKey

/-- A decoded key that fits has an id: no hash of it is refused. -/
theorem toAccountId_of_fits {alg : CryptoAlg} {bytes : Bytes} {key : TrinciPublicKey}
    (h : TrinciPublicKey.deserialize alg bytes = .ok key) (fits : key.FitsHeaders) :
    ∃ id, key.toAccountId = .ok (.ok id) := by
  cases alg with
  | ecdsa curveId =>
    cases h
    obtain ⟨headed, hheaded⟩ := headers_isOk_iff.mpr fits
    rw [TrinciPublicKey.toAccountId_ecdsa, hheaded, Except.map, Hash.fromData_sha256]
    exact ⟨_, rfl⟩
  | ed25519 =>
    obtain ⟨hlength, rfl⟩ := TrinciPublicKey.deserialize_ed25519 h
    obtain ⟨headed, hheaded⟩ := addProtobufHeader_isOk_iff.mpr fits
    have short : headed.length ≤ multihashValueLenMax := by
      rw [addProtobufHeader_length hheaded, hlength]
      decide
    have hashed : Hash.fromData .identity headed =
        .ok (Hash.pack multihashTypeIdentity headed short) := dif_pos short
    rw [TrinciPublicKey.toAccountId_ed25519, hheaded, Except.map, hashed]
    exact ⟨_, rfl⟩

/-! ## Who asks for ids -/

/-- `get_player_id`, with its panic. -/
def Confirmation.getPlayerIdOrPanic (confirmation : Confirmation) : Except KeyPanic String :=
  confirmation.data.signer.toAccountId.map fun id => id.toOption.getD ""

/-- `get_builder_id`, with its panic. -/
def Block.getBuilderIdOrPanic (block : Block) : Except KeyPanic (Option String) :=
  match block.data.validator with
  | none => .ok none
  | some key => key.toAccountId.map Except.toOption

theorem getPlayerIdOrPanic_eq_ok_iff (confirmation : Confirmation) (id : String) :
    confirmation.getPlayerIdOrPanic = .ok id ↔
      confirmation.data.signer.FitsHeaders ∧ confirmation.getPlayerId = id := by
  rw [← TrinciPublicKey.toAccountId_isOk_iff, Confirmation.getPlayerIdOrPanic,
    Confirmation.getPlayerId, TrinciPublicKey.accountId?]
  cases confirmation.data.signer.toAccountId with
  | error p =>
    constructor
    · intro h
      cases h
    · rintro ⟨⟨id, hid⟩, -⟩
      cases hid
  | ok answer =>
    have same : ((Except.ok answer : Except KeyPanic (Except CryptoError String)).map fun answer =>
        answer.toOption.getD "") = .ok (answer.toOption.getD "") := rfl
    rw [same, Except.ok.injEq]
    cases answer <;> exact ⟨fun h => ⟨⟨_, rfl⟩, h⟩, And.right⟩

theorem getBuilderIdOrPanic_eq_ok_iff (block : Block) (id : Option String) :
    block.getBuilderIdOrPanic = .ok id ↔
      (∀ key, block.data.validator = some key → key.FitsHeaders) ∧ block.getBuilderId = id := by
  rw [Block.getBuilderIdOrPanic, Block.getBuilderId]
  cases block.data.validator with
  | none =>
    constructor
    · intro h
      exact ⟨fun key hkey => (nomatch hkey), Except.ok.inj h⟩
    · rintro ⟨-, rfl⟩
      rfl
  | some key =>
    have only : (∀ other, some key = some other → other.FitsHeaders) ↔ key.FitsHeaders :=
      ⟨fun h => h key rfl, fun h other hother => Option.some.inj hother ▸ h⟩
    rw [only, ← TrinciPublicKey.toAccountId_isOk_iff]
    change key.toAccountId.map Except.toOption = .ok id ↔ _ ∧ key.accountId? = id
    rw [TrinciPublicKey.accountId?]
    cases key.toAccountId with
    | error p =>
      constructor
      · intro h
        cases h
      · rintro ⟨⟨id, hid⟩, -⟩
        cases hid
    | ok answer =>
      have same : (Except.ok answer : Except KeyPanic (Except CryptoError String)).map
          Except.toOption = .ok answer.toOption := rfl
      rw [same, Except.ok.injEq]
      cases answer <;> exact ⟨fun h => ⟨⟨_, rfl⟩, h⟩, And.right⟩

end Ids

namespace Sample

/-- A point of the curve without compression has 65 bytes. -/
theorem point_has_id :
    ∃ id, (TrinciPublicKey.ecdsa .secp256R1 (List.replicate 65 4)).toAccountId = .ok id :=
  (TrinciPublicKey.toAccountId_returns_iff (.ecdsa .secp256R1) (List.replicate 65 4) _ rfl).mpr
    (by rintro _ ⟨⟩; decide)

/-- One byte more than the headers can take. -/
theorem long_key_panics :
    let key := TrinciPublicKey.ecdsa .secp256R1 (List.replicate 230 4)
    TrinciPublicKey.deserialize (.ecdsa .secp256R1) (List.replicate 230 4) = .ok key ∧
      key.toAccountId = .error .payloadLength ∧ ¬ ∃ id, key.toAccountId = .ok id := by
  intro key
  have panics : key.toAccountId = .error .payloadLength := by decide +kernel
  refine ⟨rfl, panics, ?_⟩
  rintro ⟨id, hid⟩
  rw [panics] at hid
  cases hid

end Sample

end Trinci
