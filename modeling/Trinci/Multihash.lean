import Trinci.Crypto

/-!
# The multihash format

A hash is built in a fixed array: a tag, the length of the value, the value and zeros.
Its bytes are the array without the zeros. Every way to build one ends in `Hash::new`, so
the array is a function of the bytes, and hashes that differ have different bytes. The
indexing of the source is kept with its panics, and none is reached.
-/

namespace Trinci

/-! ## Slices -/

/-- Where an index, a slice or a subtraction of the source ends the thread. -/
inductive SlicePanic
  | outOfRange
  | lengthMismatch
  | underflow
  deriving DecidableEq

def index (bytes : Bytes) (i : Nat) : Except SlicePanic UInt8 :=
  match bytes[i]? with
  | some b => .ok b
  | none => .error .outOfRange

def sliceFrom (bytes : Bytes) (start : Nat) : Except SlicePanic Bytes :=
  if start ≤ bytes.length then .ok (bytes.drop start) else .error .outOfRange

def sliceTo (bytes : Bytes) (stop : Nat) : Except SlicePanic Bytes :=
  if stop ≤ bytes.length then .ok (bytes.take stop) else .error .outOfRange

/-- `bytes[i] = b` -/
def assign (bytes : Bytes) (i : Nat) (b : UInt8) : Except SlicePanic Bytes :=
  if i < bytes.length then .ok (bytes.set i b) else .error .outOfRange

/-- `bytes[start..stop].copy_from_slice(source)` -/
def copyFromSlice (bytes : Bytes) (start stop : Nat) (source : Bytes) :
    Except SlicePanic Bytes :=
  if start ≤ stop ∧ stop ≤ bytes.length then
    if source.length = stop - start then
      .ok (bytes.take start ++ source ++ bytes.drop stop)
    else .error .lengthMismatch
  else .error .outOfRange

def subtract (a b : Nat) : Except SlicePanic Nat :=
  if b ≤ a then .ok (a - b) else .error .underflow

namespace Hash

/-! ## The source with its panics -/

/-- The array after the checks of `Hash::new`. -/
def filled (tag : UInt8) (value : Bytes) : Except SlicePanic (Except CryptoError Bytes) :=
  if value.length > 255 then
    .ok (.error (.malformedData "out of range integral type conversion attempted"))
  else do
    let array ← assign default.bytes 0 tag
    let array ← assign array 1 (UInt8.ofNat value.length)
    let array ← copyFromSlice array 2 (2 + value.length) value
    return .ok array

def newArray (alg : HashAlgorithm) (value : Bytes) :
    Except SlicePanic (Except CryptoError Bytes) :=
  if value.length > multihashValueLenMax then
    .ok (.error (.malformedData "Multihash length exceeded maximum (36)"))
  else
    match alg with
    | .identity => filled multihashTypeIdentity value
    | .sha256 =>
      if value.length > 32 then
        .ok (.error (.malformedData "Hash length greater than 32 for SHA256"))
      else filled multihashTypeSha256 value

def fromBytesArray (bytes : Bytes) : Except SlicePanic (Except CryptoError Bytes) :=
  if bytes.length < 2 then .ok (.error (.malformedData "Multihash length lower than 2"))
  else do
    let hashLen ← index bytes 1
    let rest ← subtract bytes.length 2
    if hashLen.toNat ≠ rest then
      return .error (.malformedData "Multihash length and hash value length error ")
    else
      let tag ← index bytes 0
      if tag = multihashTypeIdentity then
        let value ← sliceFrom bytes 2
        newArray .identity value
      else if tag = multihashTypeSha256 then
        let value ← sliceFrom bytes 2
        newArray .sha256 value
      else
        return .error (.malformedData
          "Couldn't find hash algorithm from algorithm identifier byte")

/-- `as_bytes`, whose slice ends at the stored length. -/
def asSlice (h : Hash) : Except SlicePanic Bytes := do
  let hashSize ← index h.bytes 1
  sliceTo h.bytes (2 + hashSize.toNat)

theorem filled_eq {tag : UInt8} {value : Bytes} (fits : value.length ≤ multihashValueLenMax) :
    filled tag value = .ok (.ok (pack tag value fits).bytes) := by
  have small : value.length ≤ 36 := fits
  have short : ¬ value.length > 255 := by omega
  have tagged : assign default.bytes 0 tag = .ok (tag :: List.replicate 37 0) := rfl
  have sized : assign (tag :: List.replicate 37 0) 1 (UInt8.ofNat value.length) =
      .ok (tag :: UInt8.ofNat value.length :: List.replicate 36 0) := rfl
  have copied : copyFromSlice (tag :: UInt8.ofNat value.length :: List.replicate 36 0) 2
      (2 + value.length) value = .ok (pack tag value fits).bytes := by
    have room : 2 ≤ 2 + value.length ∧
        2 + value.length ≤ (tag :: UInt8.ofNat value.length :: List.replicate 36 0).length := by
      rw [List.length_cons, List.length_cons, List.length_replicate]
      omega
    have exact : value.length = 2 + value.length - 2 := by omega
    have rest : (tag :: UInt8.ofNat value.length :: List.replicate 36 0).drop (2 + value.length) =
        List.replicate (36 - value.length) 0 := by
      rw [Nat.add_comm, List.drop_succ_cons, List.drop_succ_cons, List.drop_replicate]
    rw [copyFromSlice, if_pos room, if_pos exact, rest]
    rfl
  rw [filled, if_neg short]
  simp only [tagged, sized, copied, bind, Except.bind, pure, Except.pure]

theorem newArray_eq (alg : HashAlgorithm) (value : Bytes) :
    newArray alg value = .ok ((new alg value).map Hash.bytes) := by
  unfold newArray new
  by_cases fits : value.length ≤ multihashValueLenMax
  · rw [if_neg (by omega), dif_pos fits]
    cases alg with
    | identity => exact filled_eq fits
    | sha256 =>
      by_cases long : value.length > 32
      · simp only [if_pos long]
        rfl
      · simp only [if_neg long]
        exact filled_eq fits
  · rw [if_pos (by omega), dif_neg fits]
    rfl

/-- No index, slice or subtraction of `from_bytes` is out of range. -/
theorem fromBytesArray_eq (bytes : Bytes) :
    fromBytesArray bytes = .ok ((fromBytes bytes).map Hash.bytes) := by
  match bytes with
  | [] => rfl
  | [_] => rfl
  | tag :: len :: value =>
    have two : ¬ (tag :: len :: value).length < 2 := by simp
    have second : index (tag :: len :: value) 1 = .ok len := rfl
    have first : index (tag :: len :: value) 0 = .ok tag := rfl
    have rest : subtract (tag :: len :: value).length 2 = .ok value.length := by
      simp [subtract]
    have sliced : sliceFrom (tag :: len :: value) 2 = .ok value := by
      simp [sliceFrom]
    rw [fromBytesArray, if_neg two, fromBytes]
    simp only [second, first, rest, sliced, bind, Except.bind, pure, Except.pure, newArray_eq]
    split
    · rfl
    · split
      · rfl
      · split <;> rfl

/-! ## The hashes that can be built -/

/-- `from_hex`, with the decoder of the crate `hex`. -/
def fromHex (decode : String → Except String Bytes) (hex : String) : Except CryptoError Hash :=
  match decode hex with
  | .ok buf => fromBytes buf
  | .error e => .error (.malformedData e)

/-- What a visitor of the deserializer makes of the bytes it is given. -/
def visitBytes (bytes : Bytes) : Except String Hash :=
  match fromBytes bytes with
  | .ok hash => .ok hash
  | .error _ => .error "Invalid multihash"

inductive Constructible [Primitives] : Hash → Prop
  | default : Constructible default
  | new {alg : HashAlgorithm} {value : Bytes} {h : Hash} : new alg value = .ok h → Constructible h
  | fromBytes {bytes : Bytes} {h : Hash} : fromBytes bytes = .ok h → Constructible h
  | fromData {alg : HashAlgorithm} {data : Bytes} {h : Hash} :
      fromData alg data = .ok h → Constructible h
  | fromHex {decode : String → Except String Bytes} {hex : String} {h : Hash} :
      fromHex decode hex = .ok h → Constructible h
  | visited {bytes : Bytes} {h : Hash} : visitBytes bytes = .ok h → Constructible h

/-- The tags and the longest value of each. -/
def Fits (tag : UInt8) (length : Nat) : Prop :=
  tag = multihashTypeIdentity ∧ length ≤ multihashValueLenMax ∨
    tag = multihashTypeSha256 ∧ length ≤ 32

theorem Fits.le {tag : UInt8} {length : Nat} (h : Fits tag length) :
    length ≤ multihashValueLenMax := by
  rcases h with ⟨-, h⟩ | ⟨-, h⟩
  · exact h
  · exact Nat.le_trans h (by decide)

def tagOf : HashAlgorithm → UInt8
  | .identity => multihashTypeIdentity
  | .sha256 => multihashTypeSha256

/-- What `Hash::new` makes of a value. -/
theorem new_packs {alg : HashAlgorithm} {value : Bytes} {h : Hash} (hnew : new alg value = .ok h) :
    ∃ fits : Fits (tagOf alg) value.length, h = pack (tagOf alg) value fits.le := by
  unfold new at hnew
  split at hnew
  · next short =>
    cases alg with
    | identity => exact ⟨.inl ⟨rfl, short⟩, (Except.ok.inj hnew).symm⟩
    | sha256 =>
      dsimp only at hnew
      split at hnew
      · cases hnew
      · next small => exact ⟨.inr ⟨rfl, by omega⟩, (Except.ok.inj hnew).symm⟩
  · cases hnew

theorem toNat_length {tag : UInt8} {value : Bytes} (fits : Fits tag value.length) :
    (UInt8.ofNat value.length).toNat = value.length := by
  have small : value.length ≤ 36 := fits.le
  exact UInt8.toNat_ofNat_of_lt' (by change value.length < 256; omega)

theorem asBytes_pack {tag : UInt8} {value : Bytes} (fits : Fits tag value.length) :
    (pack tag value fits.le).asBytes = tag :: UInt8.ofNat value.length :: value := by
  have size : (pack tag value fits.le).size = value.length + 2 := by
    have length := toNat_length fits
    rw [Nat.add_comm]
    exact congrArg (2 + ·) length
  rw [asBytes, size, pack, List.take_succ_cons, List.take_succ_cons, List.take_left]

theorem asSlice_pack {tag : UInt8} {value : Bytes} (fits : Fits tag value.length) :
    (pack tag value fits.le).asSlice = .ok (pack tag value fits.le).asBytes := by
  have small : value.length ≤ 36 := fits.le
  have second : index (pack tag value fits.le).bytes 1 = .ok (UInt8.ofNat value.length) := rfl
  have room : 2 + (UInt8.ofNat value.length).toNat ≤ (pack tag value fits.le).bytes.length := by
    rw [length_bytes, toNat_length fits]
    change _ ≤ 38
    omega
  rw [asSlice, second]
  exact if_pos room

theorem fromBytes_packed {tag : UInt8} {value : Bytes} (fits : Fits tag value.length) :
    fromBytes (tag :: UInt8.ofNat value.length :: value) = .ok (pack tag value fits.le) := by
  rw [fromBytes, if_neg (not_not.mpr (toNat_length fits))]
  have short := fits.le
  rcases fits with ⟨rfl, -⟩ | ⟨rfl, small⟩
  · rw [if_pos rfl, new, dif_pos short]
  · rw [if_neg (by decide), if_pos rfl, new, dif_pos short]
    exact if_neg (by omega)

theorem fromBytes_packs {bytes : Bytes} {h : Hash} (hfrom : fromBytes bytes = .ok h) :
    ∃ (tag : UInt8) (value : Bytes) (fits : Fits tag value.length),
      bytes = tag :: UInt8.ofNat value.length :: value ∧ h = pack tag value fits.le := by
  unfold fromBytes at hfrom
  split at hfrom
  · next tag len value =>
    split at hfrom
    · cases hfrom
    · next sized =>
      have hlen : len = UInt8.ofNat value.length := by
        rw [← not_not.mp sized, UInt8.ofNat_toNat]
      subst hlen
      split at hfrom
      · next htag =>
        obtain ⟨fits, rfl⟩ := new_packs hfrom
        exact ⟨_, value, fits, by rw [htag]; rfl, rfl⟩
      · split at hfrom
        · next htag =>
          obtain ⟨fits, rfl⟩ := new_packs hfrom
          exact ⟨_, value, fits, by rw [htag]; rfl, rfl⟩
        · cases hfrom
  · cases hfrom

theorem Constructible.packs [Primitives] {h : Hash} (built : Constructible h) :
    ∃ (tag : UInt8) (value : Bytes) (fits : Fits tag value.length),
      h = pack tag value fits.le := by
  have read {bytes : Bytes} {h : Hash} (hfrom : Hash.fromBytes bytes = .ok h) :
      ∃ (tag : UInt8) (value : Bytes) (fits : Fits tag value.length),
        h = pack tag value fits.le := by
    obtain ⟨tag, value, fits, -, packed⟩ := fromBytes_packs hfrom
    exact ⟨tag, value, fits, packed⟩
  cases built with
  | default => exact ⟨multihashTypeIdentity, [], .inl ⟨rfl, Nat.zero_le _⟩, rfl⟩
  | new hnew => exact ⟨_, _, new_packs hnew⟩
  | fromBytes hfrom => exact read hfrom
  | @fromData alg data _ hdata =>
    cases alg with
    | identity => exact ⟨_, _, new_packs (show Hash.new .identity data = _ from hdata)⟩
    | sha256 =>
      exact ⟨_, _, new_packs (show Hash.new .sha256 (Primitives.sha256 data) = _ from hdata)⟩
  | fromHex hhex =>
    unfold Hash.fromHex at hhex
    split at hhex
    · exact read hhex
    · cases hhex
  | visited hvisit =>
    unfold visitBytes at hvisit
    split at hvisit
    · next hfrom =>
      cases hvisit
      exact read hfrom
    · cases hvisit

/-! ## The format -/

/-- The byte strings of the format: a known tag, the length of the rest, and a value that the
tag allows. -/
structure WellFormed (bytes : Bytes) : Prop where
  two : 2 ≤ bytes.length
  sized : (bytes.getD 1 0).toNat = bytes.length - 2
  fits : Fits (bytes.getD 0 0) (bytes.length - 2)

theorem wellFormed_iff (bytes : Bytes) : WellFormed bytes ↔ ∃ h, fromBytes bytes = .ok h := by
  constructor
  · rintro ⟨two, sized, fits⟩
    match bytes with
    | [] => simp at two
    | [_] => simp at two
    | tag :: len :: value =>
      have fits : Fits tag value.length := fits
      have sized : len.toNat = value.length := sized
      have hlen : len = UInt8.ofNat value.length := by rw [← sized, UInt8.ofNat_toNat]
      exact ⟨_, hlen ▸ fromBytes_packed fits⟩
  · rintro ⟨h, hfrom⟩
    obtain ⟨tag, value, fits, rfl, -⟩ := fromBytes_packs hfrom
    exact ⟨by simp, toNat_length fits, fits⟩

/-- Reading and writing are inverse, what is read is well formed and nothing else is, no
slice is out of range on the way, and hashes are equal exactly if their bytes are. -/
theorem multihash_format [Primitives] :
    (∀ h, Constructible h → fromBytes h.asBytes = .ok h) ∧
      (∀ bytes h, fromBytes bytes = .ok h → h.asBytes = bytes) ∧
      (∀ bytes, (∃ h, fromBytes bytes = .ok h) ↔ WellFormed bytes) ∧
      (∀ bytes, fromBytesArray bytes = .ok ((fromBytes bytes).map Hash.bytes)) ∧
      (∀ h, Constructible h → h.asSlice = .ok h.asBytes) ∧
      ∀ h h', Constructible h → Constructible h' → (h = h' ↔ h.asBytes = h'.asBytes) := by
  have back : ∀ h, Constructible h → fromBytes h.asBytes = .ok h := by
    intro h built
    obtain ⟨tag, value, fits, rfl⟩ := built.packs
    rw [asBytes_pack fits]
    exact fromBytes_packed fits
  refine ⟨back, ?_, fun bytes => (wellFormed_iff bytes).symm, fromBytesArray_eq, ?_, ?_⟩
  · intro bytes h hfrom
    obtain ⟨tag, value, fits, rfl, rfl⟩ := fromBytes_packs hfrom
    exact asBytes_pack fits
  · intro h built
    obtain ⟨tag, value, fits, rfl⟩ := built.packs
    exact asSlice_pack fits
  · intro h h' built built'
    constructor
    · rintro rfl
      rfl
    · intro same
      have read := back h built
      rw [same, back h' built'] at read
      exact (Except.ok.inj read).symm

end Hash

end Trinci
