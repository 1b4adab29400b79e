import Trinci.DRandService
import Trinci.WmLocal

/-!
# The memory of a contract

A contract names what it passes and what it returns by an offset and a size, two signed
words, or by both packed in one. The host extends their signs, adds them without a check and
asks for the range. A negative offset or size becomes a number no memory reaches, or wraps
around to an end before the start: the range is given exactly if both are numbers and it ends
in the memory.
-/

namespace Trinci

/-! ## Packed slices -/

/-- `as u64`, and `as usize` with 64 bits: the sign is extended. -/
def asU64 (i : Int32) : UInt64 := i.toInt64.toUInt64

/-- `as i32`, of the lowest bits. -/
def asI32 (n : UInt64) : Int32 := n.toUInt32.toInt32

def wsliceCreate (offset length : Int32) : UInt64 :=
  (asU64 offset <<< 32) ||| (asU64 length &&& 0x00000000ffffffff)

def wsliceSplit (wslice : UInt64) : Int32 × Int32 :=
  (asI32 ((wslice &&& 0xffffffff00000000) >>> 32), asI32 (wslice &&& 0x00000000ffffffff))

/-- The bits of the masks. -/
theorem mask_bits : ∀ k : Fin 32, (4294967295#64)[32 + k.val] = false ∧
    (18446744069414584320#64)[32 + k.val] = true ∧ (4294967295#32)[k.val] = true := by
  decide

theorem wsliceSplit_wsliceCreate (offset length : Int32) :
    wsliceSplit (wsliceCreate offset length) = (offset, length) := by
  apply Prod.ext
  · apply Int32.toBitVec_inj.mp
    ext k hk
    obtain ⟨low, high, -⟩ := mask_bits ⟨k, hk⟩
    have inside : 32 + k < 64 := by omega
    simp [wsliceSplit, asI32, wsliceCreate, asU64, hk, BitVec.getElem_signExtend, inside, low, high]
  · apply Int32.toBitVec_inj.mp
    ext k hk
    obtain ⟨-, -, kept⟩ := mask_bits ⟨k, hk⟩
    have inside : k < 64 := by omega
    simp [wsliceSplit, asI32, wsliceCreate, asU64, hk, BitVec.getElem_signExtend, inside, kept]

/-! ## Ranges of the memory -/

/-- `data.get(start..stop)` -/
def getRange (data : Bytes) (start stop : UInt64) : Option Bytes :=
  if start ≤ stop ∧ stop.toNat ≤ data.length then
    some ((data.drop start.toNat).take (stop.toNat - start.toNat))
  else none

/-- What a contract exports as its memory. A slice has at most `isize::MAX` bytes. -/
structure WasmMemory where
  data : Bytes
  fits : data.length ≤ 9223372036854775807

namespace WasmMemory

/-- The range from the offset to the offset and the size, in a build with overflow checks or
without. -/
def get (checks : Bool) (memory : WasmMemory) (offset size : Int32) :
    Except UsizePanic (Option Bytes) := do
  let stop ← addUsize checks (asU64 offset) (asU64 size)
  return getRange memory.data (asU64 offset) stop

def sliceFrom (checks : Bool) (memory : WasmMemory) (offset size : Int32) :
    Except UsizePanic (Except WasmError Bytes) := do
  match ← memory.get checks offset size with
  | some slice => return .ok slice
  | none => return .error (.wasmMachineFault "Problems to get a slice from wasm memory")

/-- What `call` makes of the packed slice that a contract returned. -/
def callResult [WasmEngine] [WmCodec] (checks : Bool) (memory : WasmMemory) (wslice : UInt64) :
    Except UsizePanic (Except WasmError Bytes) := do
  let (offset, length) := wsliceSplit wslice
  let buf ← memory.get checks offset length
  return WmLocal.callResult buf

/-- Offset and size are numbers, and the bytes they name lie in the memory. -/
def Within (memory : WasmMemory) (offset size : Int32) : Prop :=
  0 ≤ offset.toInt ∧ 0 ≤ size.toInt ∧ offset.toInt + size.toInt ≤ memory.data.length

instance (memory : WasmMemory) (offset size : Int32) : Decidable (memory.Within offset size) :=
  inferInstanceAs (Decidable (_ ∧ _))

/-- The bytes that an offset and a size name. -/
def bytesAt (memory : WasmMemory) (offset size : Int32) : Bytes :=
  (memory.data.drop offset.toInt.toNat).take size.toInt.toNat

variable {memory : WasmMemory} {offset size : Int32}

theorem length_bytesAt (within : memory.Within offset size) :
    (memory.bytesAt offset size).length = size.toInt.toNat := by
  obtain ⟨start, count, stop⟩ := within
  rw [bytesAt, List.length_take, List.length_drop]
  omega

theorem getElem?_bytesAt {k : Nat} (inside : (k : Int) < size.toInt) :
    (memory.bytesAt offset size)[k]? = memory.data[offset.toInt.toNat + k]? := by
  rw [bytesAt, List.getElem?_take_of_lt (by omega), List.getElem?_drop]

/-- The number of a word whose sign is extended. -/
theorem toNat_asU64 (i : Int32) :
    0 ≤ i.toInt ∧ ((asU64 i).toNat : Int) = i.toInt ∨
      i.toInt < 0 ∧ ((asU64 i).toNat : Int) = i.toInt + 18446744073709551616 := by
  have value : (asU64 i).toBitVec.toInt = i.toInt := Int32.toInt_toInt64 i
  have cases := BitVec.toInt_eq_toNat_cond (asU64 i).toBitVec
  have number : (asU64 i).toBitVec.toNat = (asU64 i).toNat := rfl
  have bound := (asU64 i).toNat_lt
  have least := Int32.le_toInt i
  have greatest := Int32.toInt_lt i
  rw [value, number] at cases
  split at cases
  · omega
  · omega

theorem toNat_add_asU64 (offset size : Int32) :
    (asU64 offset + asU64 size).toNat =
      ((asU64 offset).toNat + (asU64 size).toNat) % 18446744073709551616 :=
  UInt64.toNat_add ..

/-- The end that wraps around is before the start, and the others are numbers. -/
theorem range_iff_within (memory : WasmMemory) (offset size : Int32) :
    asU64 offset ≤ asU64 offset + asU64 size ∧
        (asU64 offset + asU64 size).toNat ≤ memory.data.length ↔
      memory.Within offset size := by
  have start := toNat_asU64 offset
  have count := toNat_asU64 size
  have fits := memory.fits
  have lower := Int32.le_toInt offset
  have lower' := Int32.le_toInt size
  have upper := Int32.toInt_lt size
  rw [UInt64.le_iff_toNat_le, toNat_add_asU64, Within]
  constructor
  · rintro ⟨ordered, ends⟩
    refine ⟨?_, ?_, ?_⟩
    · omega
    · omega
    · omega
  · rintro ⟨hoffset, hsize, hstop⟩
    constructor
    · omega
    · omega

/-- Without overflow checks the range is given exactly if it lies in the memory. -/
theorem get_eq (memory : WasmMemory) (offset size : Int32) :
    memory.get false offset size =
      .ok (if memory.Within offset size then some (memory.bytesAt offset size) else none) := by
  have unchecked : addUsize false (asU64 offset) (asU64 size) =
      .ok (asU64 offset + asU64 size) := rfl
  have ranged := range_iff_within memory offset size
  rw [get, unchecked]
  change Except.ok (getRange memory.data (asU64 offset) (asU64 offset + asU64 size)) = _
  congr 1
  by_cases within : memory.Within offset size
  · obtain ⟨hoffset, hsize, hstop⟩ := id within
    have start := toNat_asU64 offset
    have count := toNat_asU64 size
    have from' : (asU64 offset).toNat = offset.toInt.toNat := by omega
    have length : (asU64 offset + asU64 size).toNat - (asU64 offset).toNat =
        size.toInt.toNat := by
      have fits := memory.fits
      rw [toNat_add_asU64]
      omega
    rw [getRange, if_pos (ranged.mpr within), if_pos within, length, from', bytesAt]
  · rw [getRange, if_neg (fun range => within (ranged.mp range)), if_neg within]

/-- The end of this range wraps around to the start of the memory. -/
example : get false ⟨[1, 2, 3], by decide⟩ (-1) 1 = .ok none ∧
    get true ⟨[1, 2, 3], by decide⟩ (-1) 1 = .error .addOverflow := by
  decide

theorem sliceFrom_eq (memory : WasmMemory) (offset size : Int32) :
    memory.sliceFrom false offset size = .ok (if memory.Within offset size then
      .ok (memory.bytesAt offset size)
      else .error (.wasmMachineFault "Problems to get a slice from wasm memory")) := by
  rw [sliceFrom, get_eq]
  by_cases within : memory.Within offset size
  · rw [if_pos within, if_pos within]
    rfl
  · rw [if_neg within, if_neg within]
    rfl

theorem callResult_eq [WasmEngine] [WmCodec] {wslice : UInt64}
    (split : wsliceSplit wslice = (offset, size)) :
    memory.callResult false wslice = .ok (if memory.Within offset size then
      WmLocal.callResult (some (memory.bytesAt offset size))
      else .error (.wasmMachineFault "out of bounds memory access")) := by
  simp only [callResult, split, get_eq]
  by_cases within : memory.Within offset size
  · rw [if_pos within, if_pos within]
    rfl
  · rw [if_neg within, if_neg within]
    rfl

end WasmMemory

/-! ## What contracts pass to the host -/

/-- What is read from the memory of a contract, if neither an error nor a panic ends it. -/
abbrev Decoded (α : Type) := ExceptT WasmError (Except UsizePanic) α

/-- The readings of arguments, with the texts of their errors. -/
class ArgsCodec where
  fromUtf8 : Bytes → Except String String
  publicKey? : Bytes → Except String TrinciPublicKey

def CryptoError.display : CryptoError → String
  | .cryptoAlgUnspecifiedError => "Unspecified error: ring::error::Unspecified"
  | .malformedData e => "Malformed data: " ++ e

namespace LocalHostFunc

def memFrom (memory : Option WasmMemory) : Decoded WasmMemory :=
  match memory with
  | some mem => pure mem
  | none => throw (.wasmMachineFault "Problems to get memory export from the caller")

def sliceFrom (checks : Bool) (mem : WasmMemory) (offset size : Int32) : Decoded Bytes :=
  ExceptT.mk (mem.sliceFrom checks offset size)

/-- A reading whose error is a fault of the machine. -/
def orFault {α : Type} (x : Except String α) : Decoded α :=
  ExceptT.mk (.ok (x.mapError .wasmMachineFault))

section Guards

variable {α β : Type} {memory : Option WasmMemory} {slices : List (Int32 × Int32)}

/-- No panic ends the reading, and it succeeds only if the slices lie in the memory. -/
def Guarded (memory : Option WasmMemory) (slices : List (Int32 × Int32)) (x : Decoded α) : Prop :=
  ∃ r : Except WasmError α, x.run = .ok r ∧ ∀ a, r = .ok a →
    ∀ slice ∈ slices, ∃ mem, memory = some mem ∧ mem.Within slice.1 slice.2

namespace Guarded

theorem pure (a : α) : Guarded memory [] (Pure.pure a : Decoded α) := by
  refine ⟨.ok a, rfl, fun _ _ slice hslice => ?_⟩
  cases hslice

/-- A reading that names no slice comes first. -/
theorem then_none {x : Except WasmError α} {f : α → Decoded β}
    (next : ∀ a, x = .ok a → Guarded memory slices (f a)) :
    Guarded memory slices (ExceptT.mk (.ok x) >>= f) := by
  cases x with
  | error e => exact ⟨.error e, rfl, nofun⟩
  | ok a => exact next a rfl

theorem mem {f : WasmMemory → Decoded β}
    (next : ∀ mem, memory = some mem → Guarded memory slices (f mem)) :
    Guarded memory slices (memFrom memory >>= f) := by
  cases memory with
  | none => exact ⟨_, rfl, nofun⟩
  | some mem => exact next mem rfl

theorem orFault {x : Except String α} {f : α → Decoded β}
    (next : ∀ a, Guarded memory slices (f a)) :
    Guarded memory slices (LocalHostFunc.orFault x >>= f) :=
  then_none fun a _ => next a

theorem slice {mem : WasmMemory} (exported : memory = some mem) (offset size : Int32)
    {f : Bytes → Decoded β} (next : ∀ buf, Guarded memory slices (f buf)) :
    Guarded memory ((offset, size) :: slices)
      (LocalHostFunc.sliceFrom false mem offset size >>= f) := by
  rw [LocalHostFunc.sliceFrom, WasmMemory.sliceFrom_eq]
  by_cases within : mem.Within offset size
  · rw [if_pos within]
    obtain ⟨r, ends, inside⟩ := next (mem.bytesAt offset size)
    refine ⟨r, ends, fun a ha slice hslice => ?_⟩
    rcases List.mem_cons.mp hslice with rfl | hslice
    · exact ⟨mem, exported, within⟩
    · exact inside a ha slice hslice
  · rw [if_neg within]
    exact ⟨_, rfl, nofun⟩

end Guarded

end Guards

/-! ## The imports of a contract -/

section Imports

variable [WmCodec] [ArgsCodec] (checks : Bool) (memory : Option WasmMemory)

def log (offset size : Int32) : Decoded HostRequest := do
  let mem ← memFrom memory
  let buf ← sliceFrom checks mem offset size
  return .log (WmCodec.fromUtf8Lossy buf)

def emit (eventNameOffset eventNameSize eventDataOffset eventDataSize : Int32) :
    Decoded HostRequest := do
  let mem ← memFrom memory
  let buf ← sliceFrom checks mem eventNameOffset eventNameSize
  let eventName ← orFault (ArgsCodec.fromUtf8 buf)
  let eventData ← sliceFrom checks mem eventDataOffset eventDataSize
  return .emit eventName eventData

/-- The functions that get one text, which is in UTF-8 or else an error. -/
def withKey (request : String → HostRequest) (keyOffset keySize : Int32) :
    Decoded HostRequest := do
  let mem ← memFrom memory
  let buf ← sliceFrom checks mem keyOffset keySize
  let key ← orFault (ArgsCodec.fromUtf8 buf)
  return request key

def loadData := withKey checks memory .loadData

def storeData (keyOffset keySize dataOffset dataSize : Int32) : Decoded HostRequest := do
  let mem ← memFrom memory
  let buf ← sliceFrom checks mem keyOffset keySize
  let key ← orFault (ArgsCodec.fromUtf8 buf)
  let data ← sliceFrom checks mem dataOffset dataSize
  return .storeData key data

def removeData := withKey checks memory .removeData

def isCallable (accountOffset accountSize methodOffset methodSize : Int32) :
    Decoded HostRequest := do
  let mem ← memFrom memory
  let buf ← sliceFrom checks mem accountOffset accountSize
  let account ← orFault (ArgsCodec.fromUtf8 buf)
  let buf ← sliceFrom checks mem methodOffset methodSize
  let method ← orFault (ArgsCodec.fromUtf8 buf)
  return .isCallable account method

/-- The functions that get the id of an account, whatever bytes it has. -/
def withAccountId (request : String → HostRequest) (accountIdOffset accountIdSize : Int32) :
    Decoded HostRequest := do
  let mem ← memFrom memory
  let buf ← sliceFrom checks mem accountIdOffset accountIdSize
  return request (WmCodec.fromUtf8Lossy buf)

def loadAsset := withAccountId checks memory .loadAsset

def storeAsset (accountIdOffset accountIdLength valueOffset valueLength : Int32) :
    Decoded HostRequest := do
  let mem ← memFrom memory
  let buf ← sliceFrom checks mem accountIdOffset accountIdLength
  let value ← sliceFrom checks mem valueOffset valueLength
  return .storeAsset (WmCodec.fromUtf8Lossy buf) value

def removeAsset := withAccountId checks memory .removeAsset

def getAccountContract := withAccountId checks memory .getAccountContract

def getKeys := withKey checks memory .getKeys

def call (accountOffset accountSize methodOffset methodSize argsOffset argsSize : Int32) :
    Decoded HostRequest := do
  let mem ← memFrom memory
  let account ← sliceFrom checks mem accountOffset accountSize
  let method ← sliceFrom checks mem methodOffset methodSize
  let args ← sliceFrom checks mem argsOffset argsSize
  return .call (WmCodec.fromUtf8Lossy account) (WmCodec.fromUtf8Lossy method) args

def sCall (accountOffset accountSize contractOffset contractSize methodOffset methodSize
    argsOffset argsSize : Int32) : Decoded HostRequest := do
  let mem ← memFrom memory
  let account ← sliceFrom checks mem accountOffset accountSize
  let buf ← sliceFrom checks mem contractOffset contractSize
  let contract ← orFault ((Hash.fromBytes buf).mapError CryptoError.display)
  let method ← sliceFrom checks mem methodOffset methodSize
  let args ← sliceFrom checks mem argsOffset argsSize
  return .sCall (WmCodec.fromUtf8Lossy account) contract (WmCodec.fromUtf8Lossy method) args

def verify (pkOffset pkLength dataOffset dataLength signOffset signLength : Int32) :
    Decoded HostRequest := do
  let mem ← memFrom memory
  let buf ← sliceFrom checks mem pkOffset pkLength
  let pk ← orFault (ArgsCodec.publicKey? buf)
  let data ← sliceFrom checks mem dataOffset dataLength
  let sign ← sliceFrom checks mem signOffset signLength
  return .verify pk data sign

def sha256 (dataOffset dataSize : Int32) : Decoded HostRequest := do
  let mem ← memFrom memory
  let data ← sliceFrom checks mem dataOffset dataSize
  return .sha256 data

/-- A call of the host with the words it was made with, as the contract imports it. -/
inductive HostArgs
  | log (offset size : Int32)
  | emit (eventNameOffset eventNameSize eventDataOffset eventDataSize : Int32)
  | loadData (keyOffset keySize : Int32)
  | storeData (keyOffset keySize dataOffset dataSize : Int32)
  | removeData (keyOffset keySize : Int32)
  | isCallable (accountOffset accountSize methodOffset methodSize : Int32)
  | loadAsset (accountIdOffset accountIdSize : Int32)
  | storeAsset (accountIdOffset accountIdLength valueOffset valueLength : Int32)
  | removeAsset (accountIdOffset accountIdLength : Int32)
  | getAccountContract (accountIdOffset accountIdLength : Int32)
  | getKeys (patternOffset patternSize : Int32)
  | call (accountOffset accountSize methodOffset methodSize argsOffset argsSize : Int32)
  | sCall (accountOffset accountSize contractOffset contractSize methodOffset methodSize argsOffset
      argsSize : Int32)
  | verify (pkOffset pkLength dataOffset dataLength signOffset signLength : Int32)
  | sha256 (dataOffset dataSize : Int32)

namespace HostArgs

/-- The slices that a call names. -/
def slices : HostArgs → List (Int32 × Int32)
  | .log o s | .loadData o s | .removeData o s | .loadAsset o s | .removeAsset o s
  | .getAccountContract o s | .getKeys o s | .sha256 o s => [(o, s)]
  | .emit o s o' s' | .storeData o s o' s' | .isCallable o s o' s' | .storeAsset o s o' s' =>
    [(o, s), (o', s')]
  | .call o s o' s' o'' s'' | .verify o s o' s' o'' s'' => [(o, s), (o', s'), (o'', s'')]
  | .sCall o s o' s' o'' s'' o₃ s₃ => [(o, s), (o', s'), (o'', s''), (o₃, s₃)]

def request : HostArgs → Decoded HostRequest
  | .log o s => LocalHostFunc.log checks memory o s
  | .emit o s o' s' => LocalHostFunc.emit checks memory o s o' s'
  | .loadData o s => LocalHostFunc.loadData checks memory o s
  | .storeData o s o' s' => LocalHostFunc.storeData checks memory o s o' s'
  | .removeData o s => LocalHostFunc.removeData checks memory o s
  | .isCallable o s o' s' => LocalHostFunc.isCallable checks memory o s o' s'
  | .loadAsset o s => LocalHostFunc.loadAsset checks memory o s
  | .storeAsset o s o' s' => LocalHostFunc.storeAsset checks memory o s o' s'
  | .removeAsset o s => LocalHostFunc.removeAsset checks memory o s
  | .getAccountContract o s => LocalHostFunc.getAccountContract checks memory o s
  | .getKeys o s => LocalHostFunc.getKeys checks memory o s
  | .call o s o' s' o'' s'' => LocalHostFunc.call checks memory o s o' s' o'' s''
  | .sCall o s o' s' o'' s'' o₃ s₃ => LocalHostFunc.sCall checks memory o s o' s' o'' s'' o₃ s₃
  | .verify o s o' s' o'' s'' => LocalHostFunc.verify checks memory o s o' s' o'' s''
  | .sha256 o s => LocalHostFunc.sha256 checks memory o s

end HostArgs

/-- No import panics while it reads what it is called with, and the host gets a request only
if every slice lies in the memory. -/
theorem HostArgs.request_guarded (memory : Option WasmMemory) (args : HostArgs) :
    Guarded memory args.slices (args.request false memory) := by
  have oneText : ∀ (request : String → HostRequest) (o s : Int32),
      Guarded memory [(o, s)] (withKey false memory request o s) := fun request o s =>
    .mem fun mem h => .slice h o s fun buf => .orFault fun key => .pure _
  have oneId : ∀ (request : String → HostRequest) (o s : Int32),
      Guarded memory [(o, s)] (withAccountId false memory request o s) := fun request o s =>
    .mem fun mem h => .slice h o s fun buf => .pure _
  cases args with
  | log o s => exact .mem fun mem h => .slice h o s fun buf => .pure _
  | emit o s o' s' =>
    exact .mem fun mem h => .slice h o s fun buf => .orFault fun name =>
      .slice h o' s' fun data => .pure _
  | loadData o s => exact oneText _ o s
  | storeData o s o' s' =>
    exact .mem fun mem h => .slice h o s fun buf => .orFault fun key =>
      .slice h o' s' fun data => .pure _
  | removeData o s => exact oneText _ o s
  | isCallable o s o' s' =>
    exact .mem fun mem h => .slice h o s fun buf => .orFault fun account =>
      .slice h o' s' fun buf => .orFault fun method => .pure _
  | loadAsset o s => exact oneId _ o s
  | storeAsset o s o' s' =>
    exact .mem fun mem h => .slice h o s fun buf => .slice h o' s' fun value => .pure _
  | removeAsset o s => exact oneId _ o s
  | getAccountContract o s => exact oneId _ o s
  | getKeys o s => exact oneText _ o s
  | call o s o' s' o'' s'' =>
    exact .mem fun mem h => .slice h o s fun account => .slice h o' s' fun method =>
      .slice h o'' s'' fun args => .pure _
  | sCall o s o' s' o'' s'' o₃ s₃ =>
    exact .mem fun mem h => .slice h o s fun account => .slice h o' s' fun buf =>
      .orFault fun contract => .slice h o'' s'' fun method => .slice h o₃ s₃ fun args => .pure _
  | verify o s o' s' o'' s'' =>
    exact .mem fun mem h => .slice h o s fun buf => .orFault fun pk =>
      .slice h o' s' fun data => .slice h o'' s'' fun sign => .pure _
  | sha256 o s => exact .mem fun mem h => .slice h o s fun data => .pure _

end Imports

end LocalHostFunc

namespace WasmMemory

/-- Packing loses nothing, and what a contract supplies or returns is read exactly where it
lies in the memory. Otherwise there is an error, and there is no panic. So it is with all that
a call of the host names. -/
theorem slices_exact [WasmEngine] [WmCodec] [ArgsCodec] (memory : WasmMemory) :
    (∀ offset length, wsliceSplit (wsliceCreate offset length) = (offset, length)) ∧
    (∀ offset size, memory.sliceFrom false offset size =
      .ok (if memory.Within offset size then .ok (memory.bytesAt offset size)
        else .error (.wasmMachineFault "Problems to get a slice from wasm memory"))) ∧
    (∀ wslice offset size, wsliceSplit wslice = (offset, size) →
      memory.get false offset size =
          .ok (if memory.Within offset size then some (memory.bytesAt offset size) else none) ∧
        memory.callResult false wslice =
          .ok (if memory.Within offset size then
            WmLocal.callResult (some (memory.bytesAt offset size))
          else .error (.wasmMachineFault "out of bounds memory access"))) ∧
    (∀ offset size, memory.Within offset size →
      (memory.bytesAt offset size).length = size.toInt.toNat ∧
        ∀ k : Nat, (k : Int) < size.toInt →
          (memory.bytesAt offset size)[k]? = memory.data[offset.toInt.toNat + k]?) ∧
    ∀ args : LocalHostFunc.HostArgs,
      LocalHostFunc.Guarded (some memory) args.slices (args.request false (some memory)) := by
  refine ⟨wsliceSplit_wsliceCreate, memory.sliceFrom_eq, ?_, ?_,
    LocalHostFunc.HostArgs.request_guarded (some memory)⟩
  · exact fun wslice offset size split => ⟨memory.get_eq offset size, callResult_eq split⟩
  · intro offset size within
    exact ⟨length_bytesAt within, fun k inside => getElem?_bytesAt inside⟩

end WasmMemory

end Trinci
