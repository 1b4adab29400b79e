import Trinci.DRand
import Trinci.Multihash
import Trinci.NodeModels
import Trinci.StepMachines

/-!
# The drand service

The seed is computed by copying fields into buffers of one length, and the number by an
addition and a remainder. The panics of both are kept, with the addition as a build with
and one without overflow checks make it. The service is one thread for the whole node: a
panic in one request leaves every later one without an answer.
-/

namespace Trinci

open StepMachines

universe u

/-! ## The seed with its panics -/

/-- `copy_from_slice` into the start of a buffer of zeros. -/
def copiedTo (maxLength size : Nat) (field : Bytes) : Except SlicePanic Bytes :=
  copyFromSlice (List.replicate maxLength 0) 0 size field

/-- The zeros that complete the last chunk of eight bytes. -/
def padLast (bytes : Bytes) : Bytes :=
  let reminderOfU64 := bytes.length % 8
  if reminderOfU64 > 0 then bytes ++ List.replicate (8 - reminderOfU64) 0 else bytes

/-- `u64::from_be_bytes(vec_u64.try_into().unwrap())` -/
def fromBeVec (bytes : Bytes) : Except SlicePanic UInt64 :=
  if bytes.length = 8 then .ok (fromBeBytes bytes) else .error .lengthMismatch

def SeedSource.getSeedOrPanic (seed : SeedSource) : Except SlicePanic UInt64 := do
  let previousBlockHash ← seed.previousBlockHash.asSlice
  let txsHash ← seed.txsHash.asSlice
  let rxsHash ← seed.rxsHash.asSlice
  let sizeVec := [seed.nonce.length, seed.nwName.length, previousBlockHash.length, txsHash.length,
    rxsHash.length]
  let maxLength := sizeVec.foldl max 0
  let nonce ← copiedTo maxLength seed.nonce.length seed.nonce
  let nwName ← copiedTo maxLength seed.nwName.length seed.nwName
  let previousBlockHash ← copiedTo maxLength previousBlockHash.length previousBlockHash
  let txsHash ← copiedTo maxLength txsHash.length txsHash
  let rxsHash ← copiedTo maxLength rxsHash.length rxsHash
  let xorResult := [nonce, previousBlockHash, txsHash, rxsHash].foldl xorBytes nwName
  let xorResult := padLast xorResult
  let vecU64 := xorChunks xorResult.length (List.replicate 8 0) xorResult
  fromBeVec (xorBytes vecU64 (toBeBytes seed.previousSeed))

theorem length_padTo {size : Nat} {bytes : Bytes} (h : bytes.length ≤ size) :
    (padTo size bytes).length = size := by
  rw [padTo, List.length_append, List.length_replicate]
  omega

theorem length_xorBytes {n : Nat} {xs ys : Bytes} (hx : xs.length = n) (hy : ys.length = n) :
    (xorBytes xs ys).length = n := by
  rw [xorBytes, List.length_zipWith, hx, hy, Nat.min_self]

theorem xorBytes_zeros {n : Nat} {bytes : Bytes} (h : bytes.length = n) :
    xorBytes (List.replicate n 0) bytes = bytes := by
  subst h
  induction bytes with
  | nil => rfl
  | cons b bytes ih =>
    change (0 ^^^ b) :: xorBytes (List.replicate bytes.length 0) bytes = b :: bytes
    rw [ih, UInt8.zero_xor]

theorem copiedTo_eq {maxLength : Nat} {field : Bytes} (h : field.length ≤ maxLength) :
    copiedTo maxLength field.length field = .ok (padTo maxLength field) := by
  have room : 0 ≤ field.length ∧
      field.length ≤ (List.replicate maxLength (0 : UInt8)).length := by
    rw [List.length_replicate]
    omega
  rw [copiedTo, copyFromSlice, if_pos room, if_pos (Nat.sub_zero _).symm, List.take_zero,
    List.nil_append, List.drop_replicate]
  rfl

theorem padLast_eq {n : Nat} {bytes : Bytes} (h : bytes.length = n) :
    padLast bytes = padTo ((n + 7) / 8 * 8) bytes := by
  subst h
  rw [padLast, padTo]
  by_cases partly : bytes.length % 8 > 0
  · have missing : (bytes.length + 7) / 8 * 8 - bytes.length = 8 - bytes.length % 8 := by omega
    rw [if_pos partly, missing]
  · have missing : (bytes.length + 7) / 8 * 8 - bytes.length = 0 := by omega
    rw [if_neg partly, missing, List.replicate_zero, List.append_nil]

/-- Every chunk is whole, so the accumulator keeps its eight bytes. -/
theorem length_xorChunks (n : Nat) {acc bytes : Bytes} (hacc : acc.length = 8)
    (whole : bytes.length % 8 = 0) : (xorChunks n acc bytes).length = 8 := by
  induction n generalizing acc bytes with
  | zero => exact hacc
  | succ n ih =>
    rw [xorChunks]
    split
    · exact hacc
    · next nonempty =>
      have remains : bytes.length ≠ 0 := by
        intro empty
        rw [List.length_eq_zero_iff.mp empty] at nonempty
        exact nonempty rfl
      have chunk : (bytes.take 8).length = 8 := by
        rw [List.length_take]
        omega
      apply ih (length_xorBytes hacc chunk)
      rw [List.length_drop]
      omega

namespace SeedSource

/-- The hashes are values of their type. -/
structure Valid [Primitives] (seed : SeedSource) : Prop where
  previousBlockHash : Hash.Constructible seed.previousBlockHash
  txsHash : Hash.Constructible seed.txsHash
  rxsHash : Hash.Constructible seed.rxsHash

variable [Primitives]

theorem asSlice_eq {h : Hash} (built : Hash.Constructible h) : h.asSlice = .ok h.asBytes := by
  obtain ⟨tag, value, fits, rfl⟩ := built.packs
  exact Hash.asSlice_pack fits

theorem getSeedOrPanic_eq {seed : SeedSource} (valid : seed.Valid) :
    seed.getSeedOrPanic = .ok seed.getSeed := by
  obtain ⟨block, txs, rxs⟩ := valid
  unfold getSeedOrPanic getSeed
  simp only [asSlice_eq block, asSlice_eq txs, asSlice_eq rxs, bind, Except.bind, List.map_cons,
    List.map_nil, List.foldl_cons, List.foldl_nil, Nat.zero_max]
  rw [Nat.max_comm seed.nwName.length seed.nonce.length]
  generalize hmax : max (max (max (max seed.nonce.length seed.nwName.length)
    seed.previousBlockHash.asBytes.length) seed.txsHash.asBytes.length)
    seed.rxsHash.asBytes.length = maxLength
  have nonceFits : seed.nonce.length ≤ maxLength := by omega
  have nameFits : seed.nwName.length ≤ maxLength := by omega
  have blockFits : seed.previousBlockHash.asBytes.length ≤ maxLength := by omega
  have txsFits : seed.txsHash.asBytes.length ≤ maxLength := by omega
  have rxsFits : seed.rxsHash.asBytes.length ≤ maxLength := by omega
  simp only [copiedTo_eq nonceFits, copiedTo_eq nameFits, copiedTo_eq blockFits,
    copiedTo_eq txsFits, copiedTo_eq rxsFits, xorBytes_zeros (length_padTo nameFits)]
  generalize hxor : xorBytes (xorBytes (xorBytes (xorBytes (padTo maxLength seed.nwName)
    (padTo maxLength seed.nonce)) (padTo maxLength seed.previousBlockHash.asBytes))
    (padTo maxLength seed.txsHash.asBytes)) (padTo maxLength seed.rxsHash.asBytes) = xorResult
  have length : xorResult.length = maxLength := by
    rw [← hxor]
    exact length_xorBytes (length_xorBytes (length_xorBytes (length_xorBytes
      (length_padTo nameFits) (length_padTo nonceFits)) (length_padTo blockFits))
      (length_padTo txsFits)) (length_padTo rxsFits)
  rw [padLast_eq length]
  have whole : (padTo ((maxLength + 7) / 8 * 8) xorResult).length % 8 = 0 := by
    rw [length_padTo (by omega)]
    omega
  have eight := length_xorChunks (padTo ((maxLength + 7) / 8 * 8) xorResult).length
    (List.length_replicate (n := 8) (a := (0 : UInt8))) whole
  have seeded : (toBeBytes seed.previousSeed).length = 8 := rfl
  exact if_pos (length_xorBytes eight seeded)

end SeedSource

/-! ## The service -/

inductive UsizePanic
  | addOverflow
  | subtractOverflow
  | divideByZero
  deriving DecidableEq

/-- An addition of `usize` values, in a build with overflow checks or without. -/
def addUsize (checks : Bool) (a b : UInt64) : Except UsizePanic UInt64 :=
  if checks ∧ UInt64.size ≤ a.toNat + b.toNat then .error .addOverflow else .ok (a + b)

def subUsize (checks : Bool) (a b : UInt64) : Except UsizePanic UInt64 :=
  if checks ∧ a < b then .error .subtractOverflow else .ok (a - b)

def remUsize (a b : UInt64) : Except UsizePanic UInt64 :=
  if b = 0 then .error .divideByZero else .ok (a % b)

inductive DRandPanic
  | slice (panic : SlicePanic)
  | arithmetic (panic : UsizePanic)
  deriving DecidableEq

/-- A generator gives one number before it is replaced, so it is the seed it was made of. -/
structure DRand where
  drng : UInt64
  seed : SeedSource

namespace DRand

def new (seed : SeedSource) : Except DRandPanic DRand :=
  match seed.getSeedOrPanic with
  | .ok drng => .ok ⟨drng, seed⟩
  | .error p => .error (.slice p)

def updateSeedSource (drand : DRand) (previousBlockHash txsHash rxsHash : Hash) : DRand :=
  { drand with seed := drand.seed.updateSeedSource previousBlockHash txsHash rxsHash }

/-- `rand_number % (max + 1)` -/
def bounded (checks : Bool) (randNumber max : UInt64) : Except UsizePanic UInt64 := do
  let bound ← addUsize checks max 1
  remUsize randNumber bound

def rand [Pcg32] (checks : Bool) (drand : DRand) (max : UInt64) :
    Except DRandPanic (DRand × UInt64) :=
  let randNumber := Pcg32.nextU64 drand.drng
  let drand := { drand with seed := { drand.seed with previousSeed := randNumber } }
  match bounded checks randNumber max with
  | .ok drandNum => .ok (drand, drandNum)
  | .error p => .error (.arithmetic p)

end DRand

structure DRandService where
  drand : DRand

/-- What the thread receives. A request can come without a channel for its answer. -/
inductive DRandComm (A B C T : Type u)
  | msg (msg : Msg A B C T)
  | req (req : Req) (resChan : Bool)

namespace DRandService

variable {A B C T : Type u}

def start (seedSource : SeedSource) : Except DRandPanic DRandService :=
  (DRand.new seedSource).map DRandService.mk

/-- Any other message is logged. -/
def handleMessages (s : DRandService) : Msg A B C T → DRandService
  | .updateSeedSource lastBlockHash txsHash rxsHash =>
    ⟨s.drand.updateSeedSource lastBlockHash txsHash rxsHash⟩
  | _ => s

def getDRandNum [Pcg32] (checks : Bool) (s : DRandService) (max : UInt64) :
    Except DRandPanic (DRand × UInt64) := do
  let drand ← DRand.new s.drand.seed
  drand.rand checks max

/-- Any other request is logged and gets no answer. -/
def handleRequests [Pcg32] (checks : Bool) (s : DRandService) :
    Req → Except DRandPanic (DRandService × List (Res A B C T))
  | .getDRandNum max =>
    match s.getDRandNum checks max with
    | .ok (drand, drandNum) => .ok (⟨drand⟩, [.getDRandNum drandNum])
    | .error p => .error p
  | _ => .ok (s, [])

def handle [Pcg32] (checks : Bool) (s : DRandService) :
    DRandComm A B C T → Except DRandPanic (DRandService × List (Res A B C T))
  | .msg msg => .ok (s.handleMessages msg, [])
  | .req req true => s.handleRequests checks req
  | .req _ false => .ok (s, [])

end DRandService

section HostFunctions

variable [Pcg32]

/-- `drand` of the portable host functions, with the service at the end of the channel. The
thread of a service that panicked is gone, and with it the answer. -/
def HostFunc.drand (checks : Bool) (service : Option DRandService) (max : UInt64) :
    Option DRandService × Option UInt64 :=
  match service with
  | none => (none, none)
  | some s =>
    match s.handle checks (.req (.getDRandNum max) true :
      DRandComm Unit Unit Unit Unit) with
    | .ok (s', [.getDRandNum drandNum]) => (some s', some drandNum)
    | .ok (s', _) => (some s', none)
    | .error _ => (none, none)

/-- `drand` of the linker, which contracts import as `hf_drand`. -/
def hfDrand (checks : Bool) (service : Option DRandService) (max : UInt64) :
    Option DRandService × Except String UInt64 :=
  match HostFunc.drand checks service max with
  | (service, some drand) => (service, .ok drand)
  | (service, none) => (service, .error "Problems with drand number retrieval")

end HostFunctions

/-! ## What a request needs -/

/-- `usize::MAX` -/
def usizeMax : UInt64 := 18446744073709551615

section Requests

variable {checks : Bool}

theorem toNat_add_one {max : UInt64} (h : max ≠ usizeMax) : (max + 1).toNat = max.toNat + 1 := by
  have bound := max.toNat_lt
  have differs : max.toNat ≠ 2 ^ 64 - 1 := fun same => h (UInt64.toNat_inj.mp same)
  have room : max.toNat + (1 : UInt64).toNat < 2 ^ 64 := by
    change max.toNat + 1 < 2 ^ 64
    omega
  rw [UInt64.toNat_add, Nat.mod_eq_of_lt room]
  rfl

theorem addUsize_one {max : UInt64} (h : max ≠ usizeMax) :
    addUsize checks max 1 = .ok (max + 1) := by
  apply if_neg
  rintro ⟨-, overflow⟩
  change 2 ^ 64 ≤ max.toNat + 1 at overflow
  rw [← toNat_add_one h] at overflow
  exact absurd (max + 1).toNat_lt (by omega)

theorem mod_le {n max : UInt64} (h : max ≠ usizeMax) : n % (max + 1) ≤ max := by
  rw [UInt64.le_iff_toNat_le, UInt64.toNat_mod, toNat_add_one h]
  have remainder := Nat.mod_lt n.toNat (Nat.add_one_pos max.toNat)
  omega

theorem bounded_eq {randNumber max : UInt64} (h : max ≠ usizeMax) :
    DRand.bounded checks randNumber max = .ok (randNumber % (max + 1)) := by
  have positive : ¬ max + 1 = 0 := by
    intro zero
    have bound := toNat_add_one h
    rw [zero] at bound
    exact Nat.succ_ne_zero _ bound.symm
  rw [DRand.bounded, addUsize_one h]
  exact if_neg positive

/-- With overflow checks the addition panics, and without them the remainder does. -/
theorem bounded_usizeMax (checks : Bool) (randNumber : UInt64) :
    ∃ p, DRand.bounded checks randNumber usizeMax = .error p := by
  cases checks with
  | true => exact ⟨.addOverflow, rfl⟩
  | false => exact ⟨.divideByZero, rfl⟩

variable [Pcg32]

theorem rand_eq (drand : DRand) {max : UInt64} (h : max ≠ usizeMax) :
    drand.rand checks max = .ok
      ({ drand with seed := { drand.seed with previousSeed := Pcg32.nextU64 drand.drng } },
        Pcg32.nextU64 drand.drng % (max + 1)) := by
  rw [DRand.rand, bounded_eq h]

theorem rand_usizeMax (drand : DRand) : ∃ p, drand.rand checks usizeMax = .error p := by
  obtain ⟨p, hp⟩ := bounded_usizeMax checks (Pcg32.nextU64 drand.drng)
  refine ⟨.arithmetic p, ?_⟩
  rw [DRand.rand, hp]

end Requests

/-! ## The states of the service -/

section States

variable {A B C T : Type u} [Primitives]

/-- The hashes in a message are values of their type. -/
def DRandComm.Valid : DRandComm A B C T → Prop
  | .msg (.updateSeedSource lastBlockHash txsHash rxsHash) =>
    Hash.Constructible lastBlockHash ∧ Hash.Constructible txsHash ∧ Hash.Constructible rxsHash
  | _ => True

/-- One can be added to the bound of a request. -/
def DRandComm.Bounded : DRandComm A B C T → Prop
  | .req (.getDRandNum max) true => max ≠ usizeMax
  | _ => True

namespace DRandService

variable {checks : Bool} {s s' : DRandService}

theorem start_eq {seedSource : SeedSource} (valid : seedSource.Valid) :
    start seedSource = .ok ⟨⟨seedSource.getSeed, seedSource⟩⟩ := by
  rw [start, DRand.new, SeedSource.getSeedOrPanic_eq valid]
  rfl

theorem handleMessages_valid {msg : Msg A B C T} (valid : s.drand.seed.Valid)
    (named : (DRandComm.msg msg).Valid) : (s.handleMessages msg).drand.seed.Valid := by
  cases msg with
  | updateSeedSource lastBlockHash txsHash rxsHash =>
    obtain ⟨block, txs, rxs⟩ : Hash.Constructible lastBlockHash ∧ Hash.Constructible txsHash ∧
      Hash.Constructible rxsHash := named
    exact ⟨block, txs, rxs⟩
  | _ => exact valid

variable [Pcg32]

/-- Where no panic ends it, a request is answered as the seed source answers it. -/
theorem getDRandNum_eq (checks : Bool) (valid : s.drand.seed.Valid) {max : UInt64}
    (h : max ≠ usizeMax) :
    s.getDRandNum checks max =
      .ok (⟨s.drand.seed.getSeed, (s.drand.seed.getDRandNum max).1⟩,
        (s.drand.seed.getDRandNum max).2) := by
  simp only [getDRandNum, DRand.new, SeedSource.getSeedOrPanic_eq valid, bind, Except.bind,
    SeedSource.getDRandNum]
  rw [rand_eq _ h]

theorem getDRandNum_usizeMax (valid : s.drand.seed.Valid) :
    ∃ p, s.getDRandNum checks usizeMax = .error p := by
  simp only [getDRandNum, DRand.new, SeedSource.getSeedOrPanic_eq valid, bind, Except.bind]
  exact rand_usizeMax _

theorem handle_of_bounded {comm : DRandComm A B C T} (valid : s.drand.seed.Valid)
    (named : comm.Valid) (bounded : comm.Bounded) :
    ∃ s' res, s.handle checks comm = .ok (s', res) ∧ s'.drand.seed.Valid := by
  cases comm with
  | msg msg => exact ⟨_, _, rfl, handleMessages_valid valid named⟩
  | req req resChan =>
    cases resChan with
    | false => exact ⟨_, _, rfl, valid⟩
    | true =>
      cases req with
      | getDRandNum max =>
        have drawn := getDRandNum_eq checks valid bounded
        refine ⟨⟨⟨s.drand.seed.getSeed, (s.drand.seed.getDRandNum max).1⟩⟩,
          [.getDRandNum (s.drand.seed.getDRandNum max).2], ?_, ?_⟩
        · rw [handle, handleRequests, drawn]
        · exact ⟨valid.previousBlockHash, valid.txsHash, valid.rxsHash⟩
      | _ => exact ⟨_, _, rfl, valid⟩

theorem bounded_of_handle {comm : DRandComm A B C T} {res : List (Res A B C T)}
    (valid : s.drand.seed.Valid) (h : s.handle checks comm = .ok (s', res)) : comm.Bounded := by
  cases comm with
  | msg msg => trivial
  | req req resChan =>
    cases resChan with
    | false => cases req <;> trivial
    | true =>
      cases req with
      | getDRandNum max =>
        rintro rfl
        obtain ⟨p, hp⟩ := getDRandNum_usizeMax valid
        rw [handle, handleRequests, hp] at h
        cases h
      | _ => trivial

theorem handle_isOk_iff {comm : DRandComm A B C T} (valid : s.drand.seed.Valid)
    (named : comm.Valid) : (∃ s' res, s.handle checks comm = .ok (s', res)) ↔ comm.Bounded := by
  constructor
  · rintro ⟨s', res, h⟩
    exact bounded_of_handle valid h
  · intro bounded
    obtain ⟨s', res, h, -⟩ := handle_of_bounded valid named bounded
    exact ⟨s', res, h⟩

theorem handle_valid {comm : DRandComm A B C T} {res : List (Res A B C T)}
    (valid : s.drand.seed.Valid) (named : comm.Valid)
    (h : s.handle checks comm = .ok (s', res)) : s'.drand.seed.Valid := by
  obtain ⟨s'', res', h', valid'⟩ :=
    handle_of_bounded valid named (bounded_of_handle valid h)
  rw [h] at h'
  cases h'
  exact valid'

/-- The contract gets a number up to its bound, and the service stays. -/
def Answers (checks : Bool) (s : DRandService) (max : UInt64) : Prop :=
  ∃ s' num, hfDrand checks (some s) max = (some s', .ok num) ∧ num ≤ max

theorem answers_iff (valid : s.drand.seed.Valid) (max : UInt64) :
    Answers checks s max ↔ max ≠ usizeMax := by
  constructor
  · rintro ⟨s', num, h, -⟩ rfl
    obtain ⟨p, hp⟩ := getDRandNum_usizeMax valid
    rw [hfDrand, HostFunc.drand, handle, handleRequests, hp] at h
    cases h
  · intro bounded
    have drawn := getDRandNum_eq checks valid bounded
    refine ⟨⟨⟨s.drand.seed.getSeed, (s.drand.seed.getDRandNum max).1⟩⟩,
      (s.drand.seed.getDRandNum max).2, ?_, mod_le bounded⟩
    rw [hfDrand, HostFunc.drand, handle, handleRequests, drawn]

/-- From its start, whatever it receives, the service reaches the end of it exactly if no
request has the greatest bound, and in every state it reaches it answers a contract with a
number up to the bound exactly if the bound is not the greatest. -/
theorem answers_in_reached (checks : Bool) (seedSource : SeedSource) (valid : seedSource.Valid)
    (comms : List (DRandComm A B C T)) (named : ∀ comm ∈ comms, comm.Valid) :
    ∃ s, start seedSource = .ok s ∧
      ((∃ trace s', exec (handle checks) s comms = .ok (trace, s')) ↔
        ∀ max, .req (.getDRandNum max) true ∈ comms → max ≠ usizeMax) ∧
      ∀ trace s', exec (handle checks) s comms = .ok (trace, s') →
        ∀ max, Answers checks s' max ↔ max ≠ usizeMax := by
  have started : (⟨⟨seedSource.getSeed, seedSource⟩⟩ : DRandService).drand.seed.Valid := valid
  have keeps : ∀ (s : DRandService) (comm : DRandComm A B C T) s' res, s.drand.seed.Valid →
      comm.Valid → s.handle checks comm = .ok (s', res) → s'.drand.seed.Valid :=
    fun _ _ _ _ before names h => handle_valid before names h
  have handled : ∀ (s : DRandService) (comm : DRandComm A B C T), s.drand.seed.Valid →
      comm.Valid → ((∃ s' res, s.handle checks comm = .ok (s', res)) ↔ comm.Bounded) :=
    fun _ _ before names => handle_isOk_iff before names
  refine ⟨_, start_eq valid, ?_, ?_⟩
  · rw [exec_isOk_iff_forall handled keeps started named]
    constructor
    · intro bounded max mem
      exact bounded _ mem
    · intro bounded comm mem
      unfold DRandComm.Bounded
      split
      · exact bounded _ mem
      · trivial
  · intro trace s' h max
    exact answers_iff (exec_preserves keeps started named h) max

end DRandService

end States

/-! ## A node that draws -/

namespace DRandSample

attribute [local instance] Sample.primitives

/-- The generator of the crate `rand_pcg`: its state and its increment. -/
structure Lcg where
  state : UInt64
  increment : UInt64

def multiplier : UInt64 := 6364136223846793005

def rotateRight (x : UInt32) (rot : UInt32) : UInt32 := x >>> rot ||| x <<< ((32 - rot) % 32)

/-- The output function of the generator, which also expands a seed. -/
def permute (state : UInt64) : UInt32 :=
  rotateRight (((state >>> 18) ^^^ state) >>> 27).toUInt32 (state >>> 59).toUInt32

def Lcg.nextU32 (rng : Lcg) : Lcg × UInt32 :=
  ({ rng with state := rng.state * multiplier + rng.increment }, permute rng.state)

/-- Four words from the seed: two for the state and two for the increment. -/
def seedFromU64 (seed : UInt64) : Lcg :=
  let expand (s : UInt64) : UInt64 := s * multiplier + 11634580027462260723
  let s₁ := expand seed
  let s₂ := expand s₁
  let s₃ := expand s₂
  let s₄ := expand s₃
  let state := (permute s₁).toUInt64 ||| (permute s₂).toUInt64 <<< 32
  let increment := (permute s₃).toUInt64 ||| (permute s₄).toUInt64 <<< 32 ||| 1
  ⟨(state + increment) * multiplier + increment, increment⟩

scoped instance pcg32 : Pcg32 where
  nextU64 seed :=
    let (rng, low) := (seedFromU64 seed).nextU32
    let (_, high) := rng.nextU32
    high.toUInt64 <<< 32 ||| low.toUInt64

def seedSource : SeedSource :=
  .new (List.replicate 8 0) [98, 111, 111, 116] Hash.default Hash.default Hash.default

theorem valid : seedSource.Valid := ⟨.default, .default, .default⟩

/-- After a block and a number up to five, there is an answer for a bound of six. -/
theorem answers_six :
    ∃ trace s', exec (DRandService.handle false) ⟨⟨seedSource.getSeed, seedSource⟩⟩
        ([.msg (.updateSeedSource Hash.default Hash.default Hash.default),
          .req (.getDRandNum 5) true] : List (DRandComm Unit Unit Unit Unit)) = .ok (trace, s') ∧
      DRandService.Answers false s' 6 := by
  have named : ∀ comm ∈ ([.msg (.updateSeedSource Hash.default Hash.default Hash.default),
      .req (.getDRandNum 5) true] : List (DRandComm Unit Unit Unit Unit)), comm.Valid := by
    intro comm hcomm
    rcases List.mem_cons.mp hcomm with rfl | hcomm
    · exact ⟨.default, .default, .default⟩
    · rw [List.mem_singleton.mp hcomm]
      trivial
  obtain ⟨s, hstart, ends, answers⟩ :=
    DRandService.answers_in_reached false seedSource valid _ named
  rw [DRandService.start_eq valid] at hstart
  cases hstart
  have bounded : ∀ max, DRandComm.req (.getDRandNum max) true ∈
      ([.msg (.updateSeedSource Hash.default Hash.default Hash.default),
        .req (.getDRandNum 5) true] : List (DRandComm Unit Unit Unit Unit)) → max ≠ usizeMax := by
    intro max mem
    rcases List.mem_cons.mp mem with same | mem
    · cases same
    · cases List.mem_singleton.mp mem
      decide
  obtain ⟨trace, s', h⟩ := ends.mpr bounded
  exact ⟨trace, s', h, (answers trace s' h 6).mpr (by decide)⟩

/-- A contract that passes the greatest `u64` ends the service, with a panic of the addition
or of the remainder, and the next contract gets no number either. -/
theorem greatest_bound_panics :
    ∃ s, DRandService.start seedSource = .ok s ∧
      (s.handle true (.req (.getDRandNum usizeMax) true : DRandComm Unit Unit Unit Unit)).toOption =
        none ∧
      hfDrand false (some s) usizeMax = (none, .error "Problems with drand number retrieval") ∧
      hfDrand false none 6 = (none, .error "Problems with drand number retrieval") ∧
      ¬ DRandService.Answers false s usizeMax := by
  have started := DRandService.start_eq valid
  refine ⟨_, started, ?_, ?_, rfl, ?_⟩
  · have panics : ∃ p, DRandService.getDRandNum true ⟨⟨seedSource.getSeed, seedSource⟩⟩ usizeMax =
      .error p := DRandService.getDRandNum_usizeMax valid
    obtain ⟨p, hp⟩ := panics
    rw [DRandService.handle, DRandService.handleRequests, hp]
    rfl
  · obtain ⟨p, hp⟩ : ∃ p, DRandService.getDRandNum false ⟨⟨seedSource.getSeed, seedSource⟩⟩
      usizeMax = .error p := DRandService.getDRandNum_usizeMax valid
    rw [hfDrand, HostFunc.drand, DRandService.handle, DRandService.handleRequests, hp]
  · rw [DRandService.answers_iff valid]
    exact fun differs => differs rfl

end DRandSample

end Trinci
