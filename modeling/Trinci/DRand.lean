import Trinci.CoreModels

/-!
# The deterministic random numbers

The drand service keeps a seed source and builds its generator anew for each
request, so a number depends on the seed source only. The request leaves the
number it drew behind as `previousSeed`; only a new seed source resets it.
-/

namespace Trinci

/-- The first number of the generator seeded with a `u64`. -/
class Pcg32 where
  nextU64 : UInt64 → UInt64

structure SeedSource where
  nonce : Bytes
  nwName : Bytes
  previousSeed : UInt64
  previousBlockHash : Hash
  txsHash : Hash
  rxsHash : Hash
  deriving DecidableEq

def padTo (size : Nat) (bytes : Bytes) : Bytes :=
  bytes ++ List.replicate (size - bytes.length) 0

def xorBytes (xs ys : Bytes) : Bytes := List.zipWith (· ^^^ ·) xs ys

/-- The exclusive or of the chunks of eight bytes, at most `n` of them. -/
def xorChunks : Nat → Bytes → Bytes → Bytes
  | 0, acc, _ => acc
  | n + 1, acc, bytes =>
    if bytes.isEmpty then acc else xorChunks n (xorBytes acc (bytes.take 8)) (bytes.drop 8)

def toBeBytes (n : UInt64) : Bytes :=
  (List.range 8).map fun i => (n >>> (8 * (7 - i)).toUInt64).toUInt8

def fromBeBytes (bytes : Bytes) : UInt64 :=
  bytes.foldl (fun n byte => (n <<< 8) ||| byte.toUInt64) 0

namespace SeedSource

def new (nonce nwName : Bytes) (previousBlockHash txsHash rxsHash : Hash) : SeedSource where
  nonce := nonce
  nwName := nwName
  previousSeed := 0
  previousBlockHash := previousBlockHash
  txsHash := txsHash
  rxsHash := rxsHash

def getSeed (seed : SeedSource) : UInt64 :=
  let attributes := [seed.nwName, seed.nonce, seed.previousBlockHash.asBytes,
    seed.txsHash.asBytes, seed.rxsHash.asBytes]
  let maxLength := (attributes.map List.length).foldl max 0
  let xorResult := (attributes.map (padTo maxLength)).foldl xorBytes
    (List.replicate maxLength 0)
  -- padded to whole chunks
  let xorResult := padTo ((maxLength + 7) / 8 * 8) xorResult
  let chunk := xorChunks xorResult.length (List.replicate 8 0) xorResult
  fromBeBytes (xorBytes chunk (toBeBytes seed.previousSeed))

def updateSeedSource (seed : SeedSource) (previousBlockHash txsHash rxsHash : Hash) :
    SeedSource :=
  { seed with
    previousBlockHash := previousBlockHash
    txsHash := txsHash
    rxsHash := rxsHash
    previousSeed := 0 }

/-- The answer to `GetDRandNum`, and the seed source it leaves, for every bound below the
greatest. That one has no successor and ends the service: `DRand.rand` has the panic. -/
def getDRandNum [Pcg32] (seed : SeedSource) (max : UInt64) : SeedSource × UInt64 :=
  let randNumber := Pcg32.nextU64 seed.getSeed
  ({ seed with previousSeed := randNumber }, randNumber % (max + 1))

end SeedSource

end Trinci
