import Mathlib.Algebra.Group.Nat.Defs
import Mathlib.Data.List.Induction
import Trinci.DRandService

/-!
# The seed as an exclusive or of words

`get_seed` pads the fields to the longest, combines them byte by byte, pads the result to
whole words and combines these. An exclusive or of words goes byte by byte, and zeros leave
everything as it is: the words of every field can be combined on their own. Which field is
the longest does not matter.
-/

namespace Trinci

/-! ## Big-endian words -/

section Words

/-- One more byte of a word. -/
def pushByte (n : UInt64) (byte : UInt8) : UInt64 := (n <<< 8) ||| byte.toUInt64

theorem fromBeBytes_concat (bytes : Bytes) (b : UInt8) :
    fromBeBytes (bytes ++ [b]) = pushByte (fromBeBytes bytes) b := by
  rw [fromBeBytes, List.foldl_append]
  rfl

theorem pushByte_xor (n m : UInt64) (x y : UInt8) :
    pushByte (n ^^^ m) (x ^^^ y) = pushByte n x ^^^ pushByte m y := by
  apply UInt64.toBitVec_inj.mp
  ext i hi
  by_cases low : i < 8
  · simp [pushByte, low]
  · simp [pushByte, low, BitVec.getLsbD_of_ge _ i (Nat.not_lt.mp low)]

theorem toNat_pushByte {n : UInt64} (b : UInt8) (room : n.toNat < 2 ^ 56) :
    (pushByte n b).toNat = n.toNat * 256 + b.toNat := by
  have byte : b.toNat < 2 ^ 8 := b.toNat_lt
  have shifted : (n <<< 8).toNat = n.toNat <<< 8 := by
    rw [UInt64.toNat_shiftLeft]
    change n.toNat <<< 8 % 2 ^ 64 = _
    rw [Nat.shiftLeft_eq]
    omega
  rw [pushByte, UInt64.toNat_or, shifted, UInt8.toNat_toUInt64,
    ← Nat.shiftLeft_add_eq_or_of_lt byte, Nat.shiftLeft_eq]

/-- The number that bytes write in base 256. -/
def beNat (bytes : Bytes) : Nat := bytes.foldl (fun n b => n * 256 + b.toNat) 0

theorem beNat_concat (bytes : Bytes) (b : UInt8) :
    beNat (bytes ++ [b]) = beNat bytes * 256 + b.toNat := by
  rw [beNat, List.foldl_append]
  rfl

theorem beNat_lt (bytes : Bytes) : beNat bytes < 256 ^ bytes.length := by
  induction bytes using List.reverseRecOn with
  | nil => exact Nat.zero_lt_one
  | append_singleton bytes b ih =>
    have byte := b.toNat_lt
    rw [beNat_concat, List.length_append, List.length_singleton, Nat.pow_succ]
    omega

/-- No byte of a word is shifted out. -/
theorem toNat_fromBeBytes {bytes : Bytes} (short : bytes.length ≤ 8) :
    (fromBeBytes bytes).toNat = beNat bytes := by
  induction bytes using List.reverseRecOn with
  | nil => rfl
  | append_singleton bytes b ih =>
    rw [List.length_append, List.length_singleton] at short
    have value := ih (by omega)
    have bound : 256 ^ bytes.length ≤ 256 ^ 7 := Nat.pow_le_pow_right (by omega) (by omega)
    have room : (fromBeBytes bytes).toNat < 2 ^ 56 := by
      rw [value]
      exact Nat.lt_of_lt_of_le (beNat_lt bytes) bound
    rw [fromBeBytes_concat, toNat_pushByte b room, value, beNat_concat]

theorem toNat_byte (n : UInt64) {i : Nat} (hi : i < 8) :
    (n >>> (8 * (7 - i)).toUInt64).toUInt8.toNat = n.toNat / 2 ^ (8 * (7 - i)) % 256 := by
  have small : 8 * (7 - i) < 2 ^ 64 := by omega
  have shift : (8 * (7 - i)).toUInt64.toNat = 8 * (7 - i) := UInt64.toNat_ofNat_of_lt' small
  have inside : 8 * (7 - i) < 64 := by omega
  rw [UInt64.toNat_toUInt8, UInt64.toNat_shiftRight, shift, Nat.mod_eq_of_lt inside,
    Nat.shiftRight_eq_div_pow]

/-- The first bytes of a word write the number without its last digits. -/
theorem beNat_bytes (n : UInt64) {m : Nat} (hm : m ≤ 8) :
    beNat ((List.range m).map fun i => (n >>> (8 * (7 - i)).toUInt64).toUInt8) =
      n.toNat / 2 ^ (8 * (8 - m)) := by
  induction m with
  | zero => exact (Nat.div_eq_of_lt n.toNat_lt).symm
  | succ m ih =>
    have earlier := ih (by omega)
    have place : 7 - m = 8 - (m + 1) := by omega
    have next : 8 * (8 - m) = 8 * (8 - (m + 1)) + 8 := by omega
    rw [List.range_succ, List.map_append, List.map_singleton, beNat_concat, earlier,
      toNat_byte n (by omega), place, next, Nat.pow_add, ← Nat.div_div_eq_div_mul]
    exact Nat.div_add_mod' _ 256

theorem fromBeBytes_toBeBytes (n : UInt64) : fromBeBytes (toBeBytes n) = n := by
  apply UInt64.toNat_inj.mp
  have short : (toBeBytes n).length ≤ 8 := Nat.le_refl 8
  have whole : beNat (toBeBytes n) = n.toNat / 2 ^ (8 * (8 - 8)) := beNat_bytes n (Nat.le_refl 8)
  rw [toNat_fromBeBytes short, whole]
  exact Nat.div_one _

theorem fromBeBytes_xorBytes {xs ys : Bytes} (same : xs.length = ys.length) :
    fromBeBytes (xorBytes xs ys) = fromBeBytes xs ^^^ fromBeBytes ys := by
  have push : ∀ (xs ys : Bytes) (n m : UInt64), xs.length = ys.length →
      (xorBytes xs ys).foldl pushByte (n ^^^ m) =
        xs.foldl pushByte n ^^^ ys.foldl pushByte m := by
    intro xs
    induction xs with
    | nil =>
      intro ys n m same
      rw [List.eq_nil_of_length_eq_zero same.symm]
      rfl
    | cons x xs ih =>
      intro ys n m same
      cases ys with
      | nil => cases same
      | cons y ys =>
        have later := ih ys (pushByte n x) (pushByte m y) (Nat.succ.inj same)
        rw [← pushByte_xor] at later
        exact later
  exact push xs ys 0 0 same

end Words

/-! ## The words of a field -/

section Fields

/-- The words of bytes that come in eights. -/
def beWords (bytes : Bytes) : List UInt64 :=
  (List.range (bytes.length / 8)).map fun i => fromBeBytes ((bytes.drop (8 * i)).take 8)

def xorAll (words : List UInt64) : UInt64 := words.foldl (· ^^^ ·) 0

/-- The exclusive or of the words of a field, which zeros complete. -/
def xorWords (field : Bytes) : UInt64 := xorAll (beWords (padLast field))

theorem foldl_xor (n : UInt64) (words : List UInt64) :
    words.foldl (· ^^^ ·) n = n ^^^ xorAll words := by
  have start : n = n ^^^ 0 := UInt64.xor_zero.symm
  conv_lhs => rw [start]
  exact List.foldl_assoc

theorem xorAll_cons (w : UInt64) (words : List UInt64) :
    xorAll (w :: words) = w ^^^ xorAll words := by
  rw [xorAll, List.foldl_cons, UInt64.zero_xor, foldl_xor]

theorem beWords_append {chunk : Bytes} (eight : chunk.length = 8) (rest : Bytes) :
    beWords (chunk ++ rest) = fromBeBytes chunk :: beWords rest := by
  have count : (chunk ++ rest).length / 8 = rest.length / 8 + 1 := by
    rw [List.length_append]
    omega
  rw [beWords, count, List.range_succ_eq_map, List.map_cons, List.map_map]
  congr 1
  · rw [Nat.mul_zero, List.drop_zero, List.take_left' eight]
  · apply List.map_congr_left
    intro i _
    have next : 8 * (i + 1) = chunk.length + 8 * i := by omega
    change fromBeBytes (((chunk ++ rest).drop (8 * (i + 1))).take 8) = _
    rw [next, ← List.drop_drop, List.drop_left]

/-- Bytes that come in eights. -/
inductive Eights : Bytes → Prop
  | nil : Eights []
  | chunk {first rest : Bytes} : first.length = 8 → Eights rest → Eights (first ++ rest)

theorem eights_of_length {bytes : Bytes} (whole : bytes.length % 8 = 0) : Eights bytes := by
  induction hn : bytes.length / 8 generalizing bytes with
  | zero =>
    have empty : bytes = [] := List.eq_nil_of_length_eq_zero (by omega)
    rw [empty]
    exact .nil
  | succ n ih =>
    have first : (bytes.take 8).length = 8 := by
      rw [List.length_take]
      omega
    have rest : (bytes.drop 8).length = bytes.length - 8 := List.length_drop
    rw [← List.take_append_drop 8 bytes]
    exact .chunk first (ih (by omega) (by omega))

theorem fromBeBytes_zeros (n : Nat) : fromBeBytes (List.replicate n 0) = 0 := by
  induction n with
  | zero => rfl
  | succ n ih =>
    rw [List.replicate_succ', fromBeBytes_concat, ih]
    rfl

theorem xorAll_zeros (n : Nat) : xorAll (beWords (List.replicate (8 * n) 0)) = 0 := by
  induction n with
  | zero => rfl
  | succ n ih =>
    have first : (List.replicate 8 (0 : UInt8)).length = 8 := rfl
    have split : 8 * (n + 1) = 8 + 8 * n := by omega
    rw [split, ← List.replicate_append_replicate, beWords_append first, xorAll_cons, ih,
      fromBeBytes_zeros]
    rfl

/-- Words of zeros add nothing. -/
theorem xorAll_append_zeros {bytes : Bytes} (whole : Eights bytes) (n : Nat) :
    xorAll (beWords (bytes ++ List.replicate (8 * n) 0)) = xorAll (beWords bytes) := by
  induction whole with
  | nil => exact xorAll_zeros n
  | chunk eight _ ih =>
    rw [List.append_assoc, beWords_append eight, beWords_append eight, xorAll_cons, xorAll_cons, ih]

theorem xorBytes_append {xs ys xs' ys' : Bytes} (same : xs.length = ys.length) :
    xorBytes (xs ++ xs') (ys ++ ys') = xorBytes xs ys ++ xorBytes xs' ys' :=
  List.zipWith_append same

theorem xorAll_xorBytes {xs ys : Bytes} (whole : Eights xs) (same : xs.length = ys.length) :
    xorAll (beWords (xorBytes xs ys)) = xorAll (beWords xs) ^^^ xorAll (beWords ys) := by
  induction whole generalizing ys with
  | nil =>
    rw [List.eq_nil_of_length_eq_zero same.symm]
    rfl
  | @chunk first rest eight _ ih =>
    rw [List.length_append, eight] at same
    have first' : (ys.take 8).length = 8 := by
      rw [List.length_take]
      omega
    have rest' : rest.length = (ys.drop 8).length := by
      rw [List.length_drop]
      omega
    rw [← List.take_append_drop 8 ys, xorBytes_append (eight.trans first'.symm),
      beWords_append (length_xorBytes eight first'), beWords_append eight, beWords_append first',
      xorAll_cons, xorAll_cons, xorAll_cons, ih rest',
      fromBeBytes_xorBytes (eight.trans first'.symm)]
    ac_rfl

/-- The chunks are combined to the exclusive or of their words. -/
theorem fromBeBytes_xorChunks {acc bytes : Bytes} {n : Nat} (eight : acc.length = 8)
    (whole : Eights bytes) (enough : bytes.length ≤ n) :
    fromBeBytes (xorChunks n acc bytes) = fromBeBytes acc ^^^ xorAll (beWords bytes) := by
  induction whole generalizing acc n with
  | nil =>
    have done : xorChunks n acc [] = acc := by
      cases n <;> rfl
    rw [done]
    exact UInt64.xor_zero.symm
  | @chunk first rest first_eight _ ih =>
    rw [List.length_append] at enough
    obtain ⟨n, rfl⟩ : ∃ m, n = m + 1 := ⟨n - 1, by omega⟩
    have nonempty : ¬ (first ++ rest).isEmpty = true := by
      rw [List.isEmpty_iff, ← List.length_eq_zero_iff, List.length_append]
      omega
    rw [xorChunks, if_neg nonempty, List.take_left' first_eight, List.drop_left' first_eight,
      ih (length_xorBytes eight first_eight) (by omega),
      fromBeBytes_xorBytes (eight.trans first_eight.symm), beWords_append first_eight,
      xorAll_cons, UInt64.xor_assoc]

/-! ## Padding -/

theorem xorBytes_replicate (n : Nat) :
    xorBytes (List.replicate n 0) (List.replicate n 0) = List.replicate n 0 :=
  xorBytes_zeros List.length_replicate

theorem eights_padLast (bytes : Bytes) : Eights (padLast bytes) := by
  apply eights_of_length
  rw [padLast_eq rfl, length_padTo (by omega)]
  omega

/-- The longer buffer has more zeros at its end, in whole words but for the last. -/
theorem xorWords_padTo {size : Nat} {field : Bytes} (fits : field.length ≤ size) :
    xorWords (padTo size field) = xorWords field := by
  have longer : padLast (padTo size field) =
      padLast field ++ List.replicate (8 * ((size + 7) / 8 - (field.length + 7) / 8)) 0 := by
    rw [padLast_eq (length_padTo fits), padLast_eq (rfl : field.length = _), padTo, padTo, padTo,
      List.length_append, List.length_replicate, List.append_assoc, List.append_assoc,
      List.replicate_append_replicate, List.replicate_append_replicate]
    congr 2
    omega
  rw [xorWords, longer, xorAll_append_zeros (eights_padLast field), xorWords]

theorem xorWords_xorBytes {xs ys : Bytes} (same : xs.length = ys.length) :
    xorWords (xorBytes xs ys) = xorWords xs ^^^ xorWords ys := by
  have both : (xorBytes xs ys).length = ys.length := length_xorBytes same rfl
  have padded : padLast (xorBytes xs ys) = xorBytes (padLast xs) (padLast ys) := by
    rw [padLast_eq both, padLast_eq same, padLast_eq (rfl : ys.length = _), padTo, padTo, padTo,
      xorBytes_append same, both, same, xorBytes_replicate]
  have lengths : (padLast xs).length = (padLast ys).length := by
    rw [padLast_eq same, padLast_eq (rfl : ys.length = _), length_padTo (by omega),
      length_padTo (by omega)]
  rw [xorWords, padded, xorAll_xorBytes (eights_padLast xs) lengths, xorWords, xorWords]

/-- Fields that fit in the buffers are combined to the words of each. -/
theorem xorWords_padded {size : Nat} {fields : List Bytes} {acc : Bytes}
    (fit : ∀ field ∈ fields, field.length ≤ size) (filled : acc.length = size) :
    ((fields.map (padTo size)).foldl xorBytes acc).length = size ∧
      xorWords ((fields.map (padTo size)).foldl xorBytes acc) =
        xorWords acc ^^^ xorAll (fields.map xorWords) := by
  induction fields generalizing acc with
  | nil => exact ⟨filled, UInt64.xor_zero.symm⟩
  | cons field fields ih =>
    rw [List.forall_mem_cons] at fit
    have padded := length_padTo fit.1
    obtain ⟨length, words⟩ := ih fit.2 (length_xorBytes filled padded)
    refine ⟨length, words.trans ?_⟩
    rw [xorWords_xorBytes (filled.trans padded.symm), xorWords_padTo fit.1, List.map_cons,
      xorAll_cons, UInt64.xor_assoc]

theorem le_foldl_max (start : Nat) (sizes : List Nat) :
    start ≤ sizes.foldl max start ∧ ∀ n ∈ sizes, n ≤ sizes.foldl max start := by
  induction sizes generalizing start with
  | nil => exact ⟨Nat.le_refl start, nofun⟩
  | cons size sizes ih =>
    obtain ⟨started, later⟩ := ih (max start size)
    rw [List.foldl_cons]
    constructor
    · exact Nat.le_trans (Nat.le_max_left ..) started
    · intro n hn
      rcases List.mem_cons.mp hn with rfl | hn
      · exact Nat.le_trans (Nat.le_max_right ..) started
      · exact later n hn

/-- The last two steps: whole words, and these with the previous seed. -/
theorem fromBeBytes_folded {size : Nat} {result : Bytes} (previous : UInt64)
    (length : result.length = size) :
    fromBeBytes (xorBytes (xorChunks (padTo ((size + 7) / 8 * 8) result).length
      (List.replicate 8 0) (padTo ((size + 7) / 8 * 8) result)) (toBeBytes previous)) =
        xorWords result ^^^ previous := by
  have whole : padTo ((size + 7) / 8 * 8) result = padLast result := (padLast_eq length).symm
  have multiple : (padLast result).length % 8 = 0 := by
    rw [← whole, length_padTo (by omega)]
    omega
  have seeded : (xorChunks (padLast result).length (List.replicate 8 0) (padLast result)).length =
      (toBeBytes previous).length :=
    length_xorChunks _ List.length_replicate multiple
  rw [whole, fromBeBytes_xorBytes seeded, fromBeBytes_toBeBytes,
    fromBeBytes_xorChunks List.length_replicate (eights_padLast result) (Nat.le_refl _),
    fromBeBytes_zeros, UInt64.zero_xor, xorWords]

theorem fromBeBytes_attributes (attributes : List Bytes) (previous : UInt64) :
    (let maxLength := (attributes.map List.length).foldl max 0
    let xorResult := (attributes.map (padTo maxLength)).foldl xorBytes
      (List.replicate maxLength 0)
    let xorResult := padTo ((maxLength + 7) / 8 * 8) xorResult
    let chunk := xorChunks xorResult.length (List.replicate 8 0) xorResult
    fromBeBytes (xorBytes chunk (toBeBytes previous))) =
      xorAll (attributes.map xorWords) ^^^ previous := by
  extract_lets size result padded chunk
  have fit : ∀ field ∈ attributes, field.length ≤ size := fun field hfield =>
    (le_foldl_max 0 _).2 _ (List.mem_map_of_mem hfield)
  obtain ⟨length, words⟩ := xorWords_padded fit (List.length_replicate (n := size) (a := 0))
  have zeros : xorWords (List.replicate size 0) = 0 := by
    have empty : padTo size [] = List.replicate size 0 := by
      rw [padTo, List.nil_append, List.length_nil, Nat.sub_zero]
    rw [← empty, xorWords_padTo (Nat.zero_le size)]
    rfl
  rw [zeros, UInt64.zero_xor] at words
  have folded := fromBeBytes_folded previous length
  rw [words] at folded
  exact folded

end Fields

/-! ## The seed -/

namespace SeedSource

def fields (seed : SeedSource) : List Bytes :=
  [seed.nonce, seed.nwName, seed.previousBlockHash.asBytes, seed.txsHash.asBytes,
    seed.rxsHash.asBytes]

/-- What the seed is for: a number that every field has a part in, by itself. -/
def wordSeed (seed : SeedSource) : UInt64 :=
  seed.previousSeed ^^^ xorAll (seed.fields.map xorWords)

theorem getSeed_eq_wordSeed (seed : SeedSource) : seed.getSeed = seed.wordSeed := by
  have words : seed.getSeed = _ := fromBeBytes_attributes [seed.nwName, seed.nonce,
    seed.previousBlockHash.asBytes, seed.txsHash.asBytes, seed.rxsHash.asBytes] seed.previousSeed
  rw [words]
  simp only [wordSeed, fields, List.map_cons, List.map_nil, xorAll_cons]
  ac_rfl

variable [Primitives]

/-- Whatever the lengths of its fields, a seed source has a seed, the exclusive or of the
previous seed and of all words of its fields. -/
theorem getSeedOrPanic_eq_wordSeed {seed : SeedSource} (valid : seed.Valid) :
    seed.getSeedOrPanic = .ok seed.wordSeed := by
  rw [getSeedOrPanic_eq valid, getSeed_eq_wordSeed]

end SeedSource

namespace DRandSample

attribute [local instance] Sample.primitives

/-- No two fields have as many bytes, but for the default hashes. -/
def mixedSource : SeedSource where
  nonce := [1, 2, 3, 4, 5, 6, 7, 8, 9]
  nwName := [98, 111, 111, 116]
  previousSeed := 2
  previousBlockHash := .pack multihashTypeIdentity [20, 30] (by decide)
  txsHash := .default
  rxsHash := .default

theorem mixedSource_valid : mixedSource.Valid := by
  have packed : Hash.new .identity [20, 30] = .ok mixedSource.previousBlockHash := rfl
  exact ⟨.new packed, .default, .default⟩

theorem mixedSource_seed : mixedSource.getSeedOrPanic = .ok 7669481104361260810 :=
  (SeedSource.getSeedOrPanic_eq_wordSeed mixedSource_valid).trans (by decide +kernel)

end DRandSample

end Trinci
