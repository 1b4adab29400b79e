import Trinci.FuelConversion
import Trinci.WasmService

/-!
# Fuel limits near the end of the words

The lines of the conversion are followed in signed words. A number on the way that such a
word does not hold wraps around, and with it the limit: an amount can be worth less fuel
than a smaller one. The last range multiplies by a thousand, so it is the range where this
happens, from the thousandth part of the largest signed word on. A declared limit is a
word of its signer's choice and a balance is what a contract wrote, so both can be there.
-/

namespace Trinci

open RoundedLine

/-- The line that an amount is converted along, where its range has one. -/
def rangeLine (bitbell : UInt64) : Option Line :=
  if bitbell ≤ 999 then none
  else if bitbell ≤ 191000 then some (fuelLine slowGrowthRangeSlope slowGrowthRangeIntercept)
  else if bitbell ≤ 4691000 then some (fuelLine fastGrowthRangeSlope fastGrowthRangeIntercept)
  else some (fuelLine saturationRangeSlope saturationRangeIntercept)

/-- The conversion of an amount stays in the signed words. -/
def EvaluatesExactly (bitbell : UInt64) : Prop :=
  ∀ l, rangeLine bitbell = some l → l.FitsAt signedBound bitbell.toNat

/-- What an amount is worth in fuel along the lines. -/
def fuelAlongLines (bitbell : ℕ) : ℕ :=
  if bitbell ≤ 999 then 0
  else if bitbell ≤ 191000 then 50 * bitbell + 450000
  else if bitbell ≤ 4691000 then 20 * bitbell + 6180000
  else 1000 * bitbell - 4591000000

/-- More is worth more, also where one range meets the next. -/
theorem fuelAlongLines_mono {b c : ℕ} (h : b ≤ c) : fuelAlongLines b ≤ fuelAlongLines c := by
  unfold fuelAlongLines
  split_ifs <;> omega

/-- The largest amount whose conversion stays in the signed words. -/
def lastExactBitbell : UInt64 := 9223372036854775

section Ranges

/-- The last line is steep: it stays in the signed words for amounts up to the last. -/
theorem saturation_fitsAt_iff {y : ℕ} (hy : 4691000 < y) :
    (fuelLine saturationRangeSlope saturationRangeIntercept).FitsAt signedBound y ↔
      y ≤ 9223372036854775 := by
  have hreaches := saturation_reaches y
  rw [saturation_line] at hreaches ⊢
  rw [signedBound]
  constructor
  · intro fits
    have hproduct : (y : ℤ) * 1000 < 9223372036854775808 := fits.product.2
    omega
  · intro h
    constructor
    · omega
    · change -9223372036854775808 ≤ (y : ℤ) * 1000 ∧ (y : ℤ) * 1000 < 9223372036854775808
      omega
    · change Signed _ (((y : ℤ) * 1000).tdiv 1)
      rw [Int.tdiv_one, Signed]
      omega
    · rw [Signed]
      decide
    · rw [Signed]
      decide
    · omega

variable {b : UInt64}

theorem evaluatesExactly_iff : EvaluatesExactly b ↔ b ≤ lastExactBitbell := by
  have hlast : lastExactBitbell.toNat = 9223372036854775 := rfl
  rw [UInt64.le_iff_toNat_le, hlast]
  by_cases hbase : b ≤ 999
  · have hnat : b.toNat ≤ 999 := UInt64.le_iff_toNat_le.mp hbase
    refine iff_of_true ?_ (by omega)
    intro l hl
    rw [rangeLine, if_pos hbase] at hl
    cases hl
  · by_cases hslow : b ≤ 191000
    · have hnat : b.toNat ≤ 191000 := UInt64.le_iff_toNat_le.mp hslow
      have hreaches := slowGrowth_reaches (y := b.toNat) (by omega)
      refine iff_of_true ?_ (by omega)
      intro l hl
      rw [rangeLine, if_neg hbase, if_pos hslow] at hl
      cases hl
      exact fitsAt_of_small slowGrowth_small (by omega) (by omega)
    · by_cases hfast : b ≤ 4691000
      · have hnat : b.toNat ≤ 4691000 := UInt64.le_iff_toNat_le.mp hfast
        have hreaches := fastGrowth_reaches (y := b.toNat) (by omega)
        refine iff_of_true ?_ (by omega)
        intro l hl
        rw [rangeLine, if_neg hbase, if_neg hslow, if_pos hfast] at hl
        cases hl
        exact fitsAt_of_small fastGrowth_small (by omega) (by omega)
      · have hnat : 4691000 < b.toNat := UInt64.lt_iff_toNat_lt.mp (UInt64.not_le.mp hfast)
        rw [EvaluatesExactly, rangeLine, if_neg hbase, if_neg hslow, if_neg hfast,
          ← saturation_fitsAt_iff hnat]
        constructor
        · intro fits
          exact fits _ rfl
        · rintro fits l hl
          cases hl
          exact fits

/-- Up to the last amount the conversion follows the lines. -/
theorem bitbellToWmFuel_eq_fuelAlongLines (h : b ≤ lastExactBitbell) :
    (bitbellToWmFuel b).toNat = fuelAlongLines b.toNat := by
  have evaluates := evaluatesExactly_iff.mpr h
  by_cases hbase : b ≤ 999
  · have hnat : b.toNat ≤ 999 := UInt64.le_iff_toNat_le.mp hbase
    rw [bitbellToWmFuel, if_pos hbase, fuelAlongLines, if_pos hnat]
    rfl
  · have habove : 999 < b.toNat := UInt64.lt_iff_toNat_lt.mp (UInt64.not_le.mp hbase)
    by_cases hfast : b ≤ 4691000
    · have hnat : b.toNat ≤ 4691000 := UInt64.le_iff_toNat_le.mp hfast
      rw [bitbellToWmFuel_toNat habove hnat, fuelAlongLines,
        if_neg (c := b.toNat ≤ 999) (by omega), if_pos hnat]
    · have hnat : 4691000 < b.toNat := UInt64.lt_iff_toNat_lt.mp (UInt64.not_le.mp hfast)
      have hslow : ¬ b ≤ 191000 := by
        intro hle
        have hle : b.toNat ≤ 191000 := UInt64.le_iff_toNat_le.mp hle
        omega
      have hfits := evaluates (fuelLine saturationRangeSlope saturationRangeIntercept) (by
        rw [rangeLine, if_neg hbase, if_neg hslow, if_neg hfast])
      have hvalue := retrieveX_of_fitsAt hfits
      rw [saturation_reaches] at hvalue
      rw [bitbellToWmFuel, if_neg hbase, if_neg hslow, if_neg hfast, fuelAlongLines,
        if_neg (by omega), if_neg (by omega), if_neg (by omega)]
      omega

theorem bitbellToWmFuel_mono {c : UInt64} (hc : c ≤ lastExactBitbell) (h : b ≤ c) :
    bitbellToWmFuel b ≤ bitbellToWmFuel c := by
  have hb : b ≤ lastExactBitbell := UInt64.le_trans h hc
  rw [UInt64.le_iff_toNat_le, bitbellToWmFuel_eq_fuelAlongLines hb,
    bitbellToWmFuel_eq_fuelAlongLines hc]
  exact fuelAlongLines_mono (UInt64.le_iff_toNat_le.mp h)

end Ranges

/-! ## Limits -/

section Limits

variable [Deserialize UInt64]

/-- What an account holds of the coin that fuel is bought with. -/
def balanceOf (caller : String) (accounts : Accounts) : UInt64 :=
  (((accounts.loadAccount caller).bind fun account => account.assets.lookup "TRINCI").map
    fun assets => (rmpDeserialize assets).getD 0).getD 0

theorem calculateWmFuelLimit_eq {height : UInt64} (counted : activateFuelConsumption < height)
    (caller : String) (accounts : Accounts) (limit : UInt64) :
    calculateWmFuelLimit caller accounts height limit =
      min (bitbellToWmFuel (min limit (balanceOf caller accounts))) maxWmFuel := by
  have min_zero : min limit 0 = 0 := by
    rw [← UInt64.toNat_inj, toNat_min]
    exact Nat.min_zero _
  have broke : min (bitbellToWmFuel (min limit 0)) maxWmFuel = 0 := by
    rw [min_zero]
    decide
  rw [calculateWmFuelLimit, if_pos counted, balanceOf]
  cases accounts.loadAccount caller with
  | none => exact broke.symm
  | some account =>
    dsimp only [Option.bind]
    cases account.assets.lookup "TRINCI" with
    | none => exact broke.symm
    | some assets => rfl

/-- What is asked of an amount: it is converted without a wrap, no smaller amount is worth
more, and a limit that it bounds does not fall when the declared limit or the balance rises
to it. -/
structure SoundAmount (bitbell : UInt64) : Prop where
  evaluates : EvaluatesExactly bitbell
  monotone : ∀ smaller, smaller ≤ bitbell → bitbellToWmFuel smaller ≤ bitbellToWmFuel bitbell
  limits : ∀ (caller : String) (poorer richer : Accounts) (height limit higher : UInt64),
    activateFuelConsumption < height → limit ≤ higher →
    balanceOf caller poorer ≤ balanceOf caller richer →
    min higher (balanceOf caller richer) = bitbell →
    calculateWmFuelLimit caller poorer height limit ≤ calculateWmFuelLimit caller richer height higher

/-- For every amount, of all that words hold: it is converted exactly, and neither
conversion nor limits fall up to it, exactly up to the thousandth part of the largest
signed word. -/
theorem soundAmount_iff (bitbell : UInt64) : SoundAmount bitbell ↔ bitbell ≤ lastExactBitbell := by
  constructor
  · intro sound
    exact evaluatesExactly_iff.mp sound.evaluates
  · intro h
    constructor
    · exact evaluatesExactly_iff.mpr h
    · intro smaller hle
      exact bitbellToWmFuel_mono h hle
    · intro caller poorer richer height limit higher counted hlimit hbalance hmin
      have hamount : min limit (balanceOf caller poorer) ≤ bitbell := by
        rw [UInt64.le_iff_toNat_le] at hlimit hbalance
        rw [← hmin, UInt64.le_iff_toNat_le, toNat_min, toNat_min]
        omega
      have hfuel := UInt64.le_iff_toNat_le.mp (bitbellToWmFuel_mono h hamount)
      rw [calculateWmFuelLimit_eq counted, calculateWmFuelLimit_eq counted, hmin,
        UInt64.le_iff_toNat_le, toNat_min, toNat_min]
      omega

end Limits

namespace Sample

/-- The bitbell of a signer, and a limit declared as high, whose fuel wraps around. -/
def highAmount : UInt64 := 18446744078300552

theorem high_amount_wraps : bitbellToWmFuel highAmount < bitbellToWmFuel 1000 ∧
    ¬ ∀ bitbell, SoundAmount bitbell := by
  have less : bitbellToWmFuel highAmount < bitbellToWmFuel 1000 := by decide
  refine ⟨less, ?_⟩
  intro sound
  have hle := (sound highAmount).monotone 1000 (by decide)
  exact absurd less (UInt64.not_lt.mpr hle)

end Sample

end Trinci
