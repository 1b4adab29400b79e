import Trinci.WasmMachine

/-!
# What burnt fuel is charged

A limit in bitbell is turned into a limit in wm fuel, and the fuel that was burnt
back into bitbell. Both conversions follow the same rounded lines, so within a limit
the charge stays within it, as long as they use the same side of a line. Above the
last range the charge uses the side that turns bitbell into fuel. The numbers are
words; none of the products leaves the signed range for fuel up to the maximum.
-/

namespace RoundedLine

/-- A line with a rational slope, in whole numbers. -/
structure Line where
  num : ℤ
  den : ℤ
  intercept : ℤ
  deriving DecidableEq

/-- A number that a signed word holds, when the words end before `bound`. -/
def Signed (bound n : ℤ) : Prop := -bound ≤ n ∧ n < bound

namespace Line

/-- The height over `x`, rounded towards zero where it is above the intercept. -/
def level (l : Line) (x : ℤ) : ℤ := (x * l.num).tdiv l.den + l.intercept

/-- Where the line has the height `y`. -/
def reaches (l : Line) (y : ℤ) : ℤ :=
  (y * l.den).tdiv l.num - (l.intercept * l.den).tdiv l.num

/-- On the way to where the line reaches `y` every number fits a signed word, and the
unsigned number at either end is the signed one. -/
structure FitsAt (l : Line) (bound y : ℤ) : Prop where
  amount : 0 ≤ y ∧ y < bound
  product : Signed bound (y * l.den)
  quotient : Signed bound ((y * l.den).tdiv l.num)
  shift : Signed bound (l.intercept * l.den)
  shifted : Signed bound ((l.intercept * l.den).tdiv l.num)
  reached : 0 ≤ l.reaches y ∧ l.reaches y < bound

variable {l : Line} {x y : ℤ}

/-- The heights up to the point where the line reaches `y` are at most `y`. -/
theorem level_le_of_le_reaches (hnum : 0 < l.num) (hden : 0 < l.den)
    (whole : l.num ∣ l.intercept * l.den) (hx : 0 ≤ x) (hy : 0 ≤ y) (h : x ≤ l.reaches y) :
    l.level x ≤ y := by
  obtain ⟨shift, hshift⟩ := whole
  have hreach : x + shift ≤ y * l.den / l.num := by
    rw [reaches, hshift, Int.mul_tdiv_cancel_left _ hnum.ne', Int.tdiv_eq_ediv_of_nonneg
      (Int.mul_nonneg hy hden.le)] at h
    omega
  have hproduct : (x + shift) * l.num ≤ y * l.den := (Int.le_ediv_iff_mul_le hnum).mp hreach
  rw [Int.add_mul, Int.mul_comm shift, ← hshift] at hproduct
  have hline : x * l.num ≤ (y - l.intercept) * l.den := by
    rw [Int.sub_mul]
    omega
  have hquotient : x * l.num / l.den ≤ y - l.intercept := Int.ediv_le_of_le_mul hden hline
  rw [level, Int.tdiv_eq_ediv_of_nonneg (Int.mul_nonneg hx hnum.le)]
  omega

end Line

end RoundedLine

namespace Trinci

open RoundedLine

/-! ## Words -/

theorem toInt_toInt64 {x : UInt64} (h : x.toNat < 2 ^ 63) : x.toInt64.toInt = x.toNat := by
  change x.toBitVec.toInt = x.toNat
  have small : 2 * x.toBitVec.toNat < 2 ^ 64 := by
    have same : x.toBitVec.toNat = x.toNat := rfl
    omega
  exact BitVec.toInt_eq_toNat_of_lt small

theorem toNat_toUInt64 {n : Int64} (h : 0 ≤ n.toInt) : (n.toUInt64.toNat : ℤ) = n.toInt := by
  have nonneg : (0 : Int64) ≤ n := Int64.le_iff_toInt_le.mpr h
  rw [Int64.toNat_toUInt64_of_le nonneg]
  exact Int.toNat_of_nonneg h

theorem toNat_min (x y : UInt64) : (min x y).toNat = min x.toNat y.toNat := by
  change (if x ≤ y then x else y).toNat = _
  by_cases h : x ≤ y
  · have hnat : x.toNat ≤ y.toNat := UInt64.le_iff_toNat_le.mp h
    rw [if_pos h, Nat.min_eq_left hnat]
  · have hnat : y.toNat < x.toNat := UInt64.lt_iff_toNat_lt.mp (UInt64.not_le.mp h)
    rw [if_neg h, Nat.min_eq_right hnat.le]

/-- The line that a slope and an intercept of the fuel constants describe. -/
def fuelLine (m : Int64 × Int64) (q : Int64) : Line := ⟨m.1.toInt, m.2.toInt, q.toInt⟩

/-- Slopes and intercepts for which fuel up to the maximum stays in the signed range. -/
structure Small (m : Int64 × Int64) (q : Int64) : Prop where
  num : 0 < m.1.toInt ∧ m.1.toInt ≤ 1000
  den : 0 < m.2.toInt ∧ m.2.toInt ≤ 1000
  intercept : -10000000 ≤ q.toInt ∧ q.toInt ≤ 10000000

theorem bmod_of_small {n : ℤ} (h : -2 ^ 62 ≤ n ∧ n ≤ 2 ^ 62) : n.bmod (2 ^ 64) = n := by
  apply Int.bmod_eq_of_le
  · omega
  · omega

/-- Where the signed words end. -/
def signedBound : ℤ := 9223372036854775808

theorem bmod_of_signed {n : ℤ} (h : Signed signedBound n) : n.bmod (2 ^ 64) = n := by
  obtain ⟨lower, upper⟩ := h
  rw [signedBound] at lower upper
  apply Int.bmod_eq_of_le
  · omega
  · omega

/-- A quotient is no further from zero than what is divided. -/
theorem tdiv_small {n d bound : ℤ} (h : -bound ≤ n ∧ n ≤ bound) :
    -bound ≤ n.tdiv d ∧ n.tdiv d ≤ bound := by
  have abs := Int.natAbs_tdiv_le_natAbs n d
  omega

/-- A product with a small factor. -/
theorem mul_small {n k bound : ℤ} (hn : -bound ≤ n ∧ n ≤ bound) (hk : 0 < k ∧ k ≤ 1000) :
    -(bound * 1000) ≤ n * k ∧ n * k ≤ bound * 1000 := by
  have nonneg : 0 ≤ bound := by omega
  have scaled : bound * k ≤ bound * 1000 := Int.mul_le_mul_of_nonneg_left hk.2 nonneg
  have upper : n * k ≤ bound * k := Int.mul_le_mul_of_nonneg_right hn.2 hk.1.le
  have lower : -bound * k ≤ n * k := Int.mul_le_mul_of_nonneg_right hn.1 hk.1.le
  rw [Int.neg_mul] at lower
  omega

section Conversions

variable {m : Int64 × Int64} {q : Int64} {x : UInt64}

theorem amount {y : ℕ} (hy : y ≤ 1000000000) :
    -1000000000 ≤ (y : ℤ) ∧ (y : ℤ) ≤ 1000000000 := by
  omega

theorem retrieveY_toNat (hm : Small m q) (hx : x.toNat ≤ 1000000000)
    (h : 0 ≤ (fuelLine m q).level x.toNat) :
    ((retrieveY x m q).toNat : ℤ) = (fuelLine m q).level x.toNat := by
  have hword : x.toInt64.toInt = x.toNat := toInt_toInt64 (by omega)
  have hproduct := mul_small (amount hx) hm.num
  have hquotient := tdiv_small (d := m.2.toInt) hproduct
  have hq := hm.intercept
  have hvalue : (x.toInt64 * m.1 / m.2 + q).toInt = (fuelLine m q).level x.toNat := by
    rw [Int64.toInt_add, Int64.toInt_div, Int64.toInt_mul, hword,
      bmod_of_small (n := x.toNat * m.1.toInt) (by omega),
      bmod_of_small (n := Int.tdiv _ _) (by omega), bmod_of_small (by omega)]
    rfl
  rw [retrieveY, toNat_toUInt64 (by rw [hvalue]; exact h), hvalue]

/-- Small amounts stay in the signed words along every line of the fuel constants. -/
theorem fitsAt_of_small {y : ℕ} (hm : Small m q)
    (hy : y ≤ 1000000000) (h : 0 ≤ (fuelLine m q).reaches y) :
    (fuelLine m q).FitsAt signedBound y := by
  have hamount := amount hy
  have hproduct := mul_small hamount hm.den
  have hquotient := tdiv_small (d := m.1.toInt) hproduct
  have hshift := mul_small hm.intercept hm.den
  have hshifted := tdiv_small (d := m.1.toInt) hshift
  have hreaches : (fuelLine m q).reaches y =
      (y * m.2.toInt).tdiv m.1.toInt - (q.toInt * m.2.toInt).tdiv m.1.toInt := rfl
  rw [fuelLine, signedBound]
  constructor
  · omega
  · dsimp only [Signed]
    omega
  · dsimp only [Signed]
    omega
  · dsimp only [Signed]
    omega
  · dsimp only [Signed]
    omega
  · rw [fuelLine] at hreaches h
    omega

/-- Where nothing wraps around, the conversion follows the line. -/
theorem retrieveX_of_fitsAt (h : (fuelLine m q).FitsAt signedBound x.toNat) :
    ((retrieveX x m q).toNat : ℤ) = (fuelLine m q).reaches x.toNat := by
  have hamount := h.amount.2
  have hproduct := bmod_of_signed h.product
  have hquotient := bmod_of_signed h.quotient
  have hshift := bmod_of_signed h.shift
  have hshifted := bmod_of_signed h.shifted
  have hreached := bmod_of_signed ⟨by have := h.reached.1; rw [signedBound]; omega, h.reached.2⟩
  rw [signedBound] at hamount
  have hword : x.toInt64.toInt = x.toNat := toInt_toInt64 (by omega)
  have hvalue : (x.toInt64 * m.2 / m.1 - q * m.2 / m.1).toInt = (fuelLine m q).reaches x.toNat := by
    rw [Int64.toInt_sub, Int64.toInt_div, Int64.toInt_mul, Int64.toInt_div, Int64.toInt_mul, hword]
    rw [fuelLine] at hproduct hquotient hshift hshifted
    rw [hproduct, hquotient, hshift, hshifted]
    exact hreached
  rw [retrieveX, toNat_toUInt64 (by rw [hvalue]; exact h.reached.1), hvalue]

theorem retrieveX_toNat (hm : Small m q) (hx : x.toNat ≤ 1000000000)
    (h : 0 ≤ (fuelLine m q).reaches x.toNat) :
    ((retrieveX x m q).toNat : ℤ) = (fuelLine m q).reaches x.toNat :=
  retrieveX_of_fitsAt (fitsAt_of_small hm hx h)

end Conversions

/-! ## The ranges -/

theorem slowGrowth_small : Small slowGrowthRangeSlope slowGrowthRangeIntercept where
  num := by decide
  den := by decide
  intercept := by decide

theorem fastGrowth_small : Small fastGrowthRangeSlope fastGrowthRangeIntercept where
  num := by decide
  den := by decide
  intercept := by decide

theorem saturation_small : Small saturationRangeSlope saturationRangeIntercept where
  num := by decide
  den := by decide
  intercept := by decide

theorem slowGrowth_line :
    fuelLine slowGrowthRangeSlope slowGrowthRangeIntercept = ⟨2, 100, -9000⟩ := by decide

theorem fastGrowth_line :
    fuelLine fastGrowthRangeSlope fastGrowthRangeIntercept = ⟨5, 100, -309000⟩ := by decide

theorem saturation_line :
    fuelLine saturationRangeSlope saturationRangeIntercept = ⟨1, 1000, 4591000⟩ := by decide

theorem slowGrowth_reaches {y : ℤ} (hy : 0 ≤ y) :
    (fuelLine slowGrowthRangeSlope slowGrowthRangeIntercept).reaches y = 50 * y + 450000 := by
  have shift : (-9000 * 100 : ℤ).tdiv 2 = -450000 := by decide
  rw [slowGrowth_line]
  change (y * 100).tdiv 2 - (-9000 * 100 : ℤ).tdiv 2 = _
  rw [shift, Int.tdiv_eq_ediv_of_nonneg (by omega)]
  omega

theorem fastGrowth_reaches {y : ℤ} (hy : 0 ≤ y) :
    (fuelLine fastGrowthRangeSlope fastGrowthRangeIntercept).reaches y = 20 * y + 6180000 := by
  have shift : (-309000 * 100 : ℤ).tdiv 5 = -6180000 := by decide
  rw [fastGrowth_line]
  change (y * 100).tdiv 5 - (-309000 * 100 : ℤ).tdiv 5 = _
  rw [shift, Int.tdiv_eq_ediv_of_nonneg (by omega)]
  omega

theorem saturation_reaches (y : ℤ) :
    (fuelLine saturationRangeSlope saturationRangeIntercept).reaches y =
      1000 * y - 4591000000 := by
  rw [saturation_line]
  change (y * 1000).tdiv 1 - (4591000 * 1000 : ℤ).tdiv 1 = _
  rw [Int.tdiv_one, Int.tdiv_one]
  omega

theorem slowGrowth_level_pos {x : ℤ} (hx : 500000 ≤ x) :
    0 ≤ (fuelLine slowGrowthRangeSlope slowGrowthRangeIntercept).level x := by
  rw [slowGrowth_line]
  change 0 ≤ (x * 2).tdiv 100 + -9000
  rw [Int.tdiv_eq_ediv_of_nonneg (by omega)]
  omega

theorem fastGrowth_level_pos {x : ℤ} (hx : 10000000 ≤ x) :
    0 ≤ (fuelLine fastGrowthRangeSlope fastGrowthRangeIntercept).level x := by
  rw [fastGrowth_line]
  change 0 ≤ (x * 5).tdiv 100 + -309000
  rw [Int.tdiv_eq_ediv_of_nonneg (by omega)]
  omega

section Charges

variable {f b : UInt64}

/-- Fuel of the two lower ranges, up to where the slow growth reaches `y`. -/
theorem slowGrowth_charge_le {y : ℕ} (hf : f.toNat ≤ 10000000) (hy : 1000 ≤ y)
    (h : f.toNat ≤ 50 * y + 450000) : (wmFuelToBitbell f).toNat ≤ y := by
  by_cases hbase : f ≤ 500000
  · rw [wmFuelToBitbell, if_pos hbase]
    exact hy
  · have hrange : f ≤ 10000000 := UInt64.le_iff_toNat_le.mpr hf
    have habove : 500000 < f.toNat := UInt64.lt_iff_toNat_lt.mp (UInt64.not_le.mp hbase)
    have hcharge := retrieveY_toNat slowGrowth_small (by omega)
      (slowGrowth_level_pos (x := f.toNat) (by omega))
    have hover : (fuelLine slowGrowthRangeSlope slowGrowthRangeIntercept).level f.toNat ≤ y := by
      apply Line.level_le_of_le_reaches slowGrowth_small.num.1 slowGrowth_small.den.1 (by decide)
      · omega
      · omega
      · rw [slowGrowth_reaches (by omega)]
        omega
    rw [wmFuelToBitbell, if_neg hbase, if_pos hrange]
    omega

/-- Fuel of the third range, up to where the fast growth reaches `y`. -/
theorem fastGrowth_charge_le {y : ℕ} (hlow : 10000000 < f.toNat) (hf : f.toNat ≤ 100000000)
    (h : f.toNat ≤ 20 * y + 6180000) : (wmFuelToBitbell f).toNat ≤ y := by
  have hbase : ¬ f ≤ 500000 := by
    intro hle
    have hle : f.toNat ≤ 500000 := UInt64.le_iff_toNat_le.mp hle
    omega
  have hslow : ¬ f ≤ 10000000 := by
    intro hle
    have hle : f.toNat ≤ 10000000 := UInt64.le_iff_toNat_le.mp hle
    omega
  have hrange : f ≤ 100000000 := UInt64.le_iff_toNat_le.mpr hf
  have hcharge := retrieveY_toNat fastGrowth_small (by omega)
    (fastGrowth_level_pos (x := f.toNat) (by omega))
  have hover : (fuelLine fastGrowthRangeSlope fastGrowthRangeIntercept).level f.toNat ≤ y := by
    apply Line.level_le_of_le_reaches fastGrowth_small.num.1 fastGrowth_small.den.1 (by decide)
    · omega
    · omega
    · rw [fastGrowth_reaches (by omega)]
      omega
  rw [wmFuelToBitbell, if_neg hbase, if_neg hslow, if_pos hrange]
  omega

/-- Above the last range the charge is a thousand times the fuel. -/
theorem saturation_charge (hlow : 100000000 < f.toNat) (hf : f.toNat ≤ 1000000000) :
    (wmFuelToBitbell f).toNat + 4591000000 = 1000 * f.toNat := by
  have above : ∀ k : UInt64, k.toNat ≤ 100000000 → ¬ f ≤ k := by
    intro k hk hle
    have hle : f.toNat ≤ k.toNat := UInt64.le_iff_toNat_le.mp hle
    omega
  have hreaches := saturation_reaches f.toNat
  have hcharge := retrieveX_toNat saturation_small hf (by omega)
  rw [wmFuelToBitbell, if_neg (above 500000 (by decide)), if_neg (above 10000000 (by decide)),
    if_neg (above 100000000 (by decide))]
  omega

/-- The limit of a small bitbell amount, in fuel. -/
theorem bitbellToWmFuel_toNat (hb : 1000 ≤ b.toNat) (hupper : b.toNat ≤ 4691000) :
    (bitbellToWmFuel b).toNat =
      if b.toNat ≤ 191000 then 50 * b.toNat + 450000 else 20 * b.toNat + 6180000 := by
  have hbase : ¬ b ≤ 999 := by
    intro hle
    have hle : b.toNat ≤ 999 := UInt64.le_iff_toNat_le.mp hle
    omega
  have hrange : b ≤ 4691000 := UInt64.le_iff_toNat_le.mpr hupper
  by_cases hslow : b ≤ 191000
  · have hle : b.toNat ≤ 191000 := UInt64.le_iff_toNat_le.mp hslow
    have hreaches := slowGrowth_reaches (y := b.toNat) (by omega)
    have hlimit := retrieveX_toNat slowGrowth_small (x := b) (by omega) (by omega)
    rw [bitbellToWmFuel, if_neg hbase, if_pos hslow, if_pos hle]
    omega
  · have hlt : 191000 < b.toNat := UInt64.lt_iff_toNat_lt.mp (UInt64.not_le.mp hslow)
    have hreaches := fastGrowth_reaches (y := b.toNat) (by omega)
    have hlimit := retrieveX_toNat fastGrowth_small (x := b) (by omega) (by omega)
    rw [bitbellToWmFuel, if_neg hbase, if_neg hslow, if_pos hrange, if_neg (by omega)]
    omega

/-- Below the last range the charge of the fuel within a limit is within the limit. -/
theorem charge_le_of_limit (hb : 1000 ≤ b.toNat) (hf : f.toNat ≤ 100000000)
    (h : f.toNat ≤ (bitbellToWmFuel b).toNat) : (wmFuelToBitbell f).toNat ≤ b.toNat := by
  by_cases hfast : b.toNat ≤ 4691000
  · rw [bitbellToWmFuel_toNat hb hfast] at h
    by_cases hslow : b.toNat ≤ 191000
    · rw [if_pos hslow] at h
      exact slowGrowth_charge_le (by omega) hb h
    · rw [if_neg hslow] at h
      by_cases hlow : f.toNat ≤ 10000000
      · have hcharge := slowGrowth_charge_le (y := 191000) hlow (by omega) (by omega)
        omega
      · exact fastGrowth_charge_le (by omega) hf h
  · -- the limit is above the charge for all of this fuel
    by_cases hlow : f.toNat ≤ 10000000
    · have hcharge := slowGrowth_charge_le (y := 191000) hlow (by omega) (by omega)
      omega
    · have hcharge := fastGrowth_charge_le (y := 4691000) (by omega) hf (by omega)
      omega

/-- For every limit and every consumption within it: the charge is within the limit
exactly below the last range, and in the last range for limits that are a thousand
times the consumption, less the intercept. -/
theorem charge_le_limit_iff (b f : UInt64) (hb : 1000 ≤ b)
    (hf : f ≤ min (bitbellToWmFuel b) maxWmFuel) :
    wmFuelToBitbell f ≤ b ↔ f ≤ 100000000 ∨ 1000 * f.toNat ≤ b.toNat + 4591000000 := by
  rw [UInt64.le_iff_toNat_le, toNat_min] at hf
  have hlimit : f.toNat ≤ (bitbellToWmFuel b).toNat := Nat.le_trans hf (Nat.min_le_left ..)
  have hmax : f.toNat ≤ 1000000000 := Nat.le_trans hf (Nat.min_le_right ..)
  have hb : 1000 ≤ b.toNat := UInt64.le_iff_toNat_le.mp hb
  rw [UInt64.le_iff_toNat_le]
  by_cases hlow : f ≤ 100000000
  · have hnat : f.toNat ≤ 100000000 := UInt64.le_iff_toNat_le.mp hlow
    constructor
    · exact fun _ => .inl hlow
    · exact fun _ => charge_le_of_limit hb hnat hlimit
  · have hnat : 100000000 < f.toNat := UInt64.lt_iff_toNat_lt.mp (UInt64.not_le.mp hlow)
    have hcharge := saturation_charge hnat hmax
    constructor
    · intro h
      right
      omega
    · rintro (h | h)
      · exact absurd h hlow
      · omega

/-- The last unit of the third range is charged its limit. -/
theorem charge_le_limit_last : (1000 : UInt64) ≤ 4691000 ∧ wmFuelToBitbell 100000000 ≤ 4691000 :=
  ⟨by decide, (charge_le_limit_iff 4691000 100000000 (by decide) (by decide)).mpr (.inl (by decide))⟩

/-- One bitbell more allows a thousand units of fuel more. The first of them costs
twenty thousand times the limit. -/
theorem charge_above_limit : (1000 : UInt64) ≤ 4691001 ∧
    (100000001 : UInt64) ≤ min (bitbellToWmFuel 4691001) maxWmFuel ∧
    wmFuelToBitbell 100000001 = 95409001000 ∧ ¬ wmFuelToBitbell 100000001 ≤ 4691001 := by
  decide

end Charges

end Trinci
