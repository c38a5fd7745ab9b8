import Mathlib.Algebra.Order.Field.Power
import Mathlib.Data.Rat.Floor
import Mathlib.Tactic.FieldSimp
import Mathlib.Tactic.NormNum
import Mathlib.Tactic.Positivity
import PgRange.Math.FloatQ

/-!
# Rounding to a binary format

The nearest value with a given number of significant binary digits, an even last digit in a tie,
gradual underflow, and an infinity for what is too large: the conversion of an exact value to the
32-bit and the 64-bit format. Rounding keeps the order and the sign, and it leaves the values of the
format alone.
-/

set_option autoImplicit false

namespace PgRange.Math

/-! ### Digits -/

/-- The exponent of the leading binary digit of a positive rational. -/
def binaryExponent (x : ℚ) : ℤ :=
  let e : ℤ := Nat.log2 x.num.natAbs - Nat.log2 x.den
  if (2 : ℚ) ^ e ≤ x then e else e - 1

/-- The nearest integer, and the even one of two. -/
def roundHalfEven (x : ℚ) : ℤ :=
  if x - ⌊x⌋ < 1 / 2 then ⌊x⌋
  else if 1 / 2 < x - ⌊x⌋ then ⌊x⌋ + 1
  else if ⌊x⌋ % 2 = 0 then ⌊x⌋ else ⌊x⌋ + 1

theorem two_zpow_pos (k : ℤ) : (0 : ℚ) < 2 ^ k := zpow_pos (by norm_num) k

theorem two_zpow_le {k m : ℤ} (h : k ≤ m) : (2 : ℚ) ^ k ≤ 2 ^ m :=
  zpow_le_zpow_right₀ (by norm_num) h

/-- The leading digits of numerator and denominator bound the quotient. -/
theorem log2_bounds {x : ℚ} (hx : 0 < x) :
    (2 : ℚ) ^ ((Nat.log2 x.num.natAbs : ℤ) - Nat.log2 x.den - 1) ≤ x ∧
      x < 2 ^ ((Nat.log2 x.num.natAbs : ℤ) - Nat.log2 x.den + 1) := by
  have hnum : x.num.natAbs ≠ 0 := Int.natAbs_ne_zero.mpr (Rat.num_pos.mpr hx).ne'
  have hlow : (2 : ℚ) ^ Nat.log2 x.num.natAbs ≤ (x.num.natAbs : ℚ) := by
    exact_mod_cast Nat.log2_self_le hnum
  have hhigh : (x.num.natAbs : ℚ) < 2 ^ (Nat.log2 x.num.natAbs + 1) := by
    exact_mod_cast Nat.lt_log2_self (n := x.num.natAbs)
  have hden : (2 : ℚ) ^ Nat.log2 x.den ≤ x.den := by
    exact_mod_cast Nat.log2_self_le x.den_ne_zero
  have hden' : (x.den : ℚ) ≤ 2 ^ (Nat.log2 x.den + 1) := by
    exact_mod_cast (Nat.lt_log2_self (n := x.den)).le
  have hpos : (0 : ℚ) < x.den := by exact_mod_cast x.den_pos
  have hval : x = (x.num.natAbs : ℚ) / x.den := by
    have habs : ((x.num.natAbs : ℤ) : ℚ) = x.num := by
      rw [Int.natAbs_of_nonneg (Rat.num_pos.mpr hx).le]
    rw [← Int.cast_natCast, habs, Rat.num_div_den]
  constructor
  · calc (2 : ℚ) ^ ((Nat.log2 x.num.natAbs : ℤ) - Nat.log2 x.den - 1)
        = 2 ^ Nat.log2 x.num.natAbs / 2 ^ (Nat.log2 x.den + 1) := by
          rw [sub_sub, zpow_sub₀ (by norm_num), zpow_natCast]
          norm_cast
      _ ≤ (x.num.natAbs : ℚ) / x.den := by gcongr
      _ = x := hval.symm
  · calc x = (x.num.natAbs : ℚ) / x.den := hval
      _ < 2 ^ (Nat.log2 x.num.natAbs + 1) / 2 ^ Nat.log2 x.den := by gcongr
      _ = 2 ^ ((Nat.log2 x.num.natAbs : ℤ) - Nat.log2 x.den + 1) := by
          rw [sub_add_eq_add_sub, zpow_sub₀ (by norm_num), zpow_natCast]
          norm_cast

/-- The leading binary digit of a positive value does not exceed it. -/
theorem binaryExponent_le {x : ℚ} (hx : 0 < x) : (2 : ℚ) ^ binaryExponent x ≤ x := by
  unfold binaryExponent
  dsimp only
  split_ifs with hle
  · exact hle
  · exact (log2_bounds hx).1

/-- The next one does. -/
theorem lt_binaryExponent {x : ℚ} (hx : 0 < x) : x < 2 ^ (binaryExponent x + 1) := by
  unfold binaryExponent
  dsimp only
  split_ifs with hle
  · exact (log2_bounds hx).2
  · rw [sub_add_cancel]
    exact not_le.mp hle

theorem binaryExponent_lt_of_lt {x : ℚ} (hx : 0 < x) {k : ℤ} (h : x < 2 ^ k) :
    binaryExponent x < k :=
  (zpow_lt_zpow_iff_right₀ (by norm_num)).mp ((binaryExponent_le hx).trans_lt h)

theorem le_binaryExponent_of_le {x : ℚ} (hx : 0 < x) {k : ℤ} (h : 2 ^ k ≤ x) :
    k ≤ binaryExponent x :=
  Int.lt_add_one_iff.mp
    ((zpow_lt_zpow_iff_right₀ (by norm_num)).mp (h.trans_lt (lt_binaryExponent hx)))

theorem binaryExponent_eq {x : ℚ} {k : ℤ} (hle : 2 ^ k ≤ x) (hlt : x < 2 ^ (k + 1)) :
    binaryExponent x = k :=
  have hx := (two_zpow_pos k).trans_le hle
  le_antisymm (Int.lt_add_one_iff.mp (binaryExponent_lt_of_lt hx hlt))
    (le_binaryExponent_of_le hx hle)

/-! ### Integers -/

theorem floor_le_roundHalfEven (x : ℚ) : ⌊x⌋ ≤ roundHalfEven x := by
  unfold roundHalfEven
  split_ifs <;> omega

theorem roundHalfEven_le_floor (x : ℚ) : roundHalfEven x ≤ ⌊x⌋ + 1 := by
  unfold roundHalfEven
  split_ifs <;> omega

/-- Rounding moves a value by at most one half. -/
theorem abs_roundHalfEven_sub_le (x : ℚ) : |(roundHalfEven x : ℚ) - x| ≤ 1 / 2 := by
  have hlow := Int.floor_le x
  have hhigh := Int.lt_floor_add_one x
  unfold roundHalfEven
  split_ifs <;> push_cast <;> rw [abs_le] <;> constructor <;> linarith

theorem roundHalfEven_le_of_lt {x : ℚ} {n : ℤ} (h : x < n + 1 / 2) : roundHalfEven x ≤ n := by
  have hclose := (abs_le.mp (abs_roundHalfEven_sub_le x)).2
  have hlt : (roundHalfEven x : ℚ) < n + 1 := by linarith
  exact Int.lt_add_one_iff.mp (by exact_mod_cast hlt)

theorem roundHalfEven_intCast (n : ℤ) : roundHalfEven n = n := by
  simp [roundHalfEven]

theorem roundHalfEven_mono {x y : ℚ} (h : x ≤ y) : roundHalfEven x ≤ roundHalfEven y := by
  rcases (Int.floor_mono h).lt_or_eq with hlt | heq
  · have := roundHalfEven_le_floor x
    have := floor_le_roundHalfEven y
    omega
  · unfold roundHalfEven
    rw [heq]
    split_ifs <;> first | omega | linarith

theorem roundHalfEven_neg (x : ℚ) : roundHalfEven (-x) = -roundHalfEven x := by
  rcases eq_or_ne (⌊x⌋ : ℚ) x with heq | hne
  · rw [← heq, ← Int.cast_neg, roundHalfEven_intCast, roundHalfEven_intCast]
  · have hlow : (⌊x⌋ : ℚ) < x := lt_of_le_of_ne (Int.floor_le x) hne
    have hhigh := Int.lt_floor_add_one x
    have hfloor : ⌊-x⌋ = -⌊x⌋ - 1 := by
      rw [Int.floor_eq_iff]
      push_cast
      constructor <;> linarith
    unfold roundHalfEven
    rw [hfloor]
    push_cast
    split_ifs <;> first | omega | (exfalso; linarith)

/-! ### Formats -/

/-- A binary format: how many digits its values have, the exponent of the least value that has all
of them, and the exponent from which on values are infinite. -/
structure BinaryFormat where
  digits : ℕ
  least : ℤ
  top : ℤ
  two_le_digits : 2 ≤ digits
  least_le : least ≤ -126
  le_top : 128 ≤ top

namespace BinaryFormat

/-- The 32-bit format. -/
def single : BinaryFormat := ⟨24, -126, 128, by decide, by decide, by decide⟩

/-- The 64-bit format. -/
def double : BinaryFormat := ⟨53, -1022, 1024, by decide, by decide, by decide⟩

variable (f : BinaryFormat)

/-- The exponent of the last digit of a value of this size. -/
def lastDigit (x : ℚ) : ℤ := max (binaryExponent |x|) f.least - (f.digits - 1)

/-- The nearest value of the format, if it had no largest one. -/
def nearest (x : ℚ) : ℚ := roundHalfEven (x / 2 ^ f.lastDigit x) * 2 ^ f.lastDigit x

/-- An exact value in the format. -/
def round (x : ℚ) : FloatQ :=
  if |f.nearest x| < 2 ^ f.top then .fin (f.nearest x) else FloatQ.infOfSign x

variable {f} {x y : ℚ}

@[simp] theorem nearest_zero : f.nearest 0 = 0 := by
  rw [nearest, zero_div]
  change ((roundHalfEven ((0 : ℤ) : ℚ) : ℤ) : ℚ) * _ = 0
  rw [roundHalfEven_intCast, Int.cast_zero, zero_mul]

theorem lastDigit_neg : f.lastDigit (-x) = f.lastDigit x := by
  rw [lastDigit, lastDigit, abs_neg]

theorem nearest_neg : f.nearest (-x) = -f.nearest x := by
  rw [nearest, nearest, lastDigit_neg, neg_div, roundHalfEven_neg, Int.cast_neg, neg_mul]

theorem abs_nearest_sub_le : |f.nearest x - x| ≤ 2 ^ f.lastDigit x / 2 := by
  have hpos := two_zpow_pos (f.lastDigit x)
  have heq : f.nearest x - x =
      (roundHalfEven (x / 2 ^ f.lastDigit x) - x / 2 ^ f.lastDigit x) * 2 ^ f.lastDigit x := by
    rw [nearest, sub_mul, div_mul_cancel₀ _ hpos.ne']
  rw [heq, abs_mul, abs_of_pos hpos]
  calc |(roundHalfEven (x / 2 ^ f.lastDigit x) : ℚ) - x / 2 ^ f.lastDigit x| * 2 ^ f.lastDigit x
      ≤ 1 / 2 * 2 ^ f.lastDigit x :=
        mul_le_mul_of_nonneg_right (abs_roundHalfEven_sub_le _) hpos.le
    _ = 2 ^ f.lastDigit x / 2 := by ring

/-- Up to one, the error is at most half of the last digit of one. -/
theorem abs_nearest_sub_le_of_le_one (hx : 0 ≤ x) (hx1 : x ≤ 1) :
    |f.nearest x - x| ≤ 2 ^ (-f.digits : ℤ) := by
  rcases hx.eq_or_lt with rfl | hpos
  · rw [nearest_zero, sub_zero, abs_zero]
    exact (two_zpow_pos _).le
  have hexp : binaryExponent |x| < 1 := by
    rw [abs_of_pos hpos]
    exact binaryExponent_lt_of_lt hpos (by norm_num; linarith)
  have hlast : f.lastDigit x ≤ 1 - f.digits := by
    have := f.least_le
    unfold lastDigit
    omega
  calc |f.nearest x - x| ≤ 2 ^ f.lastDigit x / 2 := abs_nearest_sub_le
    _ ≤ 2 ^ (1 - f.digits : ℤ) / 2 := div_le_div_of_nonneg_right (two_zpow_le hlast) (by norm_num)
    _ = 2 ^ (-f.digits : ℤ) := by
      rw [sub_eq_add_neg, zpow_add₀ (by norm_num), zpow_one]
      ring

/-- A multiple of the last digit is left alone. -/
theorem nearest_eq_self_of_mul {n k : ℤ} (hk : f.lastDigit (n * 2 ^ k) ≤ k) :
    f.nearest (n * 2 ^ k) = n * 2 ^ k := by
  have hint : ((n : ℚ) * 2 ^ k) / 2 ^ f.lastDigit (n * 2 ^ k) =
      ((n * 2 ^ (k - f.lastDigit (n * 2 ^ k)).toNat : ℤ) : ℚ) := by
    rw [mul_div_assoc, ← zpow_sub₀ (by norm_num)]
    push_cast
    rw [← zpow_natCast, Int.toNat_of_nonneg (by omega)]
  rw [nearest, hint, roundHalfEven_intCast, ← hint, div_mul_cancel₀ _ (two_zpow_pos _).ne']

/-- The values of the format are left alone. -/
theorem nearest_eq_self {n k : ℤ} (hn : |n| < 2 ^ f.digits) (hk : f.least - (f.digits - 1) ≤ k) :
    f.nearest (n * 2 ^ k) = n * 2 ^ k := by
  rcases eq_or_ne n 0 with rfl | hne
  · simp
  refine nearest_eq_self_of_mul ?_
  have hpos : (0 : ℚ) < |(n : ℚ) * 2 ^ k| :=
    abs_pos.mpr (mul_ne_zero (Int.cast_ne_zero.mpr hne) (two_zpow_pos k).ne')
  have hlt : |(n : ℚ) * 2 ^ k| < 2 ^ (f.digits + k) := by
    rw [abs_mul, abs_of_pos (two_zpow_pos k), zpow_add₀ (by norm_num), zpow_natCast]
    refine mul_lt_mul_of_pos_right ?_ (two_zpow_pos k)
    exact_mod_cast hn
  have hexp := binaryExponent_lt_of_lt hpos hlt
  unfold lastDigit
  omega

theorem nearest_two_zpow {k : ℤ} (hk : f.least - (f.digits - 1) ≤ k) : f.nearest (2 ^ k) = 2 ^ k := by
  have hone : |(1 : ℤ)| < 2 ^ f.digits := by
    rw [abs_one]
    exact one_lt_pow₀ (by norm_num) (by have := f.two_le_digits; omega)
  have heq := nearest_eq_self (f := f) hone hk
  rwa [Int.cast_one, one_mul] at heq

/-- A multiple of the last digit is not passed. -/
theorem nearest_le_of_le {n k : ℤ} (hk : f.lastDigit x ≤ k) (h : x ≤ n * 2 ^ k) :
    f.nearest x ≤ n * 2 ^ k := by
  have hpos := two_zpow_pos (f.lastDigit x)
  have hint : (n : ℚ) * 2 ^ k / 2 ^ f.lastDigit x =
      ((n * 2 ^ (k - f.lastDigit x).toNat : ℤ) : ℚ) := by
    rw [mul_div_assoc, ← zpow_sub₀ (by norm_num)]
    push_cast
    rw [← zpow_natCast, Int.toNat_of_nonneg (by omega)]
  have hround : roundHalfEven (x / 2 ^ f.lastDigit x) ≤ n * 2 ^ (k - f.lastDigit x).toNat := by
    rw [← roundHalfEven_intCast (n * _), ← hint]
    exact roundHalfEven_mono (div_le_div_of_nonneg_right h hpos.le)
  calc f.nearest x ≤ ((n * 2 ^ (k - f.lastDigit x).toNat : ℤ) : ℚ) * 2 ^ f.lastDigit x :=
        mul_le_mul_of_nonneg_right (by exact_mod_cast hround) hpos.le
    _ = n * 2 ^ k := by rw [← hint, div_mul_cancel₀ _ hpos.ne']

theorem le_nearest_of_le {n k : ℤ} (hk : f.lastDigit x ≤ k) (h : n * 2 ^ k ≤ x) :
    n * 2 ^ k ≤ f.nearest x := by
  have hneg := nearest_le_of_le (f := f) (x := -x) (n := -n) (k := k) (by rwa [lastDigit_neg])
    (by push_cast; linarith)
  rw [nearest_neg] at hneg
  push_cast at hneg
  linarith

theorem nearest_nonneg (hx : 0 ≤ x) : 0 ≤ f.nearest x := by
  simpa using le_nearest_of_le (f := f) (n := 0) le_rfl (by simpa using hx)

/-- Rounding keeps the order of positive values. -/
theorem nearest_le_nearest (hx : 0 < x) (hxy : x ≤ y) : f.nearest x ≤ f.nearest y := by
  have hy := hx.trans_le hxy
  have hexp : binaryExponent x ≤ binaryExponent y :=
    le_binaryExponent_of_le hy ((binaryExponent_le hx).trans hxy)
  have hdigits := f.two_le_digits
  have hlast : f.lastDigit x = max (binaryExponent x) f.least - (f.digits - 1) := by
    rw [lastDigit, abs_of_pos hx]
  have hlast' : f.lastDigit y = max (binaryExponent y) f.least - (f.digits - 1) := by
    rw [lastDigit, abs_of_pos hy]
  by_cases hsame : f.lastDigit x = f.lastDigit y
  · rw [nearest, nearest, hsame]
    refine mul_le_mul_of_nonneg_right ?_ (two_zpow_pos _).le
    exact_mod_cast roundHalfEven_mono (div_le_div_of_nonneg_right hxy (two_zpow_pos _).le)
  · -- the leading digit of the greater value is between the two
    have hbetween : x ≤ ((1 : ℤ) : ℚ) * 2 ^ binaryExponent y := by
      rw [Int.cast_one, one_mul]
      exact (lt_binaryExponent hx).le.trans (two_zpow_le (by omega))
    have hbelow : ((1 : ℤ) : ℚ) * 2 ^ binaryExponent y ≤ y := by
      rw [Int.cast_one, one_mul]
      exact binaryExponent_le hy
    exact (nearest_le_of_le (by omega) hbetween).trans (le_nearest_of_le (by omega) hbelow)

/-- Rounding keeps the order. -/
theorem nearest_mono (hxy : x ≤ y) : f.nearest x ≤ f.nearest y := by
  rcases lt_or_ge 0 x with hx | hx
  · exact nearest_le_nearest hx hxy
  · rcases le_or_gt 0 y with hy | hy
    · have hneg := nearest_nonneg (f := f) (neg_nonneg.mpr hx)
      rw [nearest_neg] at hneg
      exact (neg_nonneg.mp hneg).trans (nearest_nonneg hy)
    · have hneg := nearest_le_nearest (f := f) (neg_pos.mpr hy) (neg_le_neg hxy)
      rw [nearest_neg, nearest_neg] at hneg
      exact neg_le_neg_iff.mp hneg

/-- What has been rounded is left alone. -/
theorem nearest_nearest : f.nearest (f.nearest x) = f.nearest x := by
  have hdigits := f.two_le_digits
  rcases eq_or_ne x 0 with rfl | hne
  · simp
  set m : ℤ := max (binaryExponent |x|) f.least + 1 with hm
  have hlast : f.lastDigit x = m - f.digits := by
    rw [lastDigit]
    omega
  have habs : |f.nearest x| ≤ 2 ^ m := by
    have hupper : |x| ≤ 2 ^ m :=
      (lt_binaryExponent (abs_pos.mpr hne)).le.trans (two_zpow_le (by omega))
    have hgrid : f.lastDigit x ≤ m := by omega
    rw [abs_le] at hupper ⊢
    constructor
    · simpa using le_nearest_of_le (f := f) (n := -1) hgrid (by simpa using hupper.1)
    · simpa using nearest_le_of_le (f := f) (n := 1) hgrid (by simpa using hupper.2)
  have hpow : f.nearest (2 ^ m) = 2 ^ m := nearest_two_zpow (by omega)
  rcases habs.lt_or_eq with hlt | heq
  · rcases eq_or_ne (f.nearest x) 0 with hzero | hne'
    · rw [hzero, nearest_zero]
    · have hexp := binaryExponent_lt_of_lt (abs_pos.mpr hne') hlt
      refine nearest_eq_self_of_mul (n := roundHalfEven (x / 2 ^ f.lastDigit x)) ?_
      change f.lastDigit (f.nearest x) ≤ f.lastDigit x
      rw [hlast, lastDigit]
      omega
  · -- rounded up to a power of two
    rcases eq_or_eq_neg_of_abs_eq heq with h | h
    · rw [h, hpow]
    · rw [h, nearest_neg, hpow]

theorem nearest_one : f.nearest 1 = 1 := by
  have hleast := f.least_le
  have hdigits := f.two_le_digits
  simpa using nearest_two_zpow (f := f) (k := 0) (by omega)

/-- What exceeds one by less than half of its last digit is rounded to one. -/
theorem nearest_le_one (h : x < 1 + 2 ^ (-f.digits : ℤ)) : f.nearest x ≤ 1 := by
  have hdigits := f.two_le_digits
  have hleast := f.least_le
  rcases le_or_gt x 1 with hle | hgt
  · rw [← nearest_one (f := f)]
    exact nearest_mono hle
  have hsmall : (2 : ℚ) ^ (-f.digits : ℤ) ≤ 2 ^ (0 : ℤ) := two_zpow_le (by omega)
  rw [zpow_zero] at hsmall
  have hexp : binaryExponent x = 0 := by
    refine binaryExponent_eq (by simpa using hgt.le) ?_
    norm_num
    linarith
  have hlast : f.lastDigit x = 1 - f.digits := by
    rw [lastDigit, abs_of_pos (by linarith), hexp]
    omega
  have hcount : (2 : ℚ) ^ (f.digits - 1) * 2 ^ (1 - f.digits : ℤ) = 1 := by
    rw [← zpow_natCast, ← zpow_add₀ (by norm_num), Nat.cast_sub (by omega)]
    norm_num
  have hhalf : (2 : ℚ) ^ (-f.digits : ℤ) = 1 / 2 * 2 ^ (1 - f.digits : ℤ) := by
    rw [sub_eq_add_neg, zpow_add₀ (by norm_num), zpow_one]
    ring
  have hround : roundHalfEven (x / 2 ^ f.lastDigit x) ≤ 2 ^ (f.digits - 1) := by
    refine roundHalfEven_le_of_lt ?_
    rw [hlast, div_lt_iff₀ (two_zpow_pos _)]
    push_cast
    rw [add_mul, hcount, ← hhalf]
    exact h
  have hround' : (roundHalfEven (x / 2 ^ f.lastDigit x) : ℚ) ≤ 2 ^ (f.digits - 1) := by
    exact_mod_cast hround
  calc f.nearest x ≤ 2 ^ (f.digits - 1) * 2 ^ f.lastDigit x :=
        mul_le_mul_of_nonneg_right hround' (two_zpow_pos _).le
    _ = 1 := by rw [hlast, hcount]

/-- Two parts of one do not exceed it after rounding. -/
theorem nearest_add_nearest_le (hx : 0 ≤ x) (hxy : x ≤ y) (hsum : x + y ≤ 1) :
    f.nearest (f.nearest x + f.nearest y) ≤ 1 := by
  have hdigits := f.two_le_digits
  have hleast := f.least_le
  have hpow : (2 : ℚ) ^ (-1 : ℤ) = 1 / 2 := by norm_num
  have hunit := two_zpow_pos (-f.digits : ℤ)
  refine nearest_le_one ?_
  rcases le_or_gt y (1 / 2) with hsmall | hlarge
  · have hhalf : f.nearest (1 / 2) = 1 / 2 := by
      rw [← hpow]
      exact nearest_two_zpow (by omega)
    have hy := nearest_mono (f := f) hsmall
    have hx' := nearest_mono (f := f) hxy
    rw [hhalf] at hy
    linarith
  rcases hx.eq_or_lt with rfl | hxpos
  · have hy := nearest_mono (f := f) (by linarith : y ≤ 1)
    rw [nearest_one] at hy
    rw [nearest_zero]
    linarith
  -- the last digits of the two are below the last digit of one
  have hexpy : binaryExponent y = -1 :=
    binaryExponent_eq (by rw [hpow]; exact hlarge.le) (by norm_num; linarith)
  have hexpx : binaryExponent x < -1 := by
    refine binaryExponent_lt_of_lt hxpos ?_
    rw [hpow]
    linarith
  have hlasty : f.lastDigit y = -f.digits := by
    rw [lastDigit, abs_of_pos (by linarith), hexpy]
    omega
  have hlastx : f.lastDigit x ≤ -f.digits - 1 := by
    rw [lastDigit, abs_of_pos hxpos]
    omega
  have hunitx : (2 : ℚ) ^ f.lastDigit x ≤ 2 ^ (-f.digits : ℤ) / 2 := by
    calc (2 : ℚ) ^ f.lastDigit x ≤ 2 ^ (-f.digits - 1 : ℤ) := two_zpow_le hlastx
      _ = 2 ^ (-f.digits : ℤ) / 2 := zpow_sub_one₀ (by norm_num) _
  have herry := (abs_le.mp (abs_nearest_sub_le (f := f) (x := y))).2
  have herrx := (abs_le.mp (abs_nearest_sub_le (f := f) (x := x))).2
  rw [hlasty] at herry
  linarith

/-- The error is a part of the value and, below the least value that has all digits, half of the
last one. -/
theorem nearest_le_mul (hx : 0 ≤ x) :
    f.nearest x ≤ x * (1 + 2 ^ (-f.digits : ℤ)) + 2 ^ (f.least - f.digits) := by
  rcases hx.eq_or_lt with rfl | hpos
  · simpa using (two_zpow_pos _).le
  have herr := (abs_le.mp (abs_nearest_sub_le (f := f) (x := x))).2
  have hhalf : (2 : ℚ) ^ f.lastDigit x / 2 =
      2 ^ (max (binaryExponent x) f.least + -f.digits) := by
    rw [lastDigit, abs_of_pos hpos, div_eq_mul_inv, ← zpow_sub_one₀ two_ne_zero]
    congr 1
    ring
  have hbig := binaryExponent_le hpos
  have hle : (2 : ℚ) ^ (max (binaryExponent x) f.least + -f.digits) ≤
      x * 2 ^ (-f.digits : ℤ) + 2 ^ (f.least - f.digits) := by
    have h1 := two_zpow_pos (f.least - f.digits)
    have h2 := mul_pos hpos (two_zpow_pos (-f.digits : ℤ))
    rcases le_total (binaryExponent x) f.least with hle | hge
    · rw [max_eq_right hle, ← sub_eq_add_neg]
      linarith
    · rw [max_eq_left hge, zpow_add₀ (by norm_num)]
      have := mul_le_mul_of_nonneg_right hbig (two_zpow_pos (-f.digits : ℤ)).le
      linarith
  rw [hhalf] at herr
  linarith

/-! ### Infinities -/

theorem round_of_lt (h : |f.nearest x| < 2 ^ f.top) : f.round x = .fin (f.nearest x) := if_pos h

theorem round_of_le (h : 2 ^ f.top ≤ f.nearest x) : f.round x = .posInf := by
  have hpos := (two_zpow_pos f.top).trans_le h
  rw [round, if_neg (by rw [abs_of_pos hpos]; exact not_lt.mpr h)]
  refine FloatQ.infOfSign_of_pos (not_le.mp fun hx => ?_)
  have hle := nearest_mono (f := f) hx
  rw [nearest_zero] at hle
  linarith

theorem round_of_ge (h : f.nearest x ≤ -2 ^ f.top) : f.round x = .negInf := by
  have hpos := two_zpow_pos f.top
  rw [round, if_neg (by rw [abs_of_neg (by linarith)]; linarith)]
  refine FloatQ.infOfSign_of_neg (not_le.mp fun hx => ?_)
  have hle := nearest_nonneg (f := f) hx
  linarith

/-- The three cases of a rounded value. -/
theorem round_cases (x : ℚ) :
    (2 ^ f.top ≤ f.nearest x ∧ f.round x = .posInf) ∨
      (f.nearest x ≤ -2 ^ f.top ∧ f.round x = .negInf) ∨
      (|f.nearest x| < 2 ^ f.top ∧ f.round x = .fin (f.nearest x)) := by
  rcases le_or_gt (2 ^ f.top) (f.nearest x) with h | h
  · exact .inl ⟨h, round_of_le h⟩
  rcases le_or_gt (f.nearest x) (-2 ^ f.top) with h' | h'
  · exact .inr (.inl ⟨h', round_of_ge h'⟩)
  · exact .inr (.inr ⟨abs_lt.mpr ⟨h', h⟩, round_of_lt (abs_lt.mpr ⟨h', h⟩)⟩)

theorem round_mono (hxy : x ≤ y) : (f.round x).le (f.round y) = true := by
  have hle := nearest_mono (f := f) hxy
  have hpos := two_zpow_pos f.top
  rcases round_cases (f := f) x with ⟨h, hx⟩ | ⟨h, hx⟩ | ⟨h, hx⟩ <;>
    rcases round_cases (f := f) y with ⟨h', hy⟩ | ⟨h', hy⟩ | ⟨h', hy⟩ <;>
    rw [hx, hy] <;> first | rfl | skip
  · linarith
  · linarith [(abs_lt.mp h').2]
  · linarith [(abs_lt.mp h).1]
  · exact decide_eq_true hle

theorem round_neg : f.round (-x) = (f.round x).neg := by
  rcases round_cases (f := f) x with ⟨h, hx⟩ | ⟨h, hx⟩ | ⟨h, hx⟩ <;> rw [hx]
  · exact round_of_ge (by rw [nearest_neg]; linarith)
  · exact round_of_le (by rw [nearest_neg]; linarith)
  · rw [round_of_lt (by rwa [nearest_neg, abs_neg]), nearest_neg]
    rfl

theorem round_idem (h : f.round x = .fin y) : f.round y = .fin y := by
  rcases round_cases (f := f) x with ⟨h', hx⟩ | ⟨h', hx⟩ | ⟨h', hx⟩ <;> rw [hx] at h
  · cases h
  · cases h
  · obtain rfl := FloatQ.fin.inj h
    rw [round_of_lt (by rwa [nearest_nearest]), nearest_nearest]

theorem round_zero : f.round 0 = .fin 0 := by
  rw [round_of_lt (by rw [nearest_zero, abs_zero]; exact two_zpow_pos _), nearest_zero]

theorem round_two_zpow {k : ℤ} (hk : -126 ≤ k) (hk' : k < 128) : f.round (2 ^ k) = .fin (2 ^ k) := by
  have hleast := f.least_le
  have hdigits := f.two_le_digits
  have htop := f.le_top
  have hnear := nearest_two_zpow (f := f) (k := k) (by omega)
  rw [round_of_lt, hnear]
  rw [hnear, abs_of_pos (two_zpow_pos k)]
  exact zpow_lt_zpow_right₀ (by norm_num) (by omega)

end BinaryFormat

/-- An exact value in single precision. -/
def float4 : ℚ → FloatQ := BinaryFormat.single.round

example : float4 (3 / 10) = .fin (5033165 / 16777216) := by decide +kernel

end PgRange.Math
