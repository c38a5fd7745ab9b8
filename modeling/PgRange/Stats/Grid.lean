import PgRange.Math.CInt
import PgRange.Math.Loop
import PgRange.Math.Tiling
import PgRange.Range.Basic
import Mathlib.Data.Rat.Floor

/-!
# The grid of the frequency histogram

`ComputeFrequencyHistogram` cuts the span of a column's bounds into intervals.
It stores only the frequencies: every reader computes the grid again with its
own copy of `roundUpDivision`. This file models that division and the choice of
the grid.

A bound reaches this code as a `Datum`, a 64-bit word, and is assigned to `int`.
All functions take the reading `A` of `int`; the weight `0.05` is read as the
rational 1/20.

## Main results

* `roundUpDivision_isCeil` — on a non-negative numerator and a positive divider
  the division rounds up
* `chooseIntervals_eq` — the grid of a span of positive length
* `interval_tiling`, `intervalCount_le` — it has at most twenty intervals, which
  cover the span
* `roundUpDivision_tiles` — the two divisions of the code compute such a grid
-/

set_option autoImplicit false

namespace PgRange.Stats

open Math

/-- PostgreSQL's machine word. -/
abbrev Datum := BitVec 64

/-- `roundUpDivision`, which the source defines three times. The processor traps
on a zero divider and on a quotient that does not fit. -/
def roundUpDivision (A : CInt) (numerator divider : ℤ) : Except Fault ℤ :=
  if divider = 0 then .error .divisionByZero
  else
    let div := numerator.tdiv divider
    if A.wrap div ≠ div then .error .divisionOverflow
    else .ok (if numerator.tmod divider ≠ 0 then A.wrap (div + 1) else div)

/-- The `int` locals of `ComputeFrequencyHistogram` that fix the grid. -/
structure Grid where
  min : ℤ
  max : ℤ
  length : ℤ
  nbOfIntervals : ℤ
  intervalLength : ℤ
  deriving DecidableEq, Repr

/-- The divider `1 + WEIGHT*length`, converted to `int` by truncation. -/
def weightedDivider (length : ℤ) : ℤ := (20 + length).tdiv 20

/-- The first half of `ComputeFrequencyHistogram`: the grid for the words of the
first lower and the last upper bound. -/
def chooseIntervals (A : CInt) (firstLower lastUpper : Datum) : Except Fault Grid := do
  -- assigning a `Datum` to an `int` keeps its lower half
  let min := A.wrap firstLower.toInt
  let max := A.wrap lastUpper.toInt
  let length := A.wrap (A.wrap (max - min) + 1)
  let nbOfIntervals ← roundUpDivision A length (weightedDivider length)
  -- the weighted divider is not kept: the length is adjusted to the rounded count
  let intervalLength ← roundUpDivision A length nbOfIntervals
  return ⟨min, max, length, nbOfIntervals, intervalLength⟩

/-! ### Rounding up -/

variable (A : CInt)

/-- With a positive divider the division never traps; a remainder adds one, whatever
the sign. -/
theorem roundUpDivision_of_pos {n d : ℤ} (hd : 0 < d) (hwrap : A.wrap n = n) :
    roundUpDivision A n d = .ok (n.tdiv d + if n.tmod d = 0 then 0 else 1) := by
  have hsplit : n.tmod d + d * n.tdiv d = n := Int.tmod_add_mul_tdiv n d
  have hfits : A.wrap (n.tdiv d) = n.tdiv d ∧
      (n.tmod d ≠ 0 → A.wrap (n.tdiv d + 1) = n.tdiv d + 1) := by
    rcases le_total 0 n with hn | hn
    · have hq0 : 0 ≤ n.tdiv d := Int.tdiv_nonneg hn hd.le
      have hr0 : 0 ≤ n.tmod d := Int.tmod_nonneg d hn
      have hqle : 1 * n.tdiv d ≤ d * n.tdiv d := mul_le_mul_of_nonneg_right hd hq0
      exact ⟨A.wrap_of_between A.wrap_zero hwrap hq0 (by omega),
        fun hr => A.wrap_of_between A.wrap_zero hwrap (by omega) (by omega)⟩
    · -- rounding towards zero goes up here, and at most one step beyond
      have hq := Int.tdiv_nonneg (neg_nonneg.mpr hn) hd.le
      have hr := Int.tmod_nonneg d (neg_nonneg.mpr hn)
      rw [Int.neg_tdiv] at hq
      rw [Int.neg_tmod] at hr
      have hq0 : n.tdiv d ≤ 0 := by omega
      have hqle : d * n.tdiv d ≤ 1 * n.tdiv d := mul_le_mul_of_nonpos_right hd hq0
      have hone : A.wrap 1 = 1 := A.wrap_of_fits (by decide)
      exact ⟨A.wrap_of_between hwrap A.wrap_zero (by omega) hq0,
        fun _ => A.wrap_of_between hwrap hone (by omega) (by omega)⟩
  unfold roundUpDivision
  by_cases hr : n.tmod d = 0
  · simp [hd.ne', hfits.1, hr]
  · simp [hd.ne', hfits.1, hfits.2 hr, hr]

/-- On a numerator that the reading of `int` keeps, the division rounds up. -/
theorem roundUpDivision_isCeil {n d : ℤ} (hn : 0 ≤ n) (hd : 0 < d) (hA : A.wrap n = n) :
    ∃ c, roundUpDivision A n d = .ok c ∧ IsCeil n d c := by
  refine ⟨_, roundUpDivision_of_pos A hd hA, ?_⟩
  rw [Int.tdiv_eq_ediv_of_nonneg hn, Int.tmod_eq_emod_of_nonneg hn]
  have hsplit : n % d + d * (n / d) = n := Int.emod_add_mul_ediv n d
  have hlt := Int.emod_lt_of_pos n hd
  have hge := Int.emod_nonneg n hd.ne'
  by_cases hrem : n % d = 0
  · rw [if_pos hrem]
    exact ⟨by nlinarith, by nlinarith⟩
  · rw [if_neg hrem]
    exact ⟨by nlinarith [lt_of_le_of_ne hge (Ne.symm hrem)], by nlinarith⟩

theorem roundUpDivision_eq {n d c : ℤ} (hn : 0 ≤ n) (hd : 0 < d) (hA : A.wrap n = n)
    (hc : IsCeil n d c) : roundUpDivision A n d = .ok c := by
  obtain ⟨c', hrun, hc'⟩ := roundUpDivision_isCeil A hn hd hA
  rw [hrun, hc'.unique hd hc]

/-! ### The choice of the grid -/

theorem weightedDivider_pos {length : ℤ} (h : 1 ≤ length) : 0 < weightedDivider length := by
  unfold weightedDivider
  rw [Int.tdiv_eq_ediv_of_nonneg (by omega)]
  omega

/-- The number of intervals that is chosen for a span of positive length. -/
def intervalCount (length : ℤ) : ℤ :=
  (length + weightedDivider length - 1) / weightedDivider length

/-- The interval length that is chosen for a span of positive length. -/
def intervalWidth (length : ℤ) : ℤ :=
  (length + intervalCount length - 1) / intervalCount length

section Choice

variable {length : ℤ} (h : 1 ≤ length)

include h

theorem intervalCount_isCeil : IsCeil length (weightedDivider length) (intervalCount length) :=
  IsCeil.of_ediv (weightedDivider_pos h)

theorem intervalCount_pos : 0 < intervalCount length :=
  (intervalCount_isCeil h).pos (weightedDivider_pos h) h

theorem intervalWidth_isCeil : IsCeil length (intervalCount length) (intervalWidth length) :=
  IsCeil.of_ediv (intervalCount_pos h)

/-- The chosen intervals cover the span, and none lies wholly beyond it. -/
theorem interval_tiling :
    Tiling length (intervalCount length) (intervalWidth length) ∧
      intervalWidth length ≤ weightedDivider length :=
  tiling_of_isCeil h (weightedDivider_pos h) (intervalCount_isCeil h) (intervalWidth_isCeil h)

/-- At most twenty intervals are chosen. -/
theorem intervalCount_le : intervalCount length ≤ 20 := by
  refine (intervalCount_isCeil h).le_of_le (weightedDivider_pos h) ?_
  unfold weightedDivider
  rw [Int.tdiv_eq_ediv_of_nonneg (by omega)]
  omega

end Choice

/-- A span of more than one integer is cut. -/
theorem one_lt_intervalCount {length : ℤ} (h : 2 ≤ length) : 1 < intervalCount length := by
  by_contra hle
  have hcover := (intervalCount_isCeil (by omega : 1 ≤ length)).2
  have hone : intervalCount length = 1 := by
    have := intervalCount_pos (by omega : 1 ≤ length)
    omega
  rw [hone, weightedDivider, Int.tdiv_eq_ediv_of_nonneg (by omega)] at hcover
  omega

/-- The grid chosen for the integers from `min` to `max`. -/
def Grid.ofSpan (min max : ℤ) : Grid where
  min := min
  max := max
  length := max - min + 1
  nbOfIntervals := intervalCount (max - min + 1)
  intervalLength := intervalWidth (max - min + 1)

/-- A span of positive length that the reading of `int` keeps gets its grid. -/
theorem chooseIntervals_eq (firstLower lastUpper : Datum)
    (hle : firstLower.toInt ≤ lastUpper.toInt)
    (hmin : A.wrap firstLower.toInt = firstLower.toInt)
    (hmax : A.wrap lastUpper.toInt = lastUpper.toInt)
    (hlength : A.wrap (lastUpper.toInt - firstLower.toInt + 1) =
      lastUpper.toInt - firstLower.toInt + 1) :
    chooseIntervals A firstLower lastUpper =
      .ok (.ofSpan firstLower.toInt lastUpper.toInt) := by
  have hpos : 1 ≤ lastUpper.toInt - firstLower.toInt + 1 := by omega
  simp only [chooseIntervals, hmin, hmax, A.wrap_wrap_add, hlength]
  rw [roundUpDivision_eq A (by omega) (weightedDivider_pos hpos) hlength
    (intervalCount_isCeil hpos)]
  change (roundUpDivision A _ (intervalCount _) >>= _) = _
  rw [roundUpDivision_eq A (by omega) (intervalCount_pos hpos) hlength
    (intervalWidth_isCeil hpos)]
  rfl

/-- `Int32GetDatum`. -/
def int4Word (v : ℤ) : Datum := BitVec.ofInt 64 v

theorem toInt_int4Word {v : ℤ} (h : FitsInt32 v) : (int4Word v).toInt = v := by
  obtain ⟨hlo, hhi⟩ := h
  rw [int4Word, BitVec.toInt_ofInt]
  exact Int.bmod_eq_of_le (by omega) (by omega)

/-- The lower bound of an `int4range` that starts at `v`. -/
def int4Lower (v : ℤ) : RangeBound Datum := ⟨int4Word v, false, true, true⟩

/-- The upper bound of an `int4range` that ends before `v`. -/
def int4Upper (v : ℤ) : RangeBound Datum := ⟨int4Word v, false, false, false⟩

/-- The finite span of a column whose grid stays within the machine integers. -/
structure Span where
  min : ℤ
  max : ℤ
  lt : min < max
  minFits : -2147483648 ≤ min
  lengthFits : max - min + 1 ≤ 2147483647
  endFits : min + intervalCount (max - min + 1) * intervalWidth (max - min + 1) ≤ 2147483647

namespace Span

variable (s : Span)

/-- The grid of the span. -/
def grid : Grid := .ofSpan s.min s.max

theorem tiling : Tiling (s.max - s.min + 1) s.grid.nbOfIntervals s.grid.intervalLength :=
  (interval_tiling (by have := s.lt; omega)).1

theorem one_lt_nbOfIntervals : 1 < s.grid.nbOfIntervals :=
  one_lt_intervalCount (by have := s.lt; omega)

/-- The grid reaches at least one integer beyond the maximum. -/
theorem max_lt_end : s.max < s.min + s.grid.nbOfIntervals * s.grid.intervalLength := by
  have := s.tiling.covers
  omega

theorem end_le : s.min + s.grid.nbOfIntervals * s.grid.intervalLength ≤ 2147483647 := s.endFits

theorem min_fits : FitsInt32 s.min :=
  ⟨s.minFits, by have := s.lt; have := s.max_lt_end; have := s.end_le; omega⟩

theorem max_fits : FitsInt32 s.max :=
  ⟨by have := s.lt; have := s.minFits; omega, by
    have := s.max_lt_end
    have := s.end_le
    omega⟩

/-- The first integer of interval `i`. -/
def start (i : ℕ) : ℤ := s.min + i * s.grid.intervalLength

theorem start_zero : s.start 0 = s.min := by simp [start]

theorem start_succ (i : ℕ) : s.start (i + 1) = s.start i + s.grid.intervalLength := by
  simp only [start, Nat.cast_add, Nat.cast_one]
  rw [add_mul, one_mul, add_assoc]

theorem start_mono {i j : ℕ} (h : i ≤ j) : s.start i ≤ s.start j := by
  have := mul_le_mul_of_nonneg_right (Int.ofNat_le.mpr h) s.tiling.widthPos.le
  simpa [start] using this

theorem start_toNat : s.start s.grid.nbOfIntervals.toNat =
    s.min + s.grid.nbOfIntervals * s.grid.intervalLength := by
  rw [start, Int.toNat_of_nonneg (by have := s.one_lt_nbOfIntervals; omega)]

theorem max_lt_start : s.max < s.start s.grid.nbOfIntervals.toNat :=
  s.start_toNat ▸ s.max_lt_end

theorem start_fits {i : ℕ} (hi : i ≤ s.grid.nbOfIntervals.toNat) : FitsInt32 (s.start i) := by
  have hlow := s.start_mono (Nat.zero_le i)
  have hhigh := s.start_mono hi
  have hend := s.end_le
  have hmin := s.minFits
  rw [s.start_zero] at hlow
  rw [s.start_toNat] at hhigh
  exact ⟨by omega, by omega⟩

/-- The maximum, moved down by `i` interval lengths. -/
def stop (i : ℕ) : ℤ := s.max - i * s.grid.intervalLength

theorem stop_zero : s.stop 0 = s.max := by simp [stop]

theorem stop_succ (i : ℕ) : s.stop (i + 1) = s.stop i - s.grid.intervalLength := by
  simp only [stop, Nat.cast_add, Nat.cast_one]
  rw [add_mul, one_mul, sub_sub]

theorem stop_anti {i j : ℕ} (h : i ≤ j) : s.stop j ≤ s.stop i := by
  have := mul_le_mul_of_nonneg_right (Int.ofNat_le.mpr h) s.tiling.widthPos.le
  simp only [stop]
  omega

theorem stop_last : s.stop (s.grid.nbOfIntervals.toNat - 1) =
    s.max - (s.grid.nbOfIntervals - 1) * s.grid.intervalLength := by
  have hcount := s.one_lt_nbOfIntervals
  have hcast : ((s.grid.nbOfIntervals.toNat - 1 : ℕ) : ℤ) = s.grid.nbOfIntervals - 1 := by omega
  rw [stop, hcast]

/-- All intervals but one, laid out from the maximum down, stay within the span. -/
theorem min_le_stop {i : ℕ} (hi : i < s.grid.nbOfIntervals.toNat) : s.min ≤ s.stop i := by
  have hle := s.stop_anti (Nat.le_sub_one_of_lt hi)
  have hlast := s.tiling.lastInside
  rw [s.stop_last] at hle
  omega

theorem stop_fits {i : ℕ} (hi : i < s.grid.nbOfIntervals.toNat) : FitsInt32 (s.stop i) := by
  have hlow := s.min_le_stop hi
  have hhigh := s.stop_anti (Nat.zero_le i)
  have hmax := s.max_fits.2
  have hmin := s.minFits
  rw [s.stop_zero] at hhigh
  exact ⟨by omega, by omega⟩

/-- `ComputeFrequencyHistogram` chooses this grid. -/
theorem chooseIntervals_eq :
    chooseIntervals .int32 (int4Word s.min) (int4Word s.max) = .ok s.grid := by
  have hlt := s.lt
  have hlength := s.lengthFits
  have hrun := Stats.chooseIntervals_eq .int32 (int4Word s.min) (int4Word s.max)
  rw [toInt_int4Word s.min_fits, toInt_int4Word s.max_fits] at hrun
  exact hrun hlt.le (CInt.int32.wrap_of_fits s.min_fits) (CInt.int32.wrap_of_fits s.max_fits)
    (CInt.int32.wrap_of_fits ⟨by omega, hlength⟩)

end Span

/-! ### Spans that are not positive

The bounds may be read in the wrong order, and their difference may wrap. -/

/-- The value of the local `length`. -/
def spanLength (firstLower lastUpper : Datum) : ℤ :=
  A.wrap (A.wrap (A.wrap lastUpper.toInt - A.wrap firstLower.toInt) + 1)

theorem wrap_spanLength (firstLower lastUpper : Datum) :
    A.wrap (spanLength A firstLower lastUpper) = spanLength A firstLower lastUpper :=
  A.wrap_wrap _

theorem chooseIntervals_eq_bind (firstLower lastUpper : Datum) :
    chooseIntervals A firstLower lastUpper =
      (roundUpDivision A (spanLength A firstLower lastUpper)
        (weightedDivider (spanLength A firstLower lastUpper))).bind fun nb =>
      (roundUpDivision A (spanLength A firstLower lastUpper) nb).map fun width =>
        ⟨A.wrap firstLower.toInt, A.wrap lastUpper.toInt, spanLength A firstLower lastUpper,
          nb, width⟩ := by
  unfold chooseIntervals spanLength
  rfl

/-- The grid depends on the words only through what the reading of `int` keeps. -/
theorem chooseIntervals_congr {firstLower firstLower' lastUpper lastUpper' : Datum}
    (hmin : A.wrap firstLower.toInt = A.wrap firstLower'.toInt)
    (hmax : A.wrap lastUpper.toInt = A.wrap lastUpper'.toInt) :
    chooseIntervals A firstLower lastUpper = chooseIntervals A firstLower' lastUpper' := by
  unfold chooseIntervals
  rw [hmin, hmax]

theorem roundUpDivision_inv {n d c : ℤ} (hrun : roundUpDivision A n d = .ok c) :
    d ≠ 0 ∧ c = if n.tmod d ≠ 0 then A.wrap (n.tdiv d + 1) else n.tdiv d := by
  unfold roundUpDivision at hrun
  by_cases hzero : d = 0
  · simp [hzero] at hrun
  by_cases hfits : A.wrap (n.tdiv d) = n.tdiv d
  · simp only [hzero, hfits, ↓reduceIte, ne_eq, not_true_eq_false, Except.ok.injEq] at hrun
    exact ⟨hzero, hrun.symm⟩
  · simp [hzero, hfits] at hrun

/-- A grid comes from two divisions of the length of the span. -/
theorem chooseIntervals_inv {firstLower lastUpper : Datum} {grid : Grid}
    (hrun : chooseIntervals A firstLower lastUpper = .ok grid) :
    grid.length = spanLength A firstLower lastUpper ∧
      roundUpDivision A grid.length (weightedDivider grid.length) = .ok grid.nbOfIntervals ∧
      roundUpDivision A grid.length grid.nbOfIntervals = .ok grid.intervalLength := by
  unfold chooseIntervals at hrun
  obtain ⟨nb, hcount, hrun⟩ := bind_eq_ok_iff.mp hrun
  obtain ⟨width, hwidth, hrun⟩ := bind_eq_ok_iff.mp hrun
  obtain rfl := Except.ok.inj hrun
  exact ⟨rfl, hcount, hwidth⟩

theorem chooseIntervals_min {firstLower lastUpper : Datum} {grid : Grid}
    (hrun : chooseIntervals A firstLower lastUpper = .ok grid) :
    grid.min = A.wrap firstLower.toInt := by
  unfold chooseIntervals at hrun
  obtain ⟨nb, -, hrun⟩ := bind_eq_ok_iff.mp hrun
  obtain ⟨width, -, hrun⟩ := bind_eq_ok_iff.mp hrun
  obtain rfl := Except.ok.inj hrun
  rfl

/-- A negative length that gets past the first division is far below zero, and
the count does not exceed its size. -/
theorem roundUpDivision_neg_le {length nb : ℤ} (hneg : length < 0)
    (hrun : roundUpDivision A length (weightedDivider length) = .ok nb) :
    nb ≤ -length := by
  obtain ⟨hd, rfl⟩ := roundUpDivision_inv A hrun
  obtain ⟨m, rfl⟩ : ∃ m, length = -m := ⟨-length, by omega⟩
  have hdiv : weightedDivider (-m) = -((m - 20).tdiv 20) := by
    rw [weightedDivider, ← Int.neg_tdiv]
    congr 1
    omega
  have hm : 40 ≤ m := by
    by_contra hlt
    refine hd ?_
    rcases le_or_gt 20 m with h20 | h20
    · rw [hdiv, Int.tdiv_eq_ediv_of_nonneg (by omega)]
      omega
    · rw [weightedDivider, Int.tdiv_eq_ediv_of_nonneg (by omega)]
      omega
  rw [Int.tdiv_eq_ediv_of_nonneg (by omega)] at hdiv
  obtain ⟨e, he⟩ : ∃ e, (m - 20) / 20 = e := ⟨_, rfl⟩
  rw [he] at hdiv
  have hepos : 0 < e := by omega
  have hmod : (-m).tmod (-e) = -(m % e) := by
    rw [Int.tmod_neg, Int.neg_tmod, Int.tmod_eq_emod_of_nonneg (by omega)]
  have hquot : (-m).tdiv (-e) = m / e := by
    rw [Int.tdiv_neg, Int.neg_tdiv, Int.neg_neg, Int.tdiv_eq_ediv_of_nonneg (by omega)]
  have hsplit : m % e + e * (m / e) = m := Int.emod_add_mul_ediv m e
  have hge := Int.emod_nonneg m hepos.ne'
  have hq0 : 0 ≤ m / e := Int.ediv_nonneg (by omega) hepos.le
  rw [hdiv, hmod, hquot, Int.neg_neg]
  split_ifs with hrem
  · have htwo : 2 ≤ e := by
      by_contra hlt
      obtain rfl : e = 1 := by omega
      omega
    have hq : 2 * (m / e) ≤ m := by nlinarith
    have hsmall : m / e ≤ 60 := by
      by_contra hbig
      have : 61 * e ≤ e * (m / e) := by nlinarith
      omega
    rw [A.wrap_of_fits ⟨by omega, by omega⟩]
    omega
  · nlinarith

/-- With a positive count, a negative length is never rounded up to a positive
interval length. -/
theorem roundUpDivision_neg_width {length nb width : ℤ} (hneg : length < 0) (hnb : 1 ≤ nb)
    (hle : nb ≤ -length) (hwrap : A.wrap length = length)
    (hrun : roundUpDivision A length nb = .ok width) : width ≤ 0 := by
  obtain ⟨-, rfl⟩ := roundUpDivision_inv A hrun
  obtain ⟨m, rfl⟩ : ∃ m, length = -m := ⟨-length, by omega⟩
  have hquot : (-m).tdiv nb = -(m / nb) := by
    rw [Int.neg_tdiv, Int.tdiv_eq_ediv_of_nonneg (by omega)]
  have hq1 : 1 ≤ m / nb := (Int.le_ediv_iff_mul_le (by omega)).mpr (by omega)
  have hqm : m / nb ≤ m := Int.ediv_le_self nb (by omega)
  rw [hquot]
  split_ifs
  · rw [A.wrap_of_between hwrap A.wrap_zero (by omega) (by omega)]
    omega
  · omega

/-- Both counts come out positive exactly when the computed length is positive. -/
theorem chooseIntervals_pos_iff (firstLower lastUpper : Datum) :
    (∃ grid, chooseIntervals A firstLower lastUpper = .ok grid ∧
      1 ≤ grid.nbOfIntervals ∧ 1 ≤ grid.intervalLength) ↔
    1 ≤ spanLength A firstLower lastUpper := by
  have hwrap := wrap_spanLength A firstLower lastUpper
  constructor
  · rintro ⟨grid, hrun, hnb, hwidth⟩
    obtain ⟨hlength, hcount, hdivided⟩ := chooseIntervals_inv A hrun
    rw [← hlength] at hwrap ⊢
    by_contra hlt
    rcases Int.lt_or_eq_of_le (by omega : grid.length ≤ 0) with hneg | hzero
    · have hle := roundUpDivision_neg_le A hneg hcount
      have := roundUpDivision_neg_width A hneg hnb hle hwrap hdivided
      omega
    · -- a length of zero gives no interval at all
      rw [hzero] at hcount
      obtain ⟨-, hnone⟩ := roundUpDivision_inv A hcount
      simp at hnone
      omega
  · intro hpos
    rw [chooseIntervals_eq_bind]
    generalize spanLength A firstLower lastUpper = length at hwrap hpos ⊢
    rw [roundUpDivision_eq A (by omega) (weightedDivider_pos hpos) hwrap
      (intervalCount_isCeil hpos)]
    simp only [Except.bind]
    rw [roundUpDivision_eq A (by omega) (intervalCount_pos hpos) hwrap
      (intervalWidth_isCeil hpos)]
    exact ⟨_, rfl, intervalCount_pos hpos, (interval_tiling hpos).1.widthPos⟩

/-! ### The intervals of a positive span -/

/-- The divider is `1 + length/20`, rounded down. -/
theorem weightedDivider_eq_floor {length : ℤ} (h : 0 ≤ length) :
    weightedDivider length = ⌊1 + (length : ℚ) / 20⌋ := by
  have hsum : 1 + (length : ℚ) / 20 = ((20 + length : ℤ) : ℚ) / (20 : ℕ) := by
    push_cast
    ring
  rw [hsum, Rat.floor_intCast_div_natCast, weightedDivider,
    Int.tdiv_eq_ediv_of_nonneg (by omega)]
  rfl

/-- For every positive length, the divisions of `ComputeFrequencyHistogram` give at most
twenty intervals, no longer than the weighted divider. Together they cover the span, and
none of them lies wholly beyond it. -/
theorem roundUpDivision_tiles {length : ℤ} (h : 1 ≤ length) (hfits : A.wrap length = length) :
    ∃ nb L, roundUpDivision A length (weightedDivider length) = .ok nb ∧
      roundUpDivision A length nb = .ok L ∧
      weightedDivider length = ⌊1 + (length : ℚ) / 20⌋ ∧
      (1 ≤ nb ∧ nb ≤ 20) ∧ (1 ≤ L ∧ L ≤ weightedDivider length) ∧
      ((nb - 1) * L < length ∧ length ≤ nb * L) ∧
      (∀ x, 0 ≤ x → x < length → ∃ i, 0 ≤ i ∧ i < nb ∧ i * L ≤ x ∧ x < (i + 1) * L) ∧
      (∀ i, i < nb → i * L < length) ∧
      ∀ firstLower lastUpper : Datum, spanLength A firstLower lastUpper = length →
        chooseIntervals A firstLower lastUpper =
          .ok ⟨A.wrap firstLower.toInt, A.wrap lastUpper.toInt, length, nb, L⟩ := by
  obtain ⟨htiling, hle⟩ := interval_tiling h
  have hcount : roundUpDivision A length (weightedDivider length) = .ok (intervalCount length) :=
    roundUpDivision_eq A (by omega) (weightedDivider_pos h) hfits (intervalCount_isCeil h)
  have hwidth : roundUpDivision A length (intervalCount length) = .ok (intervalWidth length) :=
    roundUpDivision_eq A (by omega) (intervalCount_pos h) hfits (intervalWidth_isCeil h)
  refine ⟨intervalCount length, intervalWidth length, hcount, hwidth,
    weightedDivider_eq_floor (by omega), ⟨htiling.countPos, intervalCount_le h⟩,
    ⟨htiling.widthPos, hle⟩, ⟨htiling.lastInside, htiling.covers⟩, ?_, ?_, ?_⟩
  · intro x hx0 hx
    exact htiling.exists_interval hx0 hx
  · intro i hi
    exact htiling.start_lt hi
  · intro firstLower lastUpper hspan
    rw [chooseIntervals_eq_bind, hspan, hcount]
    simp only [Except.bind]
    rw [hwidth]
    rfl

/-- A span of 41 integers gets fourteen intervals of three integers. -/
theorem roundUpDivision_tiles_span :
    CInt.int32.wrap 41 = 41 ∧
      ∃ nb L, roundUpDivision .int32 41 (weightedDivider 41) = .ok nb ∧
        roundUpDivision .int32 41 nb = .ok L ∧ nb = 14 ∧ L = 3 ∧ (nb - 1) * L < 41 ∧
        41 ≤ nb * L := by
  obtain ⟨nb, L, hnb, hL, -, -, -, ⟨hlast, hcovers⟩, -⟩ :=
    roundUpDivision_tiles .int32 (by decide : (1 : ℤ) ≤ 41) (by decide)
  have hnb' : nb = 14 := Except.ok.inj (hnb.symm.trans (by decide))
  subst hnb'
  have hL' : L = 3 := Except.ok.inj (hL.symm.trans (by decide))
  exact ⟨by decide, 14, L, hnb, hL, rfl, hL', hlast, hcovers⟩

end PgRange.Stats
