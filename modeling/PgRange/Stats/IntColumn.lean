import PgRange.Stats.FrequencyCall

/-!
# Columns of integer ranges

Of the range types whose subtype is passed by value, `int4range`, `int8range`,
`daterange` and `tsrange` hold integers of 32 or 64 bits and compare them as such.
For a column of such a type whose bounds are finite, this file describes the arrays
from which the frequency histogram is computed, down-sampled or not.

## Main results

* `IntColumn.ascending` — both arrays ascend, within the span of the column
* `IntColumn.analyze_unbounded` — the histogram over unbounded integers
* `IntColumn.analyze_eq_iff` — the machine computes it exactly when the grid of the
  column fits an `int` and no comparison is made across zero
-/

set_option autoImplicit false

namespace PgRange.Stats

open Math

/-- The value fits a signed 64-bit word. -/
def FitsInt64 (x : ℤ) : Prop := -9223372036854775808 ≤ x ∧ x ≤ 9223372036854775807

instance : DecidablePred FitsInt64 := fun x => by
  unfold FitsInt64
  infer_instance

/-- `Int32GetDatum`, `Int64GetDatum`, `DateADTGetDatum` and `TimestampGetDatum`. -/
def intWord (v : ℤ) : Datum := BitVec.ofInt 64 v

theorem toInt_intWord {v : ℤ} (h : FitsInt64 v) : (intWord v).toInt = v := by
  obtain ⟨hlo, hhi⟩ := h
  rw [intWord, BitVec.toInt_ofInt]
  exact Int.bmod_eq_of_le (by omega) (by omega)

/-- A range with its bound values replaced by the words that hold them. -/
def rangeToWord {α : Type} (word : α → Datum) (r : RangeType α) : RangeType Datum :=
  ⟨r.flags, word r.lbound, word r.ubound⟩

/-- A sampled column of integer ranges with finite bounds, at least two of them not
empty. -/
structure IntColumn where
  typcache : TypeCacheEntry ℤ
  cmpInt : typcache.cmp = btintcmp
  target : StatTarget
  sample : List (Option (SampleValue ℤ))
  two : 2 ≤ (nonEmptyParts sample).length
  ordered : ∀ p ∈ nonEmptyParts sample, (rangeCmpBounds btintcmp p.lower p.upper).isLE
  finite : ∀ p ∈ nonEmptyParts sample, p.lower.infinite = false ∧ p.upper.infinite = false
  fits : ∀ p ∈ nonEmptyParts sample, FitsInt64 p.lower.val ∧ FitsInt64 p.upper.val

namespace IntColumn

variable (c : IntColumn)

/-- The number of non-empty ranges in the sample. -/
def count : ℕ := (nonEmptyParts c.sample).length

/-- The number of histogram bounds. -/
def rows : ℕ := numHist c.count c.target.attstattarget

/-- The `k`-th smallest lower bound. -/
def lower (k : ℕ) : RangeBound ℤ := (sortedLowers c.typcache c.sample).getD k default

/-- The `k`-th smallest upper bound. -/
def upper (k : ℕ) : RangeBound ℤ := (sortedUppers c.typcache c.sample).getD k default

/-- The smallest lower bound. -/
def min : ℤ := (c.lower 0).val

/-- The greatest upper bound. -/
def max : ℤ := (c.upper (c.count - 1)).val

/-- The position in the sorted arrays that histogram bound `k` is read from. -/
def pos (k : ℕ) : ℕ := k * (c.count - 1) / (c.rows - 1)

/-- The lower bounds that the sweep reads. -/
def lowers : List (RangeBound Datum) :=
  (callLowers c.typcache c.target c.sample).map (boundToWord intWord)

/-- The upper bounds that the sweep reads. -/
def uppers : List (RangeBound Datum) :=
  (callUppers c.typcache c.target c.sample).map (boundToWord intWord)

/-! ### The sorted bounds -/

theorem sortedLowers_eq_sortBy : sortedLowers c.typcache c.sample =
    sortBy (rangeCmpBounds btintcmp) ((nonEmptyParts c.sample).map RangeParts.lower) := by
  rw [sortedLowers, c.cmpInt]

theorem sortedUppers_eq_sortBy : sortedUppers c.typcache c.sample =
    sortBy (rangeCmpBounds btintcmp) ((nonEmptyParts c.sample).map RangeParts.upper) := by
  rw [sortedUppers, c.cmpInt]

variable {c} {i j k : ℕ}

theorem lower_finite (hk : k < c.count) :
    (c.lower k).infinite = false ∧ FitsInt64 (c.lower k).val ∧ (c.lower k).lower = true := by
  obtain ⟨p, hp, heq⟩ := exists_sortedLower c.typcache hk
  rw [lower, ← heq]
  exact ⟨(c.finite p hp).1, (c.fits p hp).1, heq ▸ sortedLowers_getD_lower c.typcache hk⟩

theorem upper_finite (hk : k < c.count) :
    (c.upper k).infinite = false ∧ FitsInt64 (c.upper k).val ∧ (c.upper k).lower = false := by
  obtain ⟨p, hp, heq⟩ := exists_sortedUpper c.typcache hk
  rw [upper, ← heq]
  exact ⟨(c.finite p hp).2, (c.fits p hp).2, heq ▸ sortedUppers_getD_lower c.typcache hk⟩

theorem lower_mono (hij : i ≤ j) (hj : j < c.count) : (c.lower i).val ≤ (c.lower j).val := by
  have hle : (rangeCmpBounds btintcmp (c.lower i) (c.lower j)).isLE := by
    rw [lower, lower, c.sortedLowers_eq_sortBy]
    exact sortBy_getD_isLE _ hij (by simpa [count] using hj) _
  exact compareInt_isLE_iff.mp
    (val_isLE_of_isLE (lower_finite (by omega)).1 (lower_finite hj).1 hle)

theorem upper_mono (hij : i ≤ j) (hj : j < c.count) : (c.upper i).val ≤ (c.upper j).val := by
  have hle : (rangeCmpBounds btintcmp (c.upper i) (c.upper j)).isLE := by
    rw [upper, upper, c.sortedUppers_eq_sortBy]
    exact sortBy_getD_isLE _ hij (by simpa [count] using hj) _
  exact compareInt_isLE_iff.mp
    (val_isLE_of_isLE (upper_finite (by omega)).1 (upper_finite hj).1 hle)

theorem lower_isLE_upper (hk : k < c.count) :
    (rangeCmpBounds btintcmp (c.lower k) (c.upper k)).isLE := by
  rw [lower, upper, c.sortedLowers_eq_sortBy, c.sortedUppers_eq_sortBy]
  exact sorted_isLE _ c.ordered hk

theorem lower_le_upper (hk : k < c.count) : (c.lower k).val ≤ (c.upper k).val :=
  compareInt_isLE_iff.mp
    (val_isLE_of_isLE (lower_finite hk).1 (upper_finite hk).1 (lower_isLE_upper hk))

variable (c)

theorem two_le_count : 2 ≤ c.count := c.two

theorem two_le_rows : 2 ≤ c.rows := two_le_numHist c.two c.target

theorem rows_le : c.rows ≤ 10001 := by
  have := c.target.le
  unfold rows numHist
  split_ifs <;> omega

theorem min_le_max : c.min ≤ c.max := by
  have htwo := c.two_le_count
  calc c.min ≤ (c.upper 0).val := lower_le_upper (by omega)
    _ ≤ c.max := upper_mono (by omega) (by omega)

theorem min_fits64 : FitsInt64 c.min := (lower_finite (by have := c.two_le_count; omega)).2.1

theorem max_fits64 : FitsInt64 c.max := (upper_finite (by have := c.two_le_count; omega)).2.1

/-! ### The arrays -/

theorem callPositions_eq : callPositions c.target c.sample = (List.range c.rows).map c.pos :=
  evenPositions_eq c.two_le_rows

variable {c}

theorem pos_lt (hk : k < c.rows) : c.pos k < c.count := by
  refine evenPositions_lt c.two c.two_le_rows ?_
  change c.pos k ∈ callPositions c.target c.sample
  rw [c.callPositions_eq]
  exact List.mem_map_of_mem (List.mem_range.mpr hk)

theorem pos_mono (hij : i ≤ j) : c.pos i ≤ c.pos j :=
  Nat.div_le_div_right (Nat.mul_le_mul_right _ hij)

theorem valueAt_lowers (hk : k < c.rows) : valueAt c.lowers k = (c.lower (c.pos k)).val := by
  have hword : wordAt c.lowers k = intWord (c.lower (c.pos k)).val := by
    rw [lowers, wordAt_map _ (by simp [callLowers, c.callPositions_eq, hk]), callLowers,
      c.callPositions_eq, List.map_map, List.getD_eq_getElem _ _ (by simpa using hk)]
    simp [lower]
  rw [valueAt, hword, toInt_intWord (lower_finite (pos_lt hk)).2.1]

theorem valueAt_uppers (hk : k < c.rows) : valueAt c.uppers k = (c.upper (c.pos k)).val := by
  have hword : wordAt c.uppers k = intWord (c.upper (c.pos k)).val := by
    rw [uppers, wordAt_map _ (by simp [callUppers, c.callPositions_eq, hk]), callUppers,
      c.callPositions_eq, List.map_map, List.getD_eq_getElem _ _ (by simpa using hk)]
    simp [upper]
  rw [valueAt, hword, toInt_intWord (upper_finite (pos_lt hk)).2.1]

variable (c)

/-- The arrays ascend. -/
theorem ascending : AscendingBounds c.lowers c.uppers c.rows where
  lowerMono i j hij hj := by
    rw [valueAt_lowers (by omega), valueAt_lowers hj]
    exact lower_mono (pos_mono hij) (pos_lt hj)
  upperMono i j hij hj := by
    rw [valueAt_uppers (by omega), valueAt_uppers hj]
    exact upper_mono (pos_mono hij) (pos_lt hj)

variable {c}

theorem min_le_valueAt (hk : k < c.rows) : c.min ≤ valueAt c.lowers k := by
  rw [valueAt_lowers hk]
  exact lower_mono (Nat.zero_le _) (pos_lt hk)

theorem valueAt_le_valueAt (hk : k < c.rows) : valueAt c.lowers k ≤ valueAt c.uppers k := by
  rw [valueAt_lowers hk, valueAt_uppers hk]
  exact lower_le_upper (pos_lt hk)

theorem valueAt_le_max (hk : k < c.rows) : valueAt c.uppers k ≤ c.max := by
  have hpos := pos_lt hk
  rw [valueAt_uppers hk]
  exact upper_mono (by omega) (by omega)

/-! ### The histogram -/

/-- What `compute_range_stats` leaves of a column: the `int` locals of the frequency
histogram, with the value that `sup` has before the first interval, and the stored
bounds histogram. -/
structure Analyzed where
  grid : Grid
  firstSup : ℤ
  buckets : List Bucket
  bounds : List (RangeType Datum)

variable (c) (A : CInt) (R : CFloat)

/-- The bounds and the frequency histogram of the column. -/
def analyze : Except Fault Analyzed := do
  match ← frequencyCall c.typcache c.target c.sample with
  | some (call, some bounds) =>
    let (grid, buckets) ← call.run A R intWord
    return ⟨grid, A.wrap (grid.min - 1), buckets, bounds.map (rangeToWord intWord)⟩
  | _ => .error .uninitializedRead

/-- The stored bounds histogram. -/
def bounds : List (RangeType Datum) :=
  (callBounds c.typcache c.target c.sample).map (rangeToWord intWord)

/-- The grid over unbounded integers. -/
def grid : Grid := .ofSpan c.min c.max

/-- The histogram over unbounded integers. -/
def exact : Analyzed where
  grid := c.grid
  firstSup := c.min - 1
  buckets := (List.range c.grid.nbOfIntervals.toNat).map
    (bucketAt .unbounded R c.lowers c.uppers c.rows c.grid.intervalLength c.min)
  bounds := c.bounds

theorem analyze_eq : c.analyze A R =
    (chooseIntervals A (intWord c.min) (intWord c.max)).bind fun grid =>
      (countFrequencies A R c.lowers c.uppers c.rows grid.intervalLength grid.nbOfIntervals
        grid.min).map fun buckets => ⟨grid, A.wrap (grid.min - 1), buckets, c.bounds⟩ := by
  have htrans : Std.TransCmp c.typcache.cmp := by
    rw [c.cmpInt]
    infer_instance
  obtain ⟨call, hcall, hrun⟩ := frequencyCall_run c.target htrans
    (by rw [c.cmpInt]; exact c.ordered) c.two
  unfold analyze
  rw [hcall]
  change (call.run A R intWord >>= _) = _
  rw [hrun]
  change ((chooseIntervals A (intWord c.min) (intWord c.max)).bind _).bind _ = _
  cases chooseIntervals A (intWord c.min) (intWord c.max) with
  | error e => rfl
  | ok grid =>
    simp only [Except.bind]
    change ((countFrequencies A R c.lowers c.uppers c.rows _ _ _).map _).bind _ = _
    cases countFrequencies A R c.lowers c.uppers c.rows grid.intervalLength grid.nbOfIntervals
      grid.min with
    | error e => rfl
    | ok buckets => rfl

theorem tiling : Tiling (c.max - c.min + 1) c.grid.nbOfIntervals c.grid.intervalLength :=
  (interval_tiling (by have := c.min_le_max; omega)).1

/-- A reading of `int` that keeps the ends of the grid computes its buckets. -/
theorem countFrequencies_of_keeps (hmin : A.wrap c.min = c.min)
    (hend : A.wrap (c.min - 1 + c.grid.nbOfIntervals * c.grid.intervalLength) =
      c.min - 1 + c.grid.nbOfIntervals * c.grid.intervalLength) :
    countFrequencies A R c.lowers c.uppers c.rows c.grid.intervalLength c.grid.nbOfIntervals c.min =
      .ok ((List.range c.grid.nbOfIntervals.toNat).map
        (bucketAt A R c.lowers c.uppers c.rows c.grid.intervalLength c.min)) := by
  have hcover := c.tiling.covers
  have hkeep : ∀ x, c.min ≤ x → x ≤ c.max → A.wrap x = x := fun x hlo hhi =>
    A.wrap_of_between hmin hend hlo (by omega)
  refine countFrequencies_eq _ _ c.ascending ⟨fun k hk => ?_, fun k hk => ?_⟩ c.tiling.widthPos
    hmin (fun k hk => min_le_valueAt hk) c.tiling.countPos.le hend
  · exact hkeep _ (min_le_valueAt hk) ((valueAt_le_valueAt hk).trans (valueAt_le_max hk))
  · exact hkeep _ ((min_le_valueAt hk).trans (valueAt_le_valueAt hk)) (valueAt_le_max hk)

/-- Over unbounded integers the histogram is computed. -/
theorem analyze_unbounded : c.analyze .unbounded R = .ok (c.exact R) := by
  have hgrid := chooseIntervals_eq .unbounded (intWord c.min) (intWord c.max)
  rw [toInt_intWord c.min_fits64, toInt_intWord c.max_fits64] at hgrid
  rw [analyze_eq, hgrid c.min_le_max rfl rfl rfl]
  simp only [Except.bind]
  change (countFrequencies .unbounded R c.lowers c.uppers c.rows c.grid.intervalLength
    c.grid.nbOfIntervals c.min).map _ = _
  rw [c.countFrequencies_of_keeps .unbounded R rfl rfl]
  rfl

/-! ### The histogram of the machine -/

/-- The grid of the column fits an `int`: the last integer before it, the number of
integers in the span, and the last integer of the last interval. -/
structure GridFits : Prop where
  first : -2147483648 ≤ c.min - 1
  length : c.max - c.min + 1 ≤ 2147483647
  last : c.min - 1 + c.grid.nbOfIntervals * c.grid.intervalLength ≤ 2147483647

theorem intervalLength_le : c.grid.intervalLength ≤ c.max - c.min + 1 := by
  have hpos : 1 ≤ c.max - c.min + 1 := by
    have := c.min_le_max
    omega
  have hceil : (c.grid.intervalLength - 1) * c.grid.nbOfIntervals < c.max - c.min + 1 :=
    (intervalWidth_isCeil hpos).1
  have hcount := c.tiling.countPos
  have hwidth := c.tiling.widthPos
  nlinarith

variable {c}

theorem GridFits.fits_of_mem (h : c.GridFits) {v : ℤ} (hmin : c.min ≤ v) (hmax : v ≤ c.max) :
    FitsInt32 v := by
  have hfirst := h.first
  have hlast := h.last
  have hcover := c.tiling.covers
  exact ⟨by omega, by omega⟩

theorem GridFits.min_fits (h : c.GridFits) : FitsInt32 c.min :=
  h.fits_of_mem le_rfl c.min_le_max

theorem GridFits.max_fits (h : c.GridFits) : FitsInt32 c.max :=
  h.fits_of_mem c.min_le_max le_rfl

/-- The intervals of the grid end at an `int`. -/
theorem GridFits.end_fits (h : c.GridFits) (hi : i < c.grid.nbOfIntervals.toNat) :
    FitsInt32 (c.min + i * c.grid.intervalLength + c.grid.intervalLength - 1) := by
  have hwidth := c.tiling.widthPos
  have hfirst := h.first
  have hlast := h.last
  have hi0 : 0 ≤ (i : ℤ) * c.grid.intervalLength := mul_nonneg (by omega) hwidth.le
  have hle : ((i + 1 : ℕ) : ℤ) * c.grid.intervalLength ≤
      c.grid.nbOfIntervals * c.grid.intervalLength :=
    mul_le_mul_of_nonneg_right (by omega) hwidth.le
  have hsucc : ((i + 1 : ℕ) : ℤ) * c.grid.intervalLength =
      i * c.grid.intervalLength + c.grid.intervalLength := by
    push_cast
    ring
  exact ⟨by omega, by omega⟩

/-- What a carried row has left, and what a started row has in the interval, is at most
the length of the span. -/
theorem GridFits.keepsMults (h : c.GridFits) (i : ℕ) :
    KeepsMults .int32 c.lowers c.uppers c.rows (c.min + i * c.grid.intervalLength)
      c.grid.intervalLength := by
  have hi : 0 ≤ (i : ℤ) * c.grid.intervalLength := mul_nonneg (by omega) c.tiling.widthPos.le
  have hlength := h.length
  have hwidth := c.intervalLength_le
  constructor
  · intro k hrow hstart hend
    have hmax := valueAt_le_max hrow
    exact CInt.int32.wrap_of_fits ⟨by omega, by omega⟩
  · intro k hrow hge hlow
    have hmin := min_le_valueAt hrow
    have hmid := valueAt_le_valueAt hrow
    have hmax := valueAt_le_max hrow
    exact ⟨CInt.int32.wrap_of_fits ⟨by omega, by omega⟩,
      CInt.int32.wrap_of_fits ⟨by omega, by omega⟩⟩

/-- The row that the `k`-th histogram bounds make reaches into interval `i`, and its upper
bound and the last integer of the interval lie on different sides of zero. -/
def CrossesAt (c : IntColumn) (i k : ℕ) : Prop :=
  CrossesZero (c.lower (c.pos k)).val (c.upper (c.pos k)).val
    (c.min + i * c.grid.intervalLength) c.grid.intervalLength

/-- If the grid fits, an interval gives its rows the multiplicities of unbounded integers
exactly if none of them is compared with its end across zero. -/
theorem GridFits.mults_eq_iff (h : c.GridFits) (hi : i < c.grid.nbOfIntervals.toNat) :
    (visits .int32 c.lowers c.uppers c.rows c.grid.intervalLength c.min i).map Prod.fst =
        (visits .unbounded c.lowers c.uppers c.rows c.grid.intervalLength c.min i).map
          Prod.fst ↔
      ∀ k < c.rows, ¬ c.CrossesAt i k := by
  have hunbounded : KeepsMults .unbounded c.lowers c.uppers c.rows
      (c.min + i * c.grid.intervalLength) c.grid.intervalLength :=
    ⟨fun _ _ _ _ => rfl, fun _ _ _ _ => ⟨rfl, rfl⟩⟩
  rw [visits_eq c.ascending (h.keepsMults i), visits_eq c.ascending hunbounded, List.map_map,
    List.map_map, List.map_inj_left]
  refine forall_congr' fun k => ?_
  rw [mem_visitedAt_iff c.ascending c.tiling.widthPos.le, and_imp]
  refine imp_congr_right fun hrow => ?_
  rw [CrossesAt, ← valueAt_lowers hrow, ← valueAt_uppers hrow]
  by_cases hvisited : Visited (valueAt c.lowers k) (valueAt c.uppers k)
      (c.min + i * c.grid.intervalLength) c.grid.intervalLength
  · rw [imp_iff_right hvisited, Function.comp_apply, Function.comp_apply, multAt, multAt,
      countedEnd_int32 hvisited (h.end_fits hi), sub_left_inj, ← signSlip_eq_zero_iff]
    exact add_eq_left
  · exact iff_of_true (fun hin => absurd hin hvisited) fun hcross => hvisited hcross.1

/-- If the grid fits and nothing crosses zero, the machine computes the histogram over
unbounded integers. -/
theorem GridFits.analyze_eq (h : c.GridFits)
    (hcross : ∀ i < c.grid.nbOfIntervals.toNat, ∀ k < c.rows, ¬ c.CrossesAt i k) :
    c.analyze .int32 R = .ok (c.exact R) := by
  have hfirst := h.first
  have hlength := h.length
  have hlast := h.last
  have hle := c.min_le_max
  have hcover := c.tiling.covers
  have hmin : CInt.int32.wrap c.min = c.min := CInt.int32.wrap_of_fits h.min_fits
  have hgrid := chooseIntervals_eq .int32 (intWord c.min) (intWord c.max)
  rw [toInt_intWord c.min_fits64, toInt_intWord c.max_fits64] at hgrid
  rw [IntColumn.analyze_eq, hgrid hle hmin (CInt.int32.wrap_of_fits h.max_fits)
    (CInt.int32.wrap_of_fits ⟨by omega, hlength⟩)]
  simp only [Except.bind]
  change (countFrequencies .int32 R c.lowers c.uppers c.rows c.grid.intervalLength
    c.grid.nbOfIntervals c.min).map _ = _
  rw [c.countFrequencies_of_keeps .int32 R hmin (CInt.int32.wrap_of_fits ⟨by omega, hlast⟩)]
  have hsup : CInt.int32.wrap ((Grid.ofSpan c.min c.max).min - 1) = c.min - 1 :=
    CInt.int32.wrap_of_fits ⟨hfirst, by have := h.min_fits.2; change c.min - 1 ≤ _; omega⟩
  simp only [Except.map, hsup, exact]
  congr 2
  refine List.map_congr_left fun i hi => ?_
  rw [bucketAt, bucketAt, visits_ext ((h.mults_eq_iff (List.mem_range.mp hi)).mpr
    (hcross i (List.mem_range.mp hi)))]

variable (c)

/-- The machine computes the histogram over unbounded integers exactly when the grid
fits, since each of the three values that may be too large is held by an `int` local, and
no multiplicity is computed from a comparison across zero. -/
theorem analyze_eq_iff : c.analyze .int32 R = c.analyze .unbounded R ↔
    c.GridFits ∧ ∀ i < c.grid.nbOfIntervals.toNat, ∀ k < c.rows, ¬ c.CrossesAt i k := by
  rw [c.analyze_unbounded]
  refine ⟨fun heq => ?_, fun h => h.1.analyze_eq R h.2⟩
  rw [IntColumn.analyze_eq] at heq
  cases hgrid : chooseIntervals .int32 (intWord c.min) (intWord c.max) with
  | error e => simp [hgrid, Except.bind] at heq
  | ok grid =>
    obtain ⟨buckets, hbuckets, -⟩ := countFrequencies_total .int32 R c.lowers c.uppers c.rows
      grid.intervalLength grid.nbOfIntervals grid.min
    simp only [hgrid, Except.bind, hbuckets, Except.map, Except.ok.injEq, exact,
      Analyzed.mk.injEq] at heq
    obtain ⟨rfl, hsup, hexact, -⟩ := heq
    have hfits : c.GridFits := by
      refine ⟨?_, ?_, ?_⟩
      · rw [← hsup]
        exact (CInt.wrap32_fits _).1
      · have hlength : c.max - c.min + 1 = spanLength .int32 (intWord c.min) (intWord c.max) :=
          (chooseIntervals_inv .int32 hgrid).1
        rw [hlength]
        exact (CInt.wrap32_fits _).2
      · -- the last bucket holds the last integer of the grid
        have hcount := c.tiling.countPos
        have hmem : bucketAt .unbounded R c.lowers c.uppers c.rows c.grid.intervalLength c.min
            (c.grid.nbOfIntervals.toNat - 1) ∈ buckets := by
          rw [hexact]
          exact List.mem_map_of_mem (List.mem_range.mpr (by omega))
        have hlast := (countFrequencies_sup_fits R hbuckets _ hmem).2
        rw [bucketAt_sup, supBefore, Nat.sub_add_cancel (by omega),
          Int.toNat_of_nonneg hcount.le] at hlast
        exact hlast
    refine ⟨hfits, fun i hi => (hfits.mults_eq_iff hi).mp ?_⟩
    -- the multiplicities are among what the buckets hold
    change countFrequencies .int32 R c.lowers c.uppers c.rows c.grid.intervalLength
      c.grid.nbOfIntervals c.min = .ok buckets at hbuckets
    have hlast := hfits.last
    have hmin := hfits.min_fits.1
    have hcover := c.tiling.covers
    have hle := c.min_le_max
    rw [c.countFrequencies_of_keeps .int32 R (CInt.int32.wrap_of_fits hfits.min_fits)
      (CInt.int32.wrap_of_fits ⟨by omega, hlast⟩), hexact, Except.ok.injEq,
      List.map_inj_left] at hbuckets
    rw [← bucketAt_mults .int32 R, ← bucketAt_mults .unbounded R,
      hbuckets i (List.mem_range.mpr hi)]

end IntColumn

end PgRange.Stats
