import PgRange.Stats.FrequencyCall

/-!
# Moving all bounds by the same amount

The frequencies of a column should not depend on where its values lie on the number line.
`count_frequencies` compares the upper bound of a row, an unsigned word, with the last
integer of the interval, which is converted to one. If only one of the two is negative
the comparison comes out wrong, and the row is counted with too many integers. This file
determines when moving all bounds leaves the frequencies alone: in any reading of `float`
if the same rows are miscounted before and after, and without rounding exactly if what is
counted too much has the same weight.

## Main results

* `Int4Rows.countFrequencies_signed` — the frequencies of bounds of either sign
* `Int4Rows.frequencySlotOf_shift` — when moving the bounds changes nothing
-/

set_option autoImplicit false

namespace PgRange.Stats

open Math

/-! ### Frequencies of either sign -/

/-- What the row at position `k` is counted with in an interval, for bounds of either sign. -/
def signedMult (lowers uppers : List (RangeBound Datum)) (first width : ℤ) (k : ℕ) : ℤ :=
  countedCard (valueAt lowers k) (valueAt uppers k) first width +
    signSlip (valueAt lowers k) (valueAt uppers k) first width

/-- The frequency of interval `i`, for bounds of either sign. -/
def signedCount (R : CFloat) (lowers uppers : List (RangeBound Datum)) (rows : ℕ)
    (width min : ℤ) (i : ℕ) : FloatQ :=
  R.sum ((visitedAt lowers uppers rows width min i).map fun k =>
    quotient R (signedMult lowers uppers (min + i * width) width k) (wordAt lowers k)
      (wordAt uppers k))

/-- The same without rounding, as a sum over all rows. -/
def signedFrequency (lowers uppers : List (RangeBound Datum)) (rows : ℕ) (first width : ℤ) : ℚ :=
  ((List.range rows).map fun k => (signedMult lowers uppers first width k : ℚ) /
    ((valueAt uppers k - valueAt lowers k : ℤ) : ℚ)).sum

/-- A row that does not reach into an interval is not counted there. -/
theorem signedMult_eq_zero {lowers uppers : List (RangeBound Datum)} {first width : ℤ} {k : ℕ}
    (hlt : valueAt lowers k < valueAt uppers k)
    (h : ¬ Visited (valueAt lowers k) (valueAt uppers k) first width) :
    signedMult lowers uppers first width k = 0 := by
  have hcard : countedCard (valueAt lowers k) (valueAt uppers k) first width = 0 :=
    countedCard_eq_zero (by unfold Visited at h; omega) hlt
  rw [signedMult, hcard, zero_add, signSlip_eq_zero_iff]
  exact fun hcross => h hcross.1

/-- What `ComputeFrequencyHistogram` stores for two arrays. -/
def frequencySlotOf (A : CInt) (R : CFloat) (lowers uppers : List (RangeBound Datum))
    (rows : ℕ) : Except Fault FrequencySlot :=
  (computeFrequencyHistogram A R (some lowers) (some uppers) rows).map fun (grid, buckets) =>
    ⟨grid.nbOfIntervals, buckets.map Bucket.count⟩

/-! ### Rows of `int4` bounds -/

/-- Sorted arrays of `int4` bounds, with a lower bound below the upper bound at each
position. -/
structure Int4Rows (lowers uppers : List (RangeBound Datum)) (rows : ℕ) : Prop
    extends SortedBounds lowers uppers rows where
  rowsPos : 1 ≤ rows
  lowersLength : lowers.length = rows
  uppersLength : uppers.length = rows
  lowerFits : ∀ k < rows, FitsInt32 (valueAt lowers k)
  upperFits : ∀ k < rows, FitsInt32 (valueAt uppers k)

namespace Int4Rows

variable {lowers uppers : List (RangeBound Datum)} {rows : ℕ} (h : Int4Rows lowers uppers rows)

include h

theorem keepsBounds : KeepsBounds .int32 lowers uppers rows where
  lower k hk := CInt.int32.wrap_of_fits (h.lowerFits k hk)
  upper k hk := CInt.int32.wrap_of_fits (h.upperFits k hk)

theorem first_le {k : ℕ} (hk : k < rows) : valueAt lowers 0 ≤ valueAt lowers k :=
  h.lowerMono 0 k (Nat.zero_le k) hk

theorem le_last {k : ℕ} (hk : k < rows) : valueAt uppers k ≤ valueAt uppers (rows - 1) :=
  h.upperMono k (rows - 1) (by omega) (by omega)

theorem first_lt_last : valueAt lowers 0 < valueAt uppers (rows - 1) :=
  lt_of_lt_of_le (h.lt 0 h.rowsPos) (h.le_last h.rowsPos)

/-- The count of an interval that ends at an `int`, in a span whose length is one. -/
theorem bucketAt_count_signed (R : CFloat) {width : ℤ} {i : ℕ} (hwidth : 1 ≤ width)
    (hfits : FitsInt32 width)
    (hlength : valueAt uppers (rows - 1) - valueAt lowers 0 ≤ 2147483647)
    (hlast : FitsInt32 (valueAt lowers 0 + i * width + width - 1)) :
    (bucketAt .int32 R lowers uppers rows width (valueAt lowers 0) i).count =
      signedCount R lowers uppers rows width (valueAt lowers 0) i := by
  have hascending := h.toAscendingBounds
  have hi : 0 ≤ (i : ℤ) * width := mul_nonneg (by omega) (by omega)
  have hkeep : KeepsMults .int32 lowers uppers rows (valueAt lowers 0 + i * width) width := by
    constructor
    · intro k hrow hstart hend
      have hmax := h.le_last hrow
      exact CInt.int32.wrap_of_fits ⟨by omega, by omega⟩
    · intro k hrow hge hlow
      have hlt := h.lt k hrow
      have hmin := h.first_le hrow
      have hmax := h.le_last hrow
      have hwidth' := hfits.2
      exact ⟨CInt.int32.wrap_of_fits ⟨by omega, by omega⟩,
        CInt.int32.wrap_of_fits ⟨by omega, by omega⟩⟩
  rw [bucketAt_count, visits_eq hascending hkeep, List.map_map, signedCount]
  refine congrArg R.sum (List.map_congr_left fun k hk => ?_)
  obtain ⟨hrow, hvisited⟩ := (mem_visitedAt_iff hascending (by omega)).mp hk
  have hlt := h.lt k hrow
  have hend : valueAt lowers 0 + i * width < valueAt uppers k := by
    have := hvisited.2
    omega
  rw [Function.comp_apply, multAt, countedEnd_int32 hvisited hlast, signedMult,
    countedCard_eq hwidth hlt hvisited.1 hend, add_sub_right_comm]

/-- On a grid that does not run upwards nothing is counted. -/
theorem signedCount_of_nonpos (R : CFloat) {width : ℤ} (hwidth : width ≤ 0) (i : ℕ) :
    signedCount R lowers uppers rows width (valueAt lowers 0) i = .fin 0 := by
  have hnone : ∀ i : ℕ, startedBefore lowers rows width (valueAt lowers 0) i = 0 := by
    intro i
    refine Nat.count_of_forall_not fun k hk => ?_
    have hle := h.first_le hk
    have hdown : (i : ℤ) * width ≤ 0 := mul_nonpos_of_nonneg_of_nonpos (by omega) hwidth
    unfold supBefore
    omega
  rw [signedCount, visitedAt, hnone, hnone, List.Ico.eq_nil_of_le (Nat.zero_le _),
    List.Ico.eq_nil_of_le le_rfl]
  rfl

/-- The frequencies without rounding. -/
theorem exact_signedCount (width : ℤ) (i : ℕ) :
    signedCount .exact lowers uppers rows width (valueAt lowers 0) i =
      .fin (signedFrequency lowers uppers rows (valueAt lowers 0 + i * width) width) := by
  rcases le_or_gt width 0 with hdown | hup
  · rw [h.signedCount_of_nonpos .exact hdown, signedFrequency, List.sum_eq_zero]
    intro y hy
    obtain ⟨k, hk, rfl⟩ := List.mem_map.mp hy
    have hrow := List.mem_range.mp hk
    have hle := h.first_le hrow
    have hi : (i : ℤ) * width ≤ 0 := mul_nonpos_of_nonneg_of_nonpos (by omega) hdown
    have hout : ¬ Visited (valueAt lowers k) (valueAt uppers k)
        (valueAt lowers 0 + i * width) width := fun hin => by
      have := hin.1
      omega
    rw [signedMult_eq_zero (h.lt k hrow) hout, Int.cast_zero, zero_div]
  · exact exact_sum_visitedAt h.toSortedBounds hup.le
      fun k hrow hout => signedMult_eq_zero (h.lt k hrow) hout

end Int4Rows

/-- The sweep over the grid stores the frequencies of its intervals. -/
def StoresSigned (R : CFloat) (lowers uppers : List (RangeBound Datum)) (rows : ℕ)
    (grid : Grid) : Prop :=
  ∃ buckets, countFrequencies .int32 R lowers uppers rows grid.intervalLength
      grid.nbOfIntervals grid.min = .ok buckets ∧
    buckets.map Bucket.count = (List.range grid.nbOfIntervals.toNat).map
      (signedCount R lowers uppers rows grid.intervalLength grid.min)

/-- As long as the intervals end before the first lower bound, nothing is counted. -/
theorem sweepIntervals_before (A : CInt) (R : CFloat) (lowers uppers : List (RangeBound Datum))
    (rows : ℕ) (intervalLength : ℤ) (n : ℕ) {s : Sweep} (hl : s.l = 0)
    (hends : ∀ i < n, A.wrap (s.sup + ((i : ℕ) + 1) * intervalLength) <
      A.wrap (valueAt lowers 0)) :
    ∃ buckets, sweepIntervals A R lowers uppers rows intervalLength n s = .ok buckets ∧
      buckets.map Bucket.count = List.replicate n (.fin 0) := by
  induction n generalizing s with
  | zero => exact ⟨[], rfl, rfl⟩
  | succ n ih =>
    obtain ⟨b, s', hs⟩ := sweepInterval_total A R lowers uppers rows intervalLength s
    obtain ⟨hstarted, -, hsup⟩ := sweepInterval_inv hs
    have hfirst : s'.sup < A.wrap (valueAt lowers 0) := by
      simpa [hsup] using hends 0 (Nat.succ_pos n)
    -- no row is carried over, and the first one does not start
    rw [hl, carriedLoop, List.Ico.eq_nil_of_le (Nat.zero_le _), Loop.run_done ?_ rows,
      Except.ok.injEq, Prod.mk.injEq] at hstarted
    · obtain ⟨hl', rfl⟩ := hstarted
      obtain ⟨buckets, hrest, hcounts⟩ := ih hl'.symm fun i hi => by
        have hnext := hends (i + 1) (Nat.succ_lt_succ hi)
        rw [hsup, A.wrap_wrap_add]
        convert hnext using 2
        push_cast
        ring
      refine ⟨_, sweepIntervals_succ A R lowers uppers rows intervalLength hs hrest, ?_⟩
      rw [List.map_cons, hcounts, List.replicate_succ]
      rfl
    · simp only [startedLoop, Bool.and_eq_false_iff, decide_eq_false_iff_not, not_le]
      exact Or.inl hfirst

namespace Int4Rows

variable {lowers uppers : List (RangeBound Datum)} {rows : ℕ} (h : Int4Rows lowers uppers rows)
  {grid : Grid}
  (hgrid : chooseIntervals .int32 (wordAt lowers 0) (wordAt uppers (rows - 1)) = .ok grid)

include h hgrid

theorem grid_min : grid.min = valueAt lowers 0 := by
  rw [chooseIntervals_min .int32 hgrid]
  exact CInt.int32.wrap_of_fits (h.lowerFits 0 h.rowsPos)

/-- Unless the grid is empty or runs downwards, the length of the span is an `int`, and
the grid is the one of the span. -/
theorem grid_eq_of_pos (hnb : 1 ≤ grid.nbOfIntervals) (hwidth : 1 ≤ grid.intervalLength) :
    valueAt uppers (rows - 1) - valueAt lowers 0 + 1 ≤ 2147483647 ∧
      grid = .ofSpan (valueAt lowers 0) (valueAt uppers (rows - 1)) := by
  have hlt := h.first_lt_last
  have hmin := h.lowerFits 0 h.rowsPos
  have hmax := h.upperFits (rows - 1) (by have := h.rowsPos; omega)
  have hkmin := CInt.int32.wrap_of_fits hmin
  have hkmax := CInt.int32.wrap_of_fits hmax
  have hspan : spanLength .int32 (wordAt lowers 0) (wordAt uppers (rows - 1)) =
      CInt.int32.wrap (valueAt uppers (rows - 1) - valueAt lowers 0 + 1) := by
    rw [spanLength, CInt.wrap_wrap_add]
    rw [hkmin, hkmax]
  have hpos := (chooseIntervals_pos_iff .int32 _ _).mp ⟨grid, hgrid, hnb, hwidth⟩
  rw [hspan, CInt.int32_wrap, CInt.wrap32] at hpos
  unfold FitsInt32 at hmin hmax
  have hlength : valueAt uppers (rows - 1) - valueAt lowers 0 + 1 ≤ 2147483647 := by omega
  have hchosen := chooseIntervals_eq .int32 (wordAt lowers 0) (wordAt uppers (rows - 1)) hlt.le
    hkmin hkmax (CInt.int32.wrap_of_fits (x := valueAt uppers (rows - 1) - valueAt lowers 0 + 1)
      ⟨by omega, hlength⟩)
  exact ⟨hlength, Except.ok.inj (hgrid.symm.trans hchosen)⟩

/-- Then the length of the intervals is an `int` as well. -/
theorem intervalLength_fits (hnb : 1 ≤ grid.nbOfIntervals) (hwidth : 1 ≤ grid.intervalLength) :
    FitsInt32 grid.intervalLength := by
  obtain ⟨hlength, hspan⟩ := h.grid_eq_of_pos hgrid hnb hwidth
  have hlt := h.first_lt_last
  have hle : grid.intervalLength ≤
      weightedDivider (valueAt uppers (rows - 1) - valueAt lowers 0 + 1) := by
    rw [hspan]
    exact (interval_tiling (by omega)).2
  rw [weightedDivider, Int.tdiv_eq_ediv_of_nonneg (by omega)] at hle
  exact ⟨by omega, by omega⟩

section Ends

variable (R : CFloat) (hends : ∀ i < grid.nbOfIntervals.toNat,
  FitsInt32 (grid.min - 1 + ((i : ℕ) + 1) * grid.intervalLength))

include hends

/-- The frequencies on a grid that runs upwards. -/
theorem countFrequencies_signed_of_pos (hnb : 1 ≤ grid.nbOfIntervals)
    (hwidth : 1 ≤ grid.intervalLength) : StoresSigned R lowers uppers rows grid := by
  have hmin := h.grid_min hgrid
  have hlength := (h.grid_eq_of_pos hgrid hnb hwidth).1
  have hcast : ((grid.nbOfIntervals.toNat - 1 : ℕ) : ℤ) + 1 = grid.nbOfIntervals := by omega
  have hend := hends (grid.nbOfIntervals.toNat - 1) (by omega)
  rw [hcast, hmin] at hend
  rw [StoresSigned, hmin]
  rw [hmin] at hends
  refine ⟨_, countFrequencies_eq _ _ h.toAscendingBounds h.keepsBounds hwidth
    (CInt.int32.wrap_of_fits (h.lowerFits 0 h.rowsPos)) (fun k hk => h.first_le hk) (by omega)
    (CInt.int32.wrap_of_fits hend), ?_⟩
  rw [List.map_map]
  refine List.map_congr_left fun i hi => ?_
  refine h.bucketAt_count_signed R hwidth (h.intervalLength_fits hgrid hnb hwidth) (by omega) ?_
  have hsup := hends i (List.mem_range.mp hi)
  have hsucc : valueAt lowers 0 - 1 + ((i : ℤ) + 1) * grid.intervalLength =
      valueAt lowers 0 + i * grid.intervalLength + grid.intervalLength - 1 := by ring
  rwa [hsucc] at hsup

/-- A grid that runs downwards lies before the first lower bound. -/
theorem countFrequencies_signed_of_nonpos (hwidth : grid.intervalLength ≤ 0) :
    StoresSigned R lowers uppers rows grid := by
  have hmin := h.grid_min hgrid
  obtain ⟨buckets, hrun, hcounts⟩ := sweepIntervals_before .int32 R lowers uppers rows
    grid.intervalLength grid.nbOfIntervals.toNat
    (s := ⟨0, 0, CInt.int32.wrap (grid.min - 1)⟩) rfl fun i hi => by
      have hle : ((i : ℤ) + 1) * grid.intervalLength ≤ 0 :=
        mul_nonpos_of_nonneg_of_nonpos (by omega) hwidth
      rw [CInt.wrap_wrap_add, CInt.int32.wrap_of_fits (hends i hi),
        CInt.int32.wrap_of_fits (h.lowerFits 0 h.rowsPos), hmin]
      omega
  refine ⟨buckets, hrun, ?_⟩
  rw [hcounts, hmin, List.map_congr_left fun i _ => h.signedCount_of_nonpos R hwidth i,
    List.map_const', List.length_range]

/-- The frequencies on the chosen grid, if its intervals end at an `int` each. -/
theorem countFrequencies_signed : StoresSigned R lowers uppers rows grid := by
  rcases le_or_gt grid.intervalLength 0 with hdown | hwidth
  · exact h.countFrequencies_signed_of_nonpos hgrid R hends hdown
  rcases le_or_gt grid.nbOfIntervals 0 with hnone | hnb
  · -- no intervals
    refine ⟨[], ?_, ?_⟩
    · rw [countFrequencies, Int.toNat_of_nonpos hnone]
      rfl
    · rw [Int.toNat_of_nonpos hnone]
      rfl
  · exact h.countFrequencies_signed_of_pos hgrid R hends hnb hwidth

end Ends

end Int4Rows

/-! ### Moving the bounds -/

/-- The bound moved by `c`. -/
def shiftBound (c : ℤ) (b : RangeBound Datum) : RangeBound Datum :=
  { b with val := int4Word (b.val.toInt + c) }

theorem valueAt_map_shiftBound {bounds : List (RangeBound Datum)} {c : ℤ} {k : ℕ}
    (hk : k < bounds.length) (hfits : FitsInt32 (valueAt bounds k + c)) :
    valueAt (bounds.map (shiftBound c)) k = valueAt bounds k + c := by
  unfold valueAt wordAt at hfits ⊢
  rw [List.getD_eq_getElem _ _ hk] at hfits ⊢
  rw [List.getD_eq_getElem _ _ (by simpa using hk), List.getElem_map]
  exact toInt_int4Word hfits

/-- The weight of the integers that are counted too often in an interval, with all bounds
moved by `c`. -/
def slipWeight (lowers uppers : List (RangeBound Datum)) (rows : ℕ) (c first width : ℤ) : ℚ :=
  ((List.range rows).map fun k =>
    (signSlip (valueAt lowers k + c) (valueAt uppers k + c) (first + c) width : ℚ) /
      ((valueAt uppers k - valueAt lowers k : ℤ) : ℚ)).sum

/-- The rows up to `n` that have a property are counted by the property there. -/
theorem count_congr {p q : ℕ → Prop} [DecidablePred p] [DecidablePred q] {n : ℕ}
    (h : ∀ k < n, (p k ↔ q k)) : Nat.count p n = Nat.count q n :=
  le_antisymm (Nat.count_mono_left fun k hk => (h k hk).mp)
    (Nat.count_mono_left fun k hk => (h k hk).mpr)

/-- The number of integers in an interval does not change when everything is moved. -/
theorem countedCard_shift (lower upper first width c : ℤ) :
    countedCard (lower + c) (upper + c) (first + c) width =
      countedCard lower upper first width := by
  unfold countedCard
  rw [overlapCard_eq, overlapCard_eq]
  split_ifs <;> omega

theorem signedFrequency_eq (lowers uppers : List (RangeBound Datum)) (rows : ℕ)
    (first width : ℤ) :
    signedFrequency lowers uppers rows first width =
      ((List.range rows).map (shareAt lowers uppers first width)).sum +
        slipWeight lowers uppers rows 0 first width := by
  rw [slipWeight, signedFrequency, ← List.sum_map_add]
  refine congrArg List.sum (List.map_congr_left fun k _ => ?_)
  simp only [signedMult, shareAt, add_zero, Int.cast_add]
  rw [add_div]

namespace Int4Rows

variable {lowers uppers : List (RangeBound Datum)} {rows : ℕ} (h : Int4Rows lowers uppers rows)
  {c : ℤ} (hlower : ∀ k < rows, FitsInt32 (valueAt lowers k + c))
  (hupper : ∀ k < rows, FitsInt32 (valueAt uppers k + c))

include h

/-- What is stored depends on the two arrays through the chosen grid and the sweep. -/
theorem frequencySlotOf_eq (R : CFloat) :
    frequencySlotOf .int32 R lowers uppers rows =
      (chooseIntervals .int32 (wordAt lowers 0) (wordAt uppers (rows - 1))).bind fun grid =>
      (countFrequencies .int32 R lowers uppers rows grid.intervalLength grid.nbOfIntervals
        grid.min).map fun buckets => ⟨grid.nbOfIntervals, buckets.map Bucket.count⟩ := by
  have hpos := h.rowsPos
  rw [frequencySlotOf, computeFrequencyHistogram_eq .int32 R (by rw [h.lowersLength]; omega) hpos
    h.uppersLength.ge]
  cases chooseIntervals .int32 (wordAt lowers 0) (wordAt uppers (rows - 1)) with
  | error e => rfl
  | ok grid =>
    simp only [Except.bind]
    cases countFrequencies .int32 R lowers uppers rows grid.intervalLength grid.nbOfIntervals
      grid.min with
    | error e => rfl
    | ok buckets => rfl

include hlower in
theorem valueAt_shift_lower {k : ℕ} (hk : k < rows) :
    valueAt (lowers.map (shiftBound c)) k = valueAt lowers k + c :=
  valueAt_map_shiftBound (h.lowersLength ▸ hk) (hlower k hk)

include hupper in
theorem valueAt_shift_upper {k : ℕ} (hk : k < rows) :
    valueAt (uppers.map (shiftBound c)) k = valueAt uppers k + c :=
  valueAt_map_shiftBound (h.uppersLength ▸ hk) (hupper k hk)

include hlower hupper

/-- The moved bounds are sorted rows again. -/
theorem shift : Int4Rows (lowers.map (shiftBound c)) (uppers.map (shiftBound c)) rows where
  lowerMono i j hij hj := by
    rw [h.valueAt_shift_lower hlower (by omega), h.valueAt_shift_lower hlower hj]
    have := h.lowerMono i j hij hj
    omega
  upperMono i j hij hj := by
    rw [h.valueAt_shift_upper hupper (by omega), h.valueAt_shift_upper hupper hj]
    have := h.upperMono i j hij hj
    omega
  lt k hk := by
    rw [h.valueAt_shift_lower hlower hk, h.valueAt_shift_upper hupper hk]
    have := h.lt k hk
    omega
  rowsPos := h.rowsPos
  lowersLength := by rw [List.length_map, h.lowersLength]
  uppersLength := by rw [List.length_map, h.uppersLength]
  lowerFits k hk := by
    rw [h.valueAt_shift_lower hlower hk]
    exact hlower k hk
  upperFits k hk := by
    rw [h.valueAt_shift_upper hupper hk]
    exact hupper k hk

/-- The grid moves with the bounds. -/
theorem chooseIntervals_shift :
    chooseIntervals .int32 (wordAt (lowers.map (shiftBound c)) 0)
        (wordAt (uppers.map (shiftBound c)) (rows - 1)) =
      (chooseIntervals .int32 (wordAt lowers 0) (wordAt uppers (rows - 1))).map fun grid =>
        { grid with min := grid.min + c, max := grid.max + c } := by
  have hlast : rows - 1 < rows := by have := h.rowsPos; omega
  have hmin : CInt.int32.wrap (wordAt lowers 0).toInt = valueAt lowers 0 :=
    CInt.int32.wrap_of_fits (h.lowerFits 0 h.rowsPos)
  have hmax : CInt.int32.wrap (wordAt uppers (rows - 1)).toInt = valueAt uppers (rows - 1) :=
    CInt.int32.wrap_of_fits (h.upperFits _ hlast)
  have hmin' : CInt.int32.wrap (wordAt (lowers.map (shiftBound c)) 0).toInt =
      valueAt lowers 0 + c := by
    rw [← h.valueAt_shift_lower hlower h.rowsPos]
    exact CInt.int32.wrap_of_fits ((h.shift hlower hupper).lowerFits 0 h.rowsPos)
  have hmax' : CInt.int32.wrap (wordAt (uppers.map (shiftBound c)) (rows - 1)).toInt =
      valueAt uppers (rows - 1) + c := by
    rw [← h.valueAt_shift_upper hupper hlast]
    exact CInt.int32.wrap_of_fits ((h.shift hlower hupper).upperFits _ hlast)
  have hspan : spanLength .int32 (wordAt (lowers.map (shiftBound c)) 0)
      (wordAt (uppers.map (shiftBound c)) (rows - 1)) =
        spanLength .int32 (wordAt lowers 0) (wordAt uppers (rows - 1)) := by
    rw [spanLength, spanLength, hmin, hmax, hmin', hmax', add_sub_add_right_eq_sub]
  rw [chooseIntervals_eq_bind, chooseIntervals_eq_bind, hspan, hmin, hmax, hmin', hmax']
  generalize spanLength .int32 _ _ = length
  cases roundUpDivision .int32 length (weightedDivider length) with
  | error e => rfl
  | ok nb =>
    simp only [Except.bind]
    cases roundUpDivision .int32 length nb with
    | error e => rfl
    | ok width => rfl

/-- The frequencies of the moved bounds: the same integers, with the weight of those that
are counted too often after the move. -/
theorem signedFrequency_shift (first width : ℤ) :
    signedFrequency (lowers.map (shiftBound c)) (uppers.map (shiftBound c)) rows (first + c) width =
      ((List.range rows).map (shareAt lowers uppers first width)).sum +
        slipWeight lowers uppers rows c first width := by
  rw [slipWeight, signedFrequency, ← List.sum_map_add]
  refine congrArg List.sum (List.map_congr_left fun k hk => ?_)
  have hrow := List.mem_range.mp hk
  have hlength : valueAt uppers k + c - (valueAt lowers k + c) =
      valueAt uppers k - valueAt lowers k := by ring
  simp only [signedMult, shareAt]
  rw [h.valueAt_shift_lower hlower hrow, h.valueAt_shift_upper hupper hrow, countedCard_shift,
    hlength, Int.cast_add, add_div]

/-- The moved grid visits the same rows. -/
theorem visitedAt_shift (width min : ℤ) (i : ℕ) :
    visitedAt (lowers.map (shiftBound c)) (uppers.map (shiftBound c)) rows width (min + c) i =
      visitedAt lowers uppers rows width min i := by
  have hstarted : ∀ i, startedBefore (lowers.map (shiftBound c)) rows width (min + c) i =
      startedBefore lowers rows width min i := by
    intro i
    refine count_congr fun k hk => ?_
    rw [h.valueAt_shift_lower hlower hk, supBefore, supBefore]
    omega
  have hended : endedBefore (uppers.map (shiftBound c)) rows width (min + c) i =
      endedBefore uppers rows width min i := by
    refine count_congr fun k hk => ?_
    rw [h.valueAt_shift_upper hupper hk, supBefore, supBefore]
    omega
  rw [visitedAt, visitedAt, hstarted, hstarted, hended]

/-- The frequency of an interval stays what it was if the same rows are miscounted there. -/
theorem signedCount_shift (R : CFloat) (width : ℤ) (i : ℕ)
    (hsame : ∀ k < rows, (CrossesZero (valueAt lowers k + c) (valueAt uppers k + c)
        (valueAt lowers 0 + i * width + c) width ↔
      CrossesZero (valueAt lowers k) (valueAt uppers k) (valueAt lowers 0 + i * width) width)) :
    signedCount R (lowers.map (shiftBound c)) (uppers.map (shiftBound c)) rows width
        (valueAt lowers 0 + c) i =
      signedCount R lowers uppers rows width (valueAt lowers 0) i := by
  rw [signedCount, signedCount, h.visitedAt_shift hlower hupper]
  refine congrArg R.sum (List.map_congr_left fun k hk => ?_)
  have hrow := lt_of_mem_visitedAt hk
  have hlow := h.valueAt_shift_lower hlower hrow
  have hup := h.valueAt_shift_upper hupper hrow
  have hlt := h.lt k hrow
  have hmult : signedMult (lowers.map (shiftBound c)) (uppers.map (shiftBound c))
      (valueAt lowers 0 + c + i * width) width k =
        signedMult lowers uppers (valueAt lowers 0 + i * width) width k := by
    have hdistance : valueAt uppers k + c - (valueAt lowers 0 + i * width + c + width) =
        valueAt uppers k - (valueAt lowers 0 + i * width + width) := by ring
    rw [signedMult, signedMult, hlow, hup, add_right_comm, countedCard_shift, signSlip, signSlip,
      if_congr (hsame k hrow) rfl rfl, hdistance]
  -- the divisor is the difference of the two words
  have hlength : (wordAt (uppers.map (shiftBound c)) k -
      wordAt (lowers.map (shiftBound c)) k).toNat = (wordAt uppers k - wordAt lowers k).toNat := by
    have hbefore := toNat_sub_of_le hlt.le
    have hafter := toNat_sub_of_le ((h.shift hlower hupper).lt k hrow).le
    change _ = valueAt _ k - valueAt _ k at hbefore hafter
    rw [hlow, hup] at hafter
    omega
  rw [quotient, quotient, hmult, hlength]

/-- What is stored for the moved bounds is what was stored before exactly if each interval
has the frequency that it had. -/
theorem frequencySlotOf_shift_eq_iff (R : CFloat)
    (hends : ∀ grid, chooseIntervals .int32 (wordAt lowers 0) (wordAt uppers (rows - 1)) =
      .ok grid → ∀ i < grid.nbOfIntervals.toNat,
        FitsInt32 (grid.min - 1 + ((i : ℕ) + 1) * grid.intervalLength) ∧
          FitsInt32 (grid.min - 1 + ((i : ℕ) + 1) * grid.intervalLength + c)) :
    frequencySlotOf .int32 R (lowers.map (shiftBound c)) (uppers.map (shiftBound c)) rows =
        frequencySlotOf .int32 R lowers uppers rows ↔
      ∀ grid, chooseIntervals .int32 (wordAt lowers 0) (wordAt uppers (rows - 1)) = .ok grid →
        ∀ i < grid.nbOfIntervals.toNat,
          signedCount R (lowers.map (shiftBound c)) (uppers.map (shiftBound c)) rows
              grid.intervalLength (grid.min + c) i =
            signedCount R lowers uppers rows grid.intervalLength grid.min i := by
  have hmoved := h.shift hlower hupper
  have hchoose := h.chooseIntervals_shift hlower hupper
  rw [h.frequencySlotOf_eq, hmoved.frequencySlotOf_eq, hchoose]
  cases hgrid : chooseIntervals .int32 (wordAt lowers 0) (wordAt uppers (rows - 1)) with
  | error e => exact iff_of_true (by simp only [Except.map, Except.bind]) nofun
  | ok grid =>
    rw [hgrid] at hchoose
    obtain ⟨buckets, hrun, hcounts⟩ := h.countFrequencies_signed hgrid R
      fun i hi => (hends grid hgrid i hi).1
    have hends' : ∀ i < grid.nbOfIntervals.toNat,
        FitsInt32 (grid.min + c - 1 + ((i : ℕ) + 1) * grid.intervalLength) := fun i hi => by
      have hend := (hends grid hgrid i hi).2
      rw [add_right_comm, sub_add_eq_add_sub] at hend
      exact hend
    obtain ⟨moved, hrun', hcounts'⟩ := hmoved.countFrequencies_signed hchoose R hends'
    simp only [Except.map, Except.bind, hrun, hrun', hcounts, hcounts', Except.ok.injEq,
      FrequencySlot.mk.injEq, true_and, forall_eq']
    rw [List.map_inj_left]
    simp only [List.mem_range]

/-- With the ends of all intervals in the `int` range, moving the bounds leaves what is
stored alone if in each interval the same rows are counted with too many integers before
and after. Without rounding it does so exactly if these integers have the same weight. -/
theorem frequencySlotOf_shift
    (hends : ∀ grid, chooseIntervals .int32 (wordAt lowers 0) (wordAt uppers (rows - 1)) =
      .ok grid → ∀ i < grid.nbOfIntervals.toNat,
        FitsInt32 (grid.min - 1 + ((i : ℕ) + 1) * grid.intervalLength) ∧
          FitsInt32 (grid.min - 1 + ((i : ℕ) + 1) * grid.intervalLength + c)) :
    ((∀ grid, chooseIntervals .int32 (wordAt lowers 0) (wordAt uppers (rows - 1)) = .ok grid →
        ∀ i < grid.nbOfIntervals.toNat, ∀ k < rows,
          (CrossesZero (valueAt lowers k + c) (valueAt uppers k + c)
              (grid.min + (i : ℕ) * grid.intervalLength + c) grid.intervalLength ↔
            CrossesZero (valueAt lowers k) (valueAt uppers k)
              (grid.min + (i : ℕ) * grid.intervalLength) grid.intervalLength)) →
      ∀ R, frequencySlotOf .int32 R (lowers.map (shiftBound c)) (uppers.map (shiftBound c)) rows =
        frequencySlotOf .int32 R lowers uppers rows) ∧
    (frequencySlotOf .int32 .exact (lowers.map (shiftBound c)) (uppers.map (shiftBound c)) rows =
        frequencySlotOf .int32 .exact lowers uppers rows ↔
      ∀ grid, chooseIntervals .int32 (wordAt lowers 0) (wordAt uppers (rows - 1)) = .ok grid →
        ∀ i < grid.nbOfIntervals.toNat,
          slipWeight lowers uppers rows c (grid.min + (i : ℕ) * grid.intervalLength)
              grid.intervalLength =
            slipWeight lowers uppers rows 0 (grid.min + (i : ℕ) * grid.intervalLength)
              grid.intervalLength) := by
  have hstored := fun R => h.frequencySlotOf_shift_eq_iff hlower hupper R hends
  refine ⟨fun hsame R => (hstored R).mpr fun grid hgrid i hi => ?_, (hstored .exact).trans ?_⟩
  · have hcross := hsame grid hgrid i hi
    rw [h.grid_min hgrid] at hcross ⊢
    exact h.signedCount_shift hlower hupper R grid.intervalLength i hcross
  · refine forall_congr' fun grid => forall_congr' fun hgrid => forall₂_congr fun i _ => ?_
    rw [h.grid_min hgrid, h.exact_signedCount, ← h.valueAt_shift_lower hlower h.rowsPos,
      (h.shift hlower hupper).exact_signedCount, h.valueAt_shift_lower hlower h.rowsPos,
      add_right_comm, h.signedFrequency_shift hlower hupper, signedFrequency_eq, FloatQ.fin.injEq,
      add_right_inj]

end Int4Rows

/-- The rows `[1,30)` and `[11,46)`. -/
theorem int4Rows_crossing :
    Int4Rows [int4Lower 1, int4Lower 11] [int4Upper 30, int4Upper 46] 2 where
  lowerMono i j hij hj :=
    (by decide : ∀ j < 2, ∀ i ≤ j, valueAt [int4Lower 1, int4Lower 11] i ≤
      valueAt [int4Lower 1, int4Lower 11] j) j hj i hij
  upperMono i j hij hj :=
    (by decide : ∀ j < 2, ∀ i ≤ j, valueAt [int4Upper 30, int4Upper 46] i ≤
      valueAt [int4Upper 30, int4Upper 46] j) j hj i hij
  lt := by decide
  rowsPos := by decide
  lowersLength := rfl
  uppersLength := rfl
  lowerFits := by decide
  upperFits := by decide

/-- The rows `[1,30)` and `[11,46)`, moved by one: sixteen intervals of three integers. -/
theorem frequencySlotOf_shift_positive :
    frequencySlotOf .int32 .float4 ([int4Lower 1, int4Lower 11].map (shiftBound 1))
        ([int4Upper 30, int4Upper 46].map (shiftBound 1)) 2 =
      frequencySlotOf .int32 .float4 [int4Lower 1, int4Lower 11] [int4Upper 30, int4Upper 46]
        2 := by
  have hgrid : chooseIntervals .int32 (wordAt [int4Lower 1, int4Lower 11] 0)
      (wordAt [int4Upper 30, int4Upper 46] (2 - 1)) = .ok ⟨1, 46, 46, 16, 3⟩ := by decide +kernel
  refine (Int4Rows.frequencySlotOf_shift int4Rows_crossing (c := 1)
    (by decide) (by decide) fun grid h => ?_).1 (fun grid h => ?_) .float4
  · cases hgrid.symm.trans h
    decide +kernel
  · cases hgrid.symm.trans h
    decide +kernel

/-- Two rows `[-1,1)`: the interval `[-1,-1]` holds one integer of each, but gets the
weight of two. Moved by one, to `[0,2)`, it gets the weight of one. -/
theorem frequencySlotOf_around_zero :
    frequencySlotOf .int32 .float4 [int4Lower (-1), int4Lower (-1)] [int4Upper 1, int4Upper 1] 2 =
      .ok ⟨3, [.fin 2, .fin 1, .fin 0]⟩ ∧
    [int4Lower (-1), int4Lower (-1)].map (shiftBound 1) = [int4Lower 0, int4Lower 0] ∧
    [int4Upper 1, int4Upper 1].map (shiftBound 1) = [int4Upper 2, int4Upper 2] ∧
    frequencySlotOf .int32 .float4 [int4Lower 0, int4Lower 0] [int4Upper 2, int4Upper 2] 2 =
      .ok ⟨3, [.fin 1, .fin 1, .fin 0]⟩ := by
  decide +kernel

end PgRange.Stats
