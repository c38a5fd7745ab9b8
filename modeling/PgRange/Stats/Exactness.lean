import PgRange.Stats.CountFrequencies
import Mathlib.Algebra.BigOperators.Field
import Mathlib.Algebra.Order.BigOperators.Group.Finset

/-!
# When the sweep counts exactly

The share of a row in an interval is meant to be the fraction of its integers that lie
there. `count_frequencies` compares the exclusive upper bound of the row with the last
integer of the interval, which is inclusive, and counts one integer too many if the two
are equal. This file determines when that happens on an arbitrary grid.

## Main results

* `sum_overlapCard` — intervals side by side share out the integers of a row
* `countFrequencies_exact_iff` — the frequencies are exact, and add up to the number of
  rows, exactly when no row ends at the last integer of an interval
-/

set_option autoImplicit false

namespace PgRange.Stats

open Math

/-- The fraction of the integers of row `k` that are among the `width` integers from
`first` on. -/
def exactShare (lowers uppers : List (RangeBound Datum)) (first width : ℤ) (k : ℕ) : ℚ :=
  (overlapCard (valueAt lowers k) (valueAt uppers k) first width : ℚ) /
    ((valueAt uppers k - valueAt lowers k : ℤ) : ℚ)

/-- The frequency of the `width` integers from `first` on, if every row is counted by
its exact share. -/
def exactFrequency (lowers uppers : List (RangeBound Datum)) (rows : ℕ) (first width : ℤ) : ℚ :=
  ((List.range rows).map (exactShare lowers uppers first width)).sum

theorem sum_map_range (f : ℕ → ℚ) (n : ℕ) :
    ((List.range n).map f).sum = ∑ k ∈ Finset.range n, f k :=
  rfl

/-! ### Intervals side by side -/

/-- Two intervals side by side hold as many integers of a row as the two together. -/
theorem overlapCard_add (lower upper first : ℤ) {width width' : ℤ} (hwidth : 0 ≤ width)
    (hwidth' : 0 ≤ width') :
    overlapCard lower upper first (width + width') =
      overlapCard lower upper first width + overlapCard lower upper (first + width) width' := by
  have hboth := overlapCard_eq lower upper first (width + width')
  have hleft := overlapCard_eq lower upper first width
  have hright := overlapCard_eq lower upper (first + width) width'
  omega

/-- The first `n` intervals of a grid hold as many integers of a row as the stretch that
they cover. -/
theorem sum_overlapCard (lower upper first : ℤ) {width : ℤ} (hwidth : 0 ≤ width) (n : ℕ) :
    ∑ i ∈ Finset.range n, overlapCard lower upper (first + i * width) width =
      overlapCard lower upper first (n * width) := by
  induction n with
  | zero => simp [overlapCard]
  | succ n ih =>
    have hsucc : ((n + 1 : ℕ) : ℤ) * width = n * width + width := by
      push_cast
      ring
    rw [Finset.sum_range_succ, ih, hsucc, overlapCard_add _ _ _ (by positivity) hwidth]

/-- A stretch that contains a row holds all its integers. -/
theorem overlapCard_of_covers {lower upper first width : ℤ} (hlt : lower < upper)
    (hfirst : first ≤ lower) (hlast : upper ≤ first + width) :
    (overlapCard lower upper first width : ℤ) = upper - lower := by
  rw [overlapCard_eq]
  omega

section Shares

variable (lowers uppers : List (RangeBound Datum))

/-- What the sweep counts of a row is its exact share, and an integer more if the upper
bound is the last integer of the interval. -/
theorem shareAt_eq_exactShare_add (first width : ℤ) (k : ℕ) :
    shareAt lowers uppers first width k = exactShare lowers uppers first width k +
      if 1 < width ∧ valueAt uppers k = first + width - 1
      then 1 / ((valueAt uppers k - valueAt lowers k : ℤ) : ℚ) else 0 := by
  unfold shareAt exactShare countedCard
  split_ifs
  · push_cast
    ring
  · simp

variable {lowers uppers} {rows : ℕ} (hsorted : SortedBounds lowers uppers rows)

include hsorted

/-- The shares of an interval add up to the exact frequency exactly when no row ends at
its last integer. -/
theorem sum_shareAt_eq_iff (first width : ℤ) :
    ((List.range rows).map (shareAt lowers uppers first width)).sum =
        exactFrequency lowers uppers rows first width ↔
      ∀ k < rows, ¬ (1 < width ∧ valueAt uppers k = first + width - 1) := by
  have hlength : ∀ k < rows, (0 : ℚ) < ((valueAt uppers k - valueAt lowers k : ℤ) : ℚ) := by
    intro k hk
    have := hsorted.lt k hk
    exact_mod_cast (by omega : 0 < valueAt uppers k - valueAt lowers k)
  have hle : ∀ k ∈ Finset.range rows,
      exactShare lowers uppers first width k ≤ shareAt lowers uppers first width k := by
    intro k hk
    rw [shareAt_eq_exactShare_add]
    split_ifs
    · have := one_div_pos.mpr (hlength k (Finset.mem_range.mp hk))
      linarith
    · simp
  rw [exactFrequency, sum_map_range, sum_map_range, eq_comm, Finset.sum_eq_sum_iff_of_le hle]
  -- each share is at least the exact one, so equal sums have equal terms
  refine forall_congr' fun k => ?_
  rw [Finset.mem_range]
  refine imp_congr_right fun hk => ?_
  rw [shareAt_eq_exactShare_add]
  split_ifs with hslip
  · have := one_div_pos.mpr (hlength k hk)
    refine iff_of_false ?_ (not_not_intro hslip)
    linarith
  · simp [hslip]

/-- Over a grid that covers all rows, the exact frequencies add up to their number. -/
theorem sum_exactFrequency {first width : ℤ} {n : ℕ} (hwidth : 0 ≤ width)
    (hfirst : ∀ k < rows, first ≤ valueAt lowers k)
    (hlast : ∀ k < rows, valueAt uppers k ≤ first + n * width) :
    ((List.range n).map fun i : ℕ =>
      exactFrequency lowers uppers rows (first + i * width) width).sum = rows := by
  simp only [exactFrequency, sum_map_range]
  rw [Finset.sum_comm]
  have hrow : ∀ k ∈ Finset.range rows,
      ∑ i ∈ Finset.range n, exactShare lowers uppers (first + i * width) width k = 1 := by
    intro k hk
    have hk' := Finset.mem_range.mp hk
    have hlt := hsorted.lt k hk'
    have hcard : ((overlapCard (valueAt lowers k) (valueAt uppers k) first (n * width) : ℕ) : ℚ) =
        ((valueAt uppers k - valueAt lowers k : ℤ) : ℚ) := by
      rw [← overlapCard_of_covers hlt (hfirst k hk') (hlast k hk')]
      norm_cast
    have hne : ((valueAt uppers k - valueAt lowers k : ℤ) : ℚ) ≠ 0 := by
      exact_mod_cast (by omega : valueAt uppers k - valueAt lowers k ≠ 0)
    unfold exactShare
    rw [← Finset.sum_div, ← Nat.cast_sum, sum_overlapCard _ _ _ hwidth, hcard, div_self hne]
  rw [Finset.sum_congr rfl hrow]
  simp

end Shares

/-! ### The frequencies -/

/-- A grid of `nb` intervals from the first lower bound on that reaches the last upper
bound, over sorted bounds that are not negative. The end of the grid fits an `int`. -/
structure CoveringGrid (lowers uppers : List (RangeBound Datum)) (rows : ℕ) (nb width : ℤ) :
    Prop where
  rowsPos : 1 ≤ rows
  sorted : SortedBounds lowers uppers rows
  nonneg : 0 ≤ valueAt lowers 0
  widthPos : 1 ≤ width
  covers : valueAt uppers (rows - 1) - valueAt lowers 0 ≤ nb * width
  fits : valueAt lowers 0 + nb * width ≤ 2147483647

namespace CoveringGrid

variable {lowers uppers : List (RangeBound Datum)} {rows : ℕ} {nb width : ℤ}
  (h : CoveringGrid lowers uppers rows nb width)

include h

theorem first_le {k : ℕ} (hk : k < rows) : valueAt lowers 0 ≤ valueAt lowers k :=
  h.sorted.lowerMono 0 k (Nat.zero_le k) hk

theorem upper_le {k : ℕ} (hk : k < rows) :
    valueAt uppers k ≤ valueAt lowers 0 + nb * width := by
  have hmono := h.sorted.upperMono k (rows - 1) (by omega) (by omega)
  have hcovers := h.covers
  omega

theorem nb_pos : 0 < nb := by
  have hlow := h.sorted.lt 0 h.rowsPos
  have hup := h.upper_le h.rowsPos
  by_contra hle
  have : nb * width ≤ 0 :=
    mul_nonpos_of_nonpos_of_nonneg (not_lt.mp hle) (by have := h.widthPos; omega)
  omega

theorem width_le : width ≤ nb * width := by
  have := mul_le_mul_of_nonneg_right h.nb_pos (by have := h.widthPos; omega : 0 ≤ width)
  omega

theorem bounds_fit {k : ℕ} (hk : k < rows) :
    FitsInt32 (valueAt lowers k) ∧ FitsInt32 (valueAt uppers k) := by
  have hlow : 0 ≤ valueAt lowers k := h.nonneg.trans (h.first_le hk)
  have hlt := h.sorted.lt k hk
  have hup : valueAt uppers k ≤ 2147483647 := (h.upper_le hk).trans h.fits
  exact ⟨⟨by omega, by omega⟩, by omega, hup⟩

theorem keepsBounds : KeepsBounds .int32 lowers uppers rows where
  lower _ hk := CInt.int32.wrap_of_fits (h.bounds_fit hk).1
  upper _ hk := CInt.int32.wrap_of_fits (h.bounds_fit hk).2

/-- The end of interval `i` lies within the grid. -/
theorem sup_le {i : ℕ} (hi : i < nb.toNat) :
    supBefore width (valueAt lowers 0) (i + 1) < valueAt lowers 0 + nb * width := by
  have hle : ((i + 1 : ℕ) : ℤ) * width ≤ nb * width :=
    mul_le_mul_of_nonneg_right (by omega) (by have := h.widthPos; omega)
  unfold supBefore
  omega

theorem countFrequencies_eq :
    countFrequencies .int32 .exact lowers uppers rows width nb (valueAt lowers 0) =
      .ok ((List.range nb.toNat).map
        (bucketAt .int32 .exact lowers uppers rows width (valueAt lowers 0))) := by
  have hnonneg := h.nonneg
  have hfits := h.fits
  have hwidth := h.widthPos
  have hle := h.width_le
  exact Stats.countFrequencies_eq _ _ h.sorted.toAscendingBounds h.keepsBounds hwidth
    (CInt.int32.wrap_of_fits ⟨by omega, by omega⟩) (fun k hk => h.first_le hk) h.nb_pos.le
    (CInt.int32.wrap_of_fits ⟨by omega, by omega⟩)

/-- What is stored for interval `i`. -/
theorem bucketAt_count {i : ℕ} (hi : i < nb.toNat) :
    (bucketAt .int32 .exact lowers uppers rows width (valueAt lowers 0) i).count =
      .fin ((List.range rows).map
        (shareAt lowers uppers (valueAt lowers 0 + i * width) width)).sum := by
  have hnonneg := h.nonneg
  have hfits := h.fits
  have hwidth := h.widthPos
  have hle := h.width_le
  have hsup := h.sup_le hi
  have hplain : PlainInterval .int32 lowers uppers rows width (valueAt lowers 0) i :=
    { sorted := h.sorted
      keeps := h.keepsBounds
      widthPos := hwidth
      widthKept := CInt.int32.wrap_of_fits ⟨by omega, by omega⟩
      minNonneg := hnonneg
      small := by omega }
  exact hplain.bucketAt_count_eq

/-- Some row ends at the last integer of some interval exactly if an interval ends there
at all, since the grid reaches every upper bound. -/
theorem exists_slip_iff (hwide : 1 < width) {k : ℕ} (hk : k < rows) :
    (∃ i < nb.toNat, valueAt uppers k = valueAt lowers 0 + (i : ℕ) * width + width - 1) ↔
      width ∣ valueAt uppers k - valueAt lowers 0 + 1 := by
  constructor
  · rintro ⟨i, -, heq⟩
    exact ⟨i + 1, by rw [heq]; ring⟩
  · rintro ⟨j, hj⟩
    have hlow := h.first_le hk
    have hlt := h.sorted.lt k hk
    have hup := h.upper_le hk
    have hpos : 0 < j := by
      by_contra hle
      have : width * j ≤ 0 :=
        mul_nonpos_of_nonneg_of_nonpos (by omega) (not_lt.mp hle)
      omega
    have hle : j ≤ nb := by
      by_contra hlt'
      have : width * (nb + 1) ≤ width * j :=
        mul_le_mul_of_nonneg_left (by omega) (by omega)
      have : width * (nb + 1) = nb * width + width := by ring
      omega
    refine ⟨(j - 1).toNat, by omega, ?_⟩
    have hcast : (((j - 1).toNat : ℕ) : ℤ) = j - 1 := by omega
    rw [hcast]
    linarith

end CoveringGrid

/-- The frequencies are the sums of the exact shares, and then add up to the number of
rows, exactly when the intervals hold one integer each or no row ends at the last integer
of an interval. -/
theorem countFrequencies_exact_iff {lowers uppers : List (RangeBound Datum)} {rows : ℕ}
    {nb width : ℤ} (h : CoveringGrid lowers uppers rows nb width) :
    ∃ buckets,
      countFrequencies .int32 .exact lowers uppers rows width nb (valueAt lowers 0) = .ok buckets ∧
      (buckets.map Bucket.count = (List.range nb.toNat).map (fun i : ℕ =>
            .fin (exactFrequency lowers uppers rows (valueAt lowers 0 + i * width) width)) ∧
          (buckets.map Bucket.count).foldl (· + ·) (.fin 0) = .fin rows ↔
        width = 1 ∨ ∀ k < rows, ¬ width ∣ valueAt uppers k - valueAt lowers 0 + 1) := by
  refine ⟨_, h.countFrequencies_eq, ?_⟩
  have hcounts : ((List.range nb.toNat).map
        (bucketAt .int32 .exact lowers uppers rows width (valueAt lowers 0))).map Bucket.count =
      (List.range nb.toNat).map (fun i : ℕ => .fin (exactFrequency lowers uppers rows
        (valueAt lowers 0 + i * width) width)) ↔
      ∀ i < nb.toNat, ∀ k < rows,
        ¬ (1 < width ∧ valueAt uppers k = valueAt lowers 0 + (i : ℕ) * width + width - 1) := by
    rw [List.map_map, List.map_inj_left]
    refine forall_congr' fun i => ?_
    rw [List.mem_range]
    refine imp_congr_right fun hi => ?_
    rw [Function.comp_apply, h.bucketAt_count hi, FloatQ.fin.injEq, sum_shareAt_eq_iff h.sorted]
  have hcondition : (∀ i < nb.toNat, ∀ k < rows,
        ¬ (1 < width ∧ valueAt uppers k = valueAt lowers 0 + (i : ℕ) * width + width - 1)) ↔
      (width = 1 ∨ ∀ k < rows, ¬ width ∣ valueAt uppers k - valueAt lowers 0 + 1) := by
    have hwidth := h.widthPos
    rcases hwidth.eq_or_lt with hone | hwide
    · exact iff_of_true (fun i _ k _ hslip => by omega) (Or.inl hone.symm)
    · rw [or_iff_right hwide.ne']
      constructor
      · intro hnone k hk hdvd
        obtain ⟨i, hi, heq⟩ := (h.exists_slip_iff hwide hk).mpr hdvd
        exact hnone i hi k hk ⟨hwide, heq⟩
      · rintro hnone i hi k hk ⟨-, heq⟩
        exact hnone k hk ((h.exists_slip_iff hwide hk).mp ⟨i, hi, heq⟩)
  rw [← hcondition, ← hcounts, and_iff_left_iff_imp]
  -- exact frequencies share out every row
  intro hexact
  rw [hexact, FloatQ.foldl_add_eq_fin_iff]
  refine ⟨0, (List.range nb.toNat).map fun i : ℕ =>
    exactFrequency lowers uppers rows (valueAt lowers 0 + i * width) width, rfl, by simp, ?_⟩
  have hcast : ((nb.toNat : ℕ) : ℤ) = nb := Int.toNat_of_nonneg h.nb_pos.le
  rw [zero_add]
  refine sum_exactFrequency h.sorted (by have := h.widthPos; omega) (fun k hk => h.first_le hk) ?_
  intro k hk
  rw [hcast]
  exact h.upper_le hk

/-- A grid of three intervals of two integers over the rows `[0,4)` and `[1,6)`, which end
between them. -/
theorem coveringGrid_two :
    CoveringGrid [int4Lower 0, int4Lower 1] [int4Upper 4, int4Upper 6] 2 3 2 where
  rowsPos := by decide
  sorted :=
    { lowerMono := fun i j hij hj =>
        (by decide : ∀ j < 2, ∀ i ≤ j, valueAt [int4Lower 0, int4Lower 1] i ≤
          valueAt [int4Lower 0, int4Lower 1] j) j hj i hij
      upperMono := fun i j hij hj =>
        (by decide : ∀ j < 2, ∀ i ≤ j, valueAt [int4Upper 4, int4Upper 6] i ≤
          valueAt [int4Upper 4, int4Upper 6] j) j hj i hij
      lt := by decide }
  nonneg := by decide
  widthPos := by decide
  covers := by decide
  fits := by decide

/-- The frequencies of `[0,4)` and `[1,6)` on three intervals of two integers. -/
theorem countFrequencies_exact_iff_two :
    ∃ buckets, countFrequencies .int32 .exact [int4Lower 0, int4Lower 1]
        [int4Upper 4, int4Upper 6] 2 2 3 0 = .ok buckets ∧
      buckets.map Bucket.count = (List.range 3).map (fun i : ℕ =>
          .fin (exactFrequency [int4Lower 0, int4Lower 1] [int4Upper 4, int4Upper 6] 2
            (0 + i * 2) 2)) ∧
        (buckets.map Bucket.count).foldl (· + ·) (.fin 0) = .fin 2 := by
  obtain ⟨buckets, hrun, hiff⟩ := countFrequencies_exact_iff coveringGrid_two
  exact ⟨buckets, hrun, hiff.mpr (Or.inr (by decide))⟩

/-- On the grid that is chosen for the row `[0,21)`, eleven intervals of two integers,
the last one holds the integer 20 only. The row is counted there with two of its 21
integers, and the frequencies add up to more than one row. -/
theorem countFrequencies_row_21 :
    chooseIntervals .int32 (int4Word 0) (int4Word 21) = .ok ⟨0, 21, 22, 11, 2⟩ ∧
    (countFrequencies .int32 .exact [int4Lower 0] [int4Upper 21] 1 2 11 0).map
        (fun buckets => buckets.map Bucket.count) = .ok (List.replicate 11 (.fin (2 / 21))) ∧
    exactFrequency [int4Lower 0] [int4Upper 21] 1 (0 + 10 * 2) 2 = 1 / 21 ∧
    (List.replicate 11 (FloatQ.fin (2 / 21))).foldl (· + ·) (.fin 0) = .fin (22 / 21) := by
  decide +kernel

end PgRange.Stats
