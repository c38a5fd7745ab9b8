import PgRange.Math.FirstRun
import PgRange.Stats.FrequencyCall

/-!
# What the frequency histogram stores

For a sample of finite non-negative `int4range` values that fits the statistics
target, this file computes the stored frequencies. Row `k` of the sweep consists of
the `k`-th smallest lower and the `k`-th smallest upper bound; these rows are in
general not the sampled ranges, since the two sides were sorted independently.

## Main results

* `computeRangeStats_frequencies` — each stored frequency is the sum, over the
  re-paired rows, of the fraction of the row that lies in the interval
-/

set_option autoImplicit false

namespace PgRange.Stats

open Math

/-- A sample of `int4range` values with at least two non-empty ones, all of which
have finite bounds. -/
structure FiniteSample (sample : List (Option (SampleValue ℤ))) : Prop where
  values : ∀ v, some v ∈ sample → Int4Value v.range
  finite : ∀ p ∈ nonEmptyParts sample, p.lower.infinite = false ∧ p.upper.infinite = false
  two : 2 ≤ (nonEmptyParts sample).length

namespace FiniteSample

variable {sample : List (Option (SampleValue ℤ))}

variable (h : FiniteSample sample)

include h

theorem ordered : ∀ p ∈ nonEmptyParts sample,
    (rangeCmpBounds int4range.cmp p.lower p.upper).isLE :=
  ordered_of_isValue fun v hv => (h.values v hv).value

/-- The bounds of a non-empty range of the sample are canonical and fit. -/
theorem parts_eq {p : RangeParts ℤ} (hp : p ∈ nonEmptyParts sample) :
    p.lower = ⟨p.lower.val, false, true, true⟩ ∧ p.upper = ⟨p.upper.val, false, false, false⟩ ∧
      FitsInt32 p.lower.val ∧ FitsInt32 p.upper.val := by
  have hfin := h.finite p hp
  obtain ⟨v, hv, hne, rfl⟩ := exists_of_mem_nonEmptyParts hp
  obtain ⟨hup, hlow⟩ := canonical_bounds (h.values v hv).value (h.values v hv).value rfl hne hne
    hfin.2 hfin.1
  exact ⟨hlow, hup, (h.values v hv).lower_fits, (h.values v hv).upper_fits⟩

/-- Position `k` of the sorted lower bounds holds a canonical bound that fits. -/
theorem sortedLowers_eq {k : ℕ} (hk : k < (nonEmptyParts sample).length) :
    ∃ a, (sortedLowers int4range sample).getD k default = ⟨a, false, true, true⟩ ∧ FitsInt32 a := by
  obtain ⟨p, hp, heq⟩ := exists_sortedLower int4range hk
  exact ⟨p.lower.val, heq.symm.trans (h.parts_eq hp).1, (h.parts_eq hp).2.2.1⟩

/-- Position `k` of the sorted upper bounds holds a canonical bound that fits. -/
theorem sortedUppers_eq {k : ℕ} (hk : k < (nonEmptyParts sample).length) :
    ∃ b, (sortedUppers int4range sample).getD k default = ⟨b, false, false, false⟩ ∧
      FitsInt32 b := by
  obtain ⟨p, hp, heq⟩ := exists_sortedUpper int4range hk
  exact ⟨p.upper.val, heq.symm.trans (h.parts_eq hp).2.1, (h.parts_eq hp).2.2.2⟩

/-- The value of the `k`-th smallest lower bound, as the sweep reads it. -/
theorem valueAt_lower {k : ℕ} (hk : k < (nonEmptyParts sample).length) :
    valueAt ((sortedLowers int4range sample).map (boundToWord int4Word)) k =
      ((sortedLowers int4range sample).getD k default).val := by
  obtain ⟨a, ha, hfits⟩ := h.sortedLowers_eq hk
  rw [valueAt, wordAt_map int4Word (by simpa [sortedLowers] using hk), ha, toInt_int4Word hfits]

/-- The value of the `k`-th smallest upper bound, as the sweep reads it. -/
theorem valueAt_upper {k : ℕ} (hk : k < (nonEmptyParts sample).length) :
    valueAt ((sortedUppers int4range sample).map (boundToWord int4Word)) k =
      ((sortedUppers int4range sample).getD k default).val := by
  obtain ⟨b, hb, hfits⟩ := h.sortedUppers_eq hk
  rw [valueAt, wordAt_map int4Word (by simpa [sortedUppers] using hk), hb, toInt_int4Word hfits]

/-- Sorting leaves ascending arrays whose rows are not empty. -/
theorem sortedBounds :
    SortedBounds ((sortedLowers int4range sample).map (boundToWord int4Word))
      ((sortedUppers int4range sample).map (boundToWord int4Word))
      (nonEmptyParts sample).length where
  lowerMono i j hij hj := by
    rw [h.valueAt_lower (by omega), h.valueAt_lower hj]
    have hle := sortBy_getD_isLE (rangeCmpBounds btintcmp)
      (l := (nonEmptyParts sample).map RangeParts.lower) hij (by simpa using hj) default
    obtain ⟨a, ha, -⟩ := h.sortedLowers_eq (by omega : i < _)
    obtain ⟨b, hb, -⟩ := h.sortedLowers_eq hj
    exact compareInt_isLE_iff.mp (val_isLE_of_isLE (congrArg RangeBound.infinite ha)
      (congrArg RangeBound.infinite hb) hle)
  upperMono i j hij hj := by
    rw [h.valueAt_upper (by omega), h.valueAt_upper hj]
    have hle := sortBy_getD_isLE (rangeCmpBounds btintcmp)
      (l := (nonEmptyParts sample).map RangeParts.upper) hij (by simpa using hj) default
    obtain ⟨a, ha, -⟩ := h.sortedUppers_eq (by omega : i < _)
    obtain ⟨b, hb, -⟩ := h.sortedUppers_eq hj
    exact compareInt_isLE_iff.mp (val_isLE_of_isLE (congrArg RangeBound.infinite ha)
      (congrArg RangeBound.infinite hb) hle)
  lt k hk := by
    rw [h.valueAt_lower hk, h.valueAt_upper hk]
    have hle : (rangeCmpBounds btintcmp ((sortedLowers int4range sample).getD k default)
        ((sortedUppers int4range sample).getD k default)).isLE :=
      sorted_isLE (nonEmptyParts sample) h.ordered hk
    obtain ⟨a, ha, -⟩ := h.sortedLowers_eq hk
    obtain ⟨b, hb, -⟩ := h.sortedUppers_eq hk
    rw [ha, hb] at hle ⊢
    exact canonical_isLE_iff.mp hle

theorem keepsBounds :
    KeepsBounds .int32 ((sortedLowers int4range sample).map (boundToWord int4Word))
      ((sortedUppers int4range sample).map (boundToWord int4Word))
      (nonEmptyParts sample).length where
  lower k hk := by
    obtain ⟨a, ha, hfits⟩ := h.sortedLowers_eq hk
    rw [h.valueAt_lower hk, ha]
    exact CInt.int32.wrap_of_fits hfits
  upper k hk := by
    obtain ⟨b, hb, hfits⟩ := h.sortedUppers_eq hk
    rw [h.valueAt_upper hk, hb]
    exact CInt.int32.wrap_of_fits hfits

/-- The smallest lower bound is below the greatest upper bound. -/
theorem readMin_lt_readMax : readMin sample < readMax sample := by
  have hn := h.two
  have hsorted := h.sortedBounds
  have hlt := hsorted.lt 0 (by omega)
  have hle := hsorted.upperMono 0 ((nonEmptyParts sample).length - 1) (by omega) (by omega)
  rw [h.valueAt_lower (by omega), sortedLowers_first hn] at hlt
  rw [h.valueAt_upper (by omega : (nonEmptyParts sample).length - 1 < _),
    sortedUppers_last hn] at hle
  exact lt_of_lt_of_le hlt hle

/-- The grid that is chosen for the sample, if the length of its span fits. -/
theorem chooseIntervals_eq (hlength : readMax sample - readMin sample ≤ 2147483646) :
    chooseIntervals .int32 (int4Word (readMin sample)) (int4Word (readMax sample)) =
      .ok (.ofSpan (readMin sample) (readMax sample)) := by
  have hmin := readMin_fits h.values h.two
  have hmax := readMax_fits h.values h.two
  have hlt := h.readMin_lt_readMax
  have hrun := Stats.chooseIntervals_eq .int32 (int4Word (readMin sample))
    (int4Word (readMax sample))
  rw [toInt_int4Word hmin, toInt_int4Word hmax] at hrun
  exact hrun hlt.le (CInt.int32.wrap_of_fits hmin) (CInt.int32.wrap_of_fits hmax)
    (CInt.int32.wrap_of_fits ⟨by omega, by omega⟩)

theorem width_fits (hlength : readMax sample - readMin sample ≤ 2147483646) :
    FitsInt32 (intervalWidth (readMax sample - readMin sample + 1)) := by
  have hlt := h.readMin_lt_readMax
  obtain ⟨htile, hle⟩ := interval_tiling
    (by omega : 1 ≤ readMax sample - readMin sample + 1)
  have hpos := htile.widthPos
  rw [weightedDivider, Int.tdiv_eq_ediv_of_nonneg (by omega)] at hle
  exact ⟨by omega, by omega⟩

end FiniteSample

/-! ### No down-sampling -/

section Few

variable {α : Type} [Inhabited α] {target : StatTarget} {sample : List (Option (SampleValue α))}

/-- A sample within the target is read at every position. -/
theorem callPositions_of_le (htwo : 2 ≤ (nonEmptyParts sample).length)
    (hfew : (nonEmptyParts sample).length ≤ target.attstattarget) :
    callPositions target sample = List.range (nonEmptyParts sample).length := by
  have hnum : numHist (nonEmptyParts sample).length target.attstattarget =
      (nonEmptyParts sample).length := if_neg (by omega)
  rw [callPositions, hnum, evenPositions_eq htwo]
  have hid : ∀ i ∈ List.range (nonEmptyParts sample).length,
      i * ((nonEmptyParts sample).length - 1) / ((nonEmptyParts sample).length - 1) = id i :=
    fun i _ => Nat.mul_div_cancel i (by omega)
  rw [List.map_congr_left hid, List.map_id]

theorem callLowers_of_le (typcache : TypeCacheEntry α)
    (htwo : 2 ≤ (nonEmptyParts sample).length)
    (hfew : (nonEmptyParts sample).length ≤ target.attstattarget) :
    callLowers typcache target sample = sortedLowers typcache sample := by
  have hlen : (sortedLowers typcache sample).length = (nonEmptyParts sample).length := by
    simp [sortedLowers]
  rw [callLowers, callPositions_of_le htwo hfew, ← hlen, map_getD_range]

theorem callUppers_of_le (typcache : TypeCacheEntry α)
    (htwo : 2 ≤ (nonEmptyParts sample).length)
    (hfew : (nonEmptyParts sample).length ≤ target.attstattarget) :
    callUppers typcache target sample = sortedUppers typcache sample := by
  have hlen : (sortedUppers typcache sample).length = (nonEmptyParts sample).length := by
    simp [sortedUppers]
  rw [callUppers, callPositions_of_le htwo hfew, ← hlen, map_getD_range]

end Few

/-! ### The stored frequencies -/

/-- The fraction of the row from `a` to `b` that lies among the `width` integers
from `first` on. -/
def rowShare (first width : ℤ) (a b : RangeBound ℤ) : ℚ :=
  (overlapCard a.val b.val first width : ℚ) / ((b.val - a.val : ℤ) : ℚ)

/-- A row that does not end at the last integer of the interval is counted right. -/
theorem shareAt_eq_rowShare {sample : List (Option (SampleValue ℤ))} (h : FiniteSample sample)
    {first width : ℤ} {k : ℕ} (hk : k < (nonEmptyParts sample).length)
    (hlast : 1 < width → ((sortedUppers int4range sample).getD k default).val ≠
      first + width - 1) :
    shareAt ((sortedLowers int4range sample).map (boundToWord int4Word))
        ((sortedUppers int4range sample).map (boundToWord int4Word)) first width k =
      rowShare first width ((sortedLowers int4range sample).getD k default)
        ((sortedUppers int4range sample).getD k default) := by
  rw [shareAt, rowShare, h.valueAt_lower hk, h.valueAt_upper hk, countedCard,
    if_neg fun hslip => hlast hslip.1 hslip.2]
  simp

theorem map_range_eq_zipWith {β γ : Type} (f : β → β → γ) {g : ℕ → γ} {l l' : List β} {n : ℕ}
    (d : β) (hl : l.length = n) (hl' : l'.length = n)
    (hg : ∀ k < n, g k = f (l.getD k d) (l'.getD k d)) :
    (List.range n).map g = List.zipWith f l l' := by
  refine List.ext_getElem (by simp [hl, hl']) fun k h1 h2 => ?_
  have hk : k < n := by simpa using h1
  rw [List.getElem_map, List.getElem_range, hg k hk, List.getD_eq_getElem _ _ (by omega),
    List.getD_eq_getElem _ _ (by omega), List.getElem_zipWith]

namespace FiniteSample

variable {sample : List (Option (SampleValue ℤ))} (h : FiniteSample sample)

include h

theorem tiling : Tiling (readMax sample - readMin sample + 1)
    (intervalCount (readMax sample - readMin sample + 1))
    (intervalWidth (readMax sample - readMin sample + 1)) := by
  have hlt := h.readMin_lt_readMax
  exact (interval_tiling (by omega)).1

/-- The buckets of the sample, if the last integer of its grid fits. -/
theorem countFrequencies_eq
    (hend : readMin sample - 1 + intervalCount (readMax sample - readMin sample + 1) *
      intervalWidth (readMax sample - readMin sample + 1) ≤ 2147483647) :
    countFrequencies .int32 .exact ((sortedLowers int4range sample).map (boundToWord int4Word))
        ((sortedUppers int4range sample).map (boundToWord int4Word))
        (nonEmptyParts sample).length (intervalWidth (readMax sample - readMin sample + 1))
        (intervalCount (readMax sample - readMin sample + 1)) (readMin sample) =
      .ok ((List.range (intervalCount (readMax sample - readMin sample + 1)).toNat).map
        (bucketAt .int32 .exact ((sortedLowers int4range sample).map (boundToWord int4Word))
          ((sortedUppers int4range sample).map (boundToWord int4Word))
          (nonEmptyParts sample).length (intervalWidth (readMax sample - readMin sample + 1))
          (readMin sample))) := by
  have hmin := readMin_fits h.values h.two
  have hcover := h.tiling.covers
  have hlt := h.readMin_lt_readMax
  refine Stats.countFrequencies_eq _ _ h.sortedBounds.toAscendingBounds h.keepsBounds
    h.tiling.widthPos (CInt.int32.wrap_of_fits hmin) (fun k hk => ?_) h.tiling.countPos.le
    (CInt.int32.wrap_of_fits ⟨?_, hend⟩)
  · have hle := h.sortedBounds.lowerMono 0 k (Nat.zero_le k) hk
    rwa [h.valueAt_lower (by omega), sortedLowers_first h.two] at hle
  · have := hmin.1
    omega

/-- For bounds that are not negative, the count of a bucket is the sum of the shares of
the rows, unless a row ends at the last integer of the interval. -/
theorem bucketAt_count (hnonneg : 0 ≤ readMin sample)
    (hlength : readMax sample - readMin sample ≤ 2147483646) {width : ℤ}
    (hwidth : width = intervalWidth (readMax sample - readMin sample + 1)) {i : ℕ}
    (hsmall : supBefore width (readMin sample) (i + 1) ≤ 2147483647)
    (hlast : 1 < width → ∀ p ∈ nonEmptyParts sample,
      p.upper.val ≠ readMin sample + i * width + width - 1) :
    (bucketAt .int32 .exact ((sortedLowers int4range sample).map (boundToWord int4Word))
        ((sortedUppers int4range sample).map (boundToWord int4Word))
        (nonEmptyParts sample).length width (readMin sample) i).count =
      .fin (List.zipWith (rowShare (readMin sample + i * width) width)
        (sortedLowers int4range sample) (sortedUppers int4range sample)).sum := by
  subst hwidth
  have hplain : PlainInterval .int32
      ((sortedLowers int4range sample).map (boundToWord int4Word))
      ((sortedUppers int4range sample).map (boundToWord int4Word))
      (nonEmptyParts sample).length (intervalWidth (readMax sample - readMin sample + 1))
      (readMin sample) i :=
    { sorted := h.sortedBounds
      keeps := h.keepsBounds
      widthPos := h.tiling.widthPos
      widthKept := CInt.int32.wrap_of_fits (h.width_fits hlength)
      minNonneg := hnonneg
      small := by omega }
  rw [hplain.bucketAt_count_eq]
  refine congrArg (fun l : List ℚ => FloatQ.fin l.sum) ?_
  refine map_range_eq_zipWith _ default (by simp [sortedLowers]) (by simp [sortedUppers])
    fun k hk => shareAt_eq_rowShare h hk fun hwide => ?_
  obtain ⟨p, hp, heq⟩ := exists_sortedUpper int4range hk
  rw [← heq]
  exact hlast hwide p hp

end FiniteSample

/-- Each stored frequency is the sum, over the rows that independent sorting makes
of the sampled bounds, of the fraction of the row that lies in the interval. -/
theorem computeRangeStats_frequencies (target : StatTarget)
    (sample : List (Option (SampleValue ℤ))) (h : FiniteSample sample)
    (hfew : (nonEmptyParts sample).length ≤ target.attstattarget)
    (hnonneg : 0 ≤ readMin sample) (grid : Grid)
    (hgrid : chooseIntervals .int32 (int4Word (readMin sample)) (int4Word (readMax sample)) =
      .ok grid)
    (hlength : readMax sample - readMin sample ≤ 2147483646)
    (hend : grid.min - 1 + grid.nbOfIntervals * grid.intervalLength ≤ 2147483647)
    (hlast : 1 < grid.intervalLength → ∀ p ∈ nonEmptyParts sample,
      ∀ i : ℕ, i < grid.nbOfIntervals →
        p.upper.val ≠ grid.min + i * grid.intervalLength + grid.intervalLength - 1) :
    ∃ stats slots,
      computeRangeStats .int32 .exact int4Word int4range target sample = .ok (some stats) ∧
      stats.slots = some slots ∧ slots.frequencies.numvalues = grid.nbOfIntervals ∧
      slots.frequencies.stavalues = (List.range grid.nbOfIntervals.toNat).map fun i =>
        .fin (List.zipWith (rowShare (grid.min + i * grid.intervalLength) grid.intervalLength)
          (sortedLowers int4range sample) (sortedUppers int4range sample)).sum := by
  obtain ⟨call, hcall, hrun⟩ := frequencyCall_run target
    (TypeCacheEntry.Indexable.transCmp .int4range) h.ordered h.two
  have hnum : numHist (nonEmptyParts sample).length target.attstattarget =
      (nonEmptyParts sample).length := if_neg (by omega)
  specialize hrun .int32 .exact int4Word
  rw [sortedLowers_first h.two, sortedUppers_last h.two, callLowers_of_le _ h.two hfew,
    callUppers_of_le _ h.two hfew, hnum, hgrid] at hrun
  rw [h.chooseIntervals_eq hlength] at hgrid
  obtain rfl := Except.ok.inj hgrid
  -- the sweep over the sorted arrays ends with one bucket for each interval
  have hbuckets := congrArg (Except.map (Prod.mk (Grid.ofSpan (readMin sample) (readMax sample))))
    (h.countFrequencies_eq hend)
  obtain ⟨stats, slots, hstats, hslots, -, hfreq⟩ :=
    computeRangeStats_of_run hcall (hrun.trans hbuckets)
  refine ⟨stats, slots, hstats, hslots, by rw [hfreq], ?_⟩
  rw [hfreq, List.map_map]
  refine List.map_congr_left fun i hi => ?_
  have hi' : i < (intervalCount (readMax sample - readMin sample + 1)).toNat :=
    List.mem_range.mp hi
  have hlt : (i : ℤ) < intervalCount (readMax sample - readMin sample + 1) := by omega
  refine h.bucketAt_count hnonneg hlength rfl ?_ fun hwide p hp => hlast hwide p hp i hlt
  have hle : ((i + 1 : ℕ) : ℤ) * intervalWidth (readMax sample - readMin sample + 1) ≤
      intervalCount (readMax sample - readMin sample + 1) *
        intervalWidth (readMax sample - readMin sample + 1) :=
    mul_le_mul_of_nonneg_right (by omega) h.tiling.widthPos.le
  change readMin sample - 1 + intervalCount (readMax sample - readMin sample + 1) *
    intervalWidth (readMax sample - readMin sample + 1) ≤ 2147483647 at hend
  unfold supBefore
  omega

/-- The ranges `[0,10)` and `[2,4)`, one inside the other. -/
def nestedSample : List (Option (SampleValue ℤ)) :=
  [some ⟨17, packRange ⟨0, false, true, true⟩ ⟨10, false, false, false⟩⟩,
    some ⟨17, packRange ⟨2, false, true, true⟩ ⟨4, false, false, false⟩⟩]

/-- Sorting the bounds of `[0,10)` and `[2,4)` makes the rows `[0,4)` and `[2,10)`:
the frequency of the first integer is a quarter, though only a tenth of the one
range that contains it lies there. -/
theorem nestedSample_frequency :
    2 ≤ (nonEmptyParts nestedSample).length ∧
    (nonEmptyParts nestedSample).length ≤ defaultTarget.attstattarget ∧
    chooseIntervals .int32 (int4Word (readMin nestedSample)) (int4Word (readMax nestedSample)) =
      .ok ⟨0, 10, 11, 11, 1⟩ ∧
    (computeRangeStats .int32 .exact int4Word int4range defaultTarget nestedSample).map
      (fun r => r.bind fun stats => stats.slots.map fun s => s.frequencies.stavalues.head?) =
        .ok (some (some (.fin (1 / 4)))) ∧
    ((nonEmptyParts nestedSample).map fun p => rowShare 0 1 p.lower p.upper).sum = 1 / 10 := by
  refine ⟨by decide, by decide, by decide +kernel, by decide +kernel, by decide +kernel⟩

/-- The ranges `[0,30)` and `[10,45)`. -/
def crossingSample : List (Option (SampleValue ℤ)) :=
  [some ⟨17, packRange ⟨0, false, true, true⟩ ⟨30, false, false, false⟩⟩, none,
    some ⟨17, packRange ⟨10, false, true, true⟩ ⟨45, false, false, false⟩⟩]

theorem finiteSample_crossingSample : FiniteSample crossingSample where
  values v hv := by
    simp only [crossingSample, List.mem_cons, Option.some.injEq, List.not_mem_nil, or_false,
      reduceCtorEq, false_or] at hv
    rcases hv with rfl | rfl
    · exact ⟨⟨by constructor <;> decide, by decide, by decide⟩, by decide, by decide⟩
    · exact ⟨⟨by constructor <;> decide, by decide, by decide⟩, by decide, by decide⟩
  finite := by decide
  two := by decide

/-- The stored frequencies of `[0,30)` and `[10,45)`, on sixteen intervals of three. -/
theorem computeRangeStats_frequencies_crossingSample :
    ∃ stats slots,
      computeRangeStats .int32 .exact int4Word int4range defaultTarget crossingSample =
        .ok (some stats) ∧
      stats.slots = some slots ∧ slots.frequencies.numvalues = 16 ∧
      slots.frequencies.stavalues = (List.range 16).map fun i =>
        .fin (List.zipWith (rowShare (0 + i * 3) 3) (sortedLowers int4range crossingSample)
          (sortedUppers int4range crossingSample)).sum := by
  refine computeRangeStats_frequencies defaultTarget crossingSample finiteSample_crossingSample
    (by decide) (by decide) ⟨0, 45, 46, 16, 3⟩ (by decide +kernel) (by decide) (by decide)
    fun _ p hp i _ => ?_
  have hval : p.upper.val = 30 ∨ p.upper.val = 45 := by
    revert p
    decide
  dsimp only
  omega

end PgRange.Stats
