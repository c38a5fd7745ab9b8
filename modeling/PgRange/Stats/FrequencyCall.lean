import PgRange.Stats.ComputeRangeStats

/-!
# When the frequency histogram can be computed

`compute_range_stats` calls `ComputeFrequencyHistogram` for every column with a
value. Two things can go wrong there. The arrays are filled only if the sample
has two non-empty ranges. And the grid is laid over the values of the first
lower and the last upper bound, where an infinite bound reads as zero.

## Main results

* `frequencyCall_filled_iff` — the call finds filled arrays exactly when the
  sample has two non-empty ranges
* `frequencyCall_grid_iff` — for `int4range` the grid is one exactly when the
  value read as the minimum is not above the value read as the maximum, and they
  are less than the `int` range apart
-/

set_option autoImplicit false

namespace PgRange.Stats

open Math

variable {α : Type} [Inhabited α]

/-! ### Filled arrays -/

/-- The call has a row, and both arrays hold an element for every row. -/
def FrequencyCall.Filled (call : FrequencyCall α) : Prop :=
  1 ≤ call.rows ∧ ∃ lowers uppers, call.lowers = some lowers ∧ call.uppers = some uppers ∧
    lowers.length = call.rows ∧ uppers.length = call.rows

theorem length_histogramPositions (delta deltafrac denom m pos posfrac : ℕ) :
    (histogramPositions delta deltafrac denom m pos posfrac).length = m := by
  induction m generalizing pos posfrac with
  | zero => rfl
  | succ m ih =>
    rw [histogramPositions, List.length_cons]
    split_ifs
    · rw [ih]
    · rw [ih]

theorem boundsHistogram_length {typcache : TypeCacheEntry α} {lowers uppers : List (RangeBound α)}
    {bins : ℕ} {hist : BoundsHistogram α}
    (h : boundsHistogram typcache lowers uppers bins = .ok hist) :
    hist.tempLowers.length = numHist lowers.length bins ∧
      hist.tempUppers.length = numHist lowers.length bins := by
  cases hvalues : (evenPositions (sortBy (rangeCmpBounds typcache.cmp) lowers).length
      (numHist (sortBy (rangeCmpBounds typcache.cmp) lowers).length bins)).mapM fun pos =>
        rangeSerialize typcache.cmp
          ((sortBy (rangeCmpBounds typcache.cmp) lowers).getD pos default)
          ((sortBy (rangeCmpBounds typcache.cmp) uppers).getD pos default) false with
  | error e =>
    simp only [boundsHistogram, hvalues] at h
    cases h
  | ok values =>
    rw [boundsHistogram_eq rfl rfl rfl hvalues] at h
    cases h
    simp [evenPositions, length_histogramPositions]

theorem readBound_eq (bounds : List (RangeBound Datum)) {k : ℤ} (h0 : 0 ≤ k)
    (hk : k < bounds.length) : readBound bounds k = .ok (bounds.getD k.toNat default) := by
  have hlt : k.toNat < bounds.length := by omega
  simp [readBound, not_lt.mpr h0, List.getElem?_eq_getElem hlt]

/-- The word of a bound, whether it is taken before or after reading the array. -/
theorem wordAt_map (word : α → Datum) {bounds : List (RangeBound α)} {k : ℕ}
    (hk : k < bounds.length) :
    wordAt (bounds.map (boundToWord word)) k = word (bounds.getD k default).val := by
  unfold wordAt
  rw [List.getD_eq_getElem _ _ (by simpa using hk), List.getD_eq_getElem _ _ hk, List.getElem_map]
  rfl

/-- On allocated arrays: a grid over the first lower and the last upper bound, then the
sweep. -/
theorem computeFrequencyHistogram_eq (A : CInt) (R : CFloat)
    {lowers uppers : List (RangeBound Datum)} {rows : ℕ}
    (hfirst : 0 < lowers.length) (hrows : 1 ≤ rows) (hlast : rows ≤ uppers.length) :
    computeFrequencyHistogram A R (some lowers) (some uppers) rows =
      (chooseIntervals A (wordAt lowers 0) (wordAt uppers (rows - 1))).bind fun grid =>
      (countFrequencies A R lowers uppers rows grid.intervalLength grid.nbOfIntervals
        grid.min).map fun buckets => (grid, buckets) := by
  have hread0 := readBound_eq lowers (k := 0) (le_refl 0) (by omega)
  have hread1 := readBound_eq uppers (k := rows - 1) (by omega) (by omega)
  have hindex : ((rows : ℤ) - 1).toNat = rows - 1 := by omega
  simp only [computeFrequencyHistogram, hread0, hread1, hindex]
  rfl

theorem FrequencyCall.run_eq (A : CInt) (R : CFloat) (word : α → Datum) {call : FrequencyCall α}
    {lowers uppers : List (RangeBound α)} (hl : call.lowers = some lowers)
    (hu : call.uppers = some uppers) (hfirst : 0 < lowers.length) (hrows : 1 ≤ call.rows)
    (hlast : call.rows ≤ uppers.length) :
    call.run A R word =
      (chooseIntervals A (word (lowers.getD 0 default).val)
        (word (uppers.getD (call.rows - 1) default).val)).bind fun grid =>
      (countFrequencies A R (lowers.map (boundToWord word)) (uppers.map (boundToWord word))
        call.rows grid.intervalLength grid.nbOfIntervals grid.min).map fun buckets =>
          (grid, buckets) := by
  rw [FrequencyCall.run, hl, hu, Option.map_some, Option.map_some,
    computeFrequencyHistogram_eq A R (by rwa [List.length_map]) hrows (by rwa [List.length_map]),
    wordAt_map word hfirst, wordAt_map word (by omega : call.rows - 1 < uppers.length)]

theorem roundUpDivision_ne_uninitializedRead (A : CInt) (n d : ℤ) :
    roundUpDivision A n d ≠ .error .uninitializedRead := by
  unfold roundUpDivision
  dsimp only
  split_ifs <;> simp

theorem chooseIntervals_ne_uninitializedRead (A : CInt) (firstLower lastUpper : Datum) :
    chooseIntervals A firstLower lastUpper ≠ .error .uninitializedRead := by
  rw [chooseIntervals_eq_bind]
  generalize spanLength A firstLower lastUpper = length
  have hcount := roundUpDivision_ne_uninitializedRead A length (weightedDivider length)
  cases hnb : roundUpDivision A length (weightedDivider length) with
  | error e =>
    rw [hnb] at hcount
    simpa [Except.bind] using hcount
  | ok nb =>
    have hwidth := roundUpDivision_ne_uninitializedRead A length nb
    cases hL : roundUpDivision A length nb with
    | error e =>
      rw [hL] at hwidth
      simpa [Except.bind, Except.map, hL] using hwidth
    | ok width => simp [Except.bind, Except.map, hL]

/-- On filled arrays nothing is read that was not written. -/
theorem FrequencyCall.Filled.run_ne_uninitializedRead {call : FrequencyCall α} (h : call.Filled)
    (A : CInt) (R : CFloat) (word : α → Datum) : call.run A R word ≠ .error .uninitializedRead := by
  obtain ⟨hrows, lowers, uppers, hl, hu, hll, hul⟩ := h
  rw [call.run_eq A R word hl hu (by omega) hrows (by omega)]
  generalize hgrid : chooseIntervals A _ _ = grid
  have hne := chooseIntervals_ne_uninitializedRead A (word (lowers.getD 0 default).val)
    (word (uppers.getD (call.rows - 1) default).val)
  rw [hgrid] at hne
  cases grid with
  | error e => simpa [Except.bind] using hne
  | ok grid =>
    obtain ⟨buckets, hbuckets, -⟩ := countFrequencies_total A R (lowers.map (boundToWord word))
      (uppers.map (boundToWord word)) call.rows grid.intervalLength grid.nbOfIntervals grid.min
    simp [Except.bind, Except.map, hbuckets]

/-- With fewer than two non-empty ranges the pointers are never assigned; the call is
made all the same if there is a value. -/
theorem frequencyCall_of_few (typcache : TypeCacheEntry α) (target : StatTarget)
    {sample : List (Option (SampleValue α))} (hfew : ¬ 2 ≤ (nonEmptyParts sample).length) :
    frequencyCall typcache target sample =
      .ok (if 0 < (sample.filterMap id).length then some (⟨none, none, 0⟩, none) else none) := by
  simp only [frequencyCall, scanSample_nonNullCnt, scanSample_nonEmptyCnt, gt_iff_lt, ge_iff_le,
    hfew, ↓reduceIte]
  split_ifs <;> rfl

/-- With two non-empty ranges a call finds the arrays filled. -/
theorem frequencyCall_filled {typcache : TypeCacheEntry α} {target : StatTarget}
    {sample : List (Option (SampleValue α))} (htwo : 2 ≤ (nonEmptyParts sample).length)
    {call : FrequencyCall α} {bounds : Option (List (RangeType α))}
    (hcall : frequencyCall typcache target sample = .ok (some (call, bounds))) :
    call.Filled := by
  unfold frequencyCall at hcall
  simp only [scanSample_nonEmptyCnt, ge_iff_le, htwo, ↓reduceIte] at hcall
  split_ifs at hcall
  · cases hhist : boundsHistogram typcache (scanSample typcache sample).lowers
        (scanSample typcache sample).uppers target.attstattarget with
    | error e =>
      rw [hhist] at hcall
      cases hcall
    | ok hist =>
      rw [hhist] at hcall
      cases hcall
      have hlength := boundsHistogram_length hhist
      rw [scanSample_lowers, List.length_map] at hlength
      have := two_le_numHist htwo target
      exact ⟨by dsimp only; omega, _, _, rfl, rfl, hlength.1, hlength.2⟩
  · cases hcall

/-- The call to `ComputeFrequencyHistogram` finds filled arrays, and reads nothing
that was not written, exactly when the sample has two non-empty ranges. -/
theorem frequencyCall_filled_iff (typcache : TypeCacheEntry α) (target : StatTarget)
    (sample : List (Option (SampleValue α))) (hvalue : 1 ≤ (sample.filterMap id).length) :
    (∀ call bounds, frequencyCall typcache target sample = .ok (some (call, bounds)) →
      call.Filled ∧ ∀ A R word, call.run A R word ≠ .error .uninitializedRead) ↔
    2 ≤ (nonEmptyParts sample).length := by
  have hnonNull : 0 < (sample.filterMap id).length := hvalue
  constructor
  · intro hfilled
    by_contra hfew
    -- too few ranges: the call is reached with the pointers never assigned
    have hcall : frequencyCall typcache target sample = .ok (some (⟨none, none, 0⟩, none)) := by
      rw [frequencyCall_of_few typcache target hfew, if_pos hnonNull]
    obtain ⟨⟨hrows, -⟩, -⟩ := hfilled _ _ hcall
    exact absurd hrows (by simp)
  · intro htwo call bounds hcall
    have hfilled := frequencyCall_filled htwo hcall
    exact ⟨hfilled, fun A R word => hfilled.run_ne_uninitializedRead A R word⟩

/-- The default of `default_statistics_target`. -/
def defaultTarget : StatTarget := ⟨100, by decide, by decide⟩

/-- A column that holds one empty range. -/
theorem frequencyCall_one_empty :
    1 ≤ (([some ⟨9, emptyRange⟩] : List (Option (SampleValue ℤ))).filterMap id).length ∧
    ∃ call bounds, frequencyCall int4range defaultTarget [some ⟨9, emptyRange⟩] =
        .ok (some (call, bounds)) ∧
      ¬ call.Filled ∧ call.run .int32 .float4 int4Word = .error .uninitializedRead := by
  refine ⟨by decide, ⟨none, none, 0⟩, none, rfl, ?_, rfl⟩
  rintro ⟨hrows, -⟩
  exact absurd hrows (by decide)

/-- The ranges `[1,5)` and `[3,9)`, with a null between them. -/
def overlappingSample : List (Option (SampleValue ℤ)) :=
  [some ⟨17, packRange ⟨1, false, true, true⟩ ⟨5, false, false, false⟩⟩, none,
    some ⟨17, packRange ⟨3, false, true, true⟩ ⟨9, false, false, false⟩⟩]

/-- A column that holds `[1,5)` and `[3,9)`. -/
theorem frequencyCall_filled_iff_two :
    1 ≤ (overlappingSample.filterMap id).length ∧
    ∀ call bounds, frequencyCall int4range defaultTarget overlappingSample =
        .ok (some (call, bounds)) →
      call.Filled ∧ ∀ A R word, call.run A R word ≠ .error .uninitializedRead :=
  ⟨by decide, (frequencyCall_filled_iff int4range defaultTarget overlappingSample
    (by decide)).mpr (by decide)⟩

/-! ### The grid of a column -/

section Grid

variable {typcache : TypeCacheEntry α} (target : StatTarget)
  {sample : List (Option (SampleValue α))}

theorem length_callPositions (htwo : 2 ≤ (nonEmptyParts sample).length) :
    (callPositions target sample).length =
      numHist (nonEmptyParts sample).length target.attstattarget := by
  rw [callPositions, evenPositions_eq (two_le_numHist htwo target), List.length_map,
    List.length_range]

/-- The first position is that of the first value. -/
theorem callPositions_first (htwo : 2 ≤ (nonEmptyParts sample).length) :
    (callPositions target sample).getD 0 0 = 0 := by
  have hm := two_le_numHist htwo target
  rw [callPositions, evenPositions_eq hm, List.getD_eq_getElem _ _ (by simp; omega)]
  simp

/-- The last position is that of the last value. -/
theorem callPositions_last (htwo : 2 ≤ (nonEmptyParts sample).length) :
    (callPositions target sample).getD
      (numHist (nonEmptyParts sample).length target.attstattarget - 1) 0 =
        (nonEmptyParts sample).length - 1 := by
  have hm := two_le_numHist htwo target
  rw [callPositions, evenPositions_eq hm, List.getD_eq_getElem _ _ (by simp; omega)]
  simp only [List.getElem_map, List.getElem_range]
  exact Nat.mul_div_cancel_left _ (by omega)

theorem getD_map_getD {β : Type} {f : ℕ → β} {l : List ℕ} {k : ℕ} {d : β} (hk : k < l.length) :
    (l.map f).getD k d = f (l.getD k 0) := by
  rw [List.getD_eq_getElem _ _ (by simpa using hk), List.getD_eq_getElem _ _ hk, List.getElem_map]

/-- The sweep always ends, so the call ends normally whenever a grid is chosen. -/
theorem exists_buckets_iff (A : CInt) (R : CFloat) (lowers uppers : List (RangeBound Datum))
    (rows : ℕ) (chosen : Except Fault Grid) (grid : Grid) :
    (∃ buckets, (chosen.bind fun grid =>
      (countFrequencies A R lowers uppers rows grid.intervalLength grid.nbOfIntervals
        grid.min).map fun buckets => (grid, buckets)) = .ok (grid, buckets)) ↔
    chosen = .ok grid := by
  cases chosen with
  | error e => simp [Except.bind]
  | ok grid' =>
    obtain ⟨buckets, hbuckets, -⟩ := countFrequencies_total A R lowers uppers rows
      grid'.intervalLength grid'.nbOfIntervals grid'.min
    simp only [Except.bind, hbuckets, Except.map, Except.ok.injEq, Prod.mk.injEq]
    exact ⟨fun ⟨_, h, _⟩ => h, fun h => ⟨buckets, h, rfl⟩⟩

/-- The call with two non-empty ranges: the grid lies over the smallest lower and
the greatest upper bound of the whole sample. -/
theorem frequencyCall_run (htrans : Std.TransCmp typcache.cmp)
    (hordered : ∀ p ∈ nonEmptyParts sample,
      (rangeCmpBounds typcache.cmp p.lower p.upper).isLE)
    (htwo : 2 ≤ (nonEmptyParts sample).length) :
    ∃ call, frequencyCall typcache target sample =
        .ok (some (call, some (callBounds typcache target sample))) ∧
      ∀ A R word, call.run A R word =
        (chooseIntervals A (word ((sortedLowers typcache sample).getD 0 default).val)
          (word ((sortedUppers typcache sample).getD
            ((nonEmptyParts sample).length - 1) default).val)).bind fun grid =>
        (countFrequencies A R ((callLowers typcache target sample).map (boundToWord word))
          ((callUppers typcache target sample).map (boundToWord word))
          (numHist (nonEmptyParts sample).length target.attstattarget)
          grid.intervalLength grid.nbOfIntervals grid.min).map fun buckets =>
            (grid, buckets) := by
  refine ⟨_, frequencyCall_eq typcache htrans target sample hordered htwo, fun A R word => ?_⟩
  have hm := two_le_numHist htwo target
  have hlen := length_callPositions target htwo
  rw [FrequencyCall.run_eq A R word rfl rfl (by simp [callLowers, hlen]; omega)
    (by dsimp only; omega) (by simp [callUppers, hlen])]
  have hfirst : (callLowers typcache target sample).getD 0 default =
      (sortedLowers typcache sample).getD 0 default := by
    rw [callLowers, getD_map_getD (by omega), callPositions_first target htwo]
  have hlast : (callUppers typcache target sample).getD
        (numHist (nonEmptyParts sample).length target.attstattarget - 1) default =
      (sortedUppers typcache sample).getD ((nonEmptyParts sample).length - 1) default := by
    rw [callUppers, getD_map_getD (by omega), callPositions_last target htwo]
  rw [hfirst, hlast]

end Grid

/-! ### The grid of an `int4range` column -/

/-- A value of type `int4range`. -/
structure Int4Value (r : RangeType ℤ) : Prop where
  value : int4range.IsValue r
  lboundFits : FitsInt32 r.lbound
  uboundFits : FitsInt32 r.ubound

namespace Int4Value

variable {r : RangeType ℤ} (h : Int4Value r)

include h

/-- An absent bound reads as zero. -/
theorem lower_fits : FitsInt32 (rangeDeserialize r).lower.val := by
  simp only [rangeDeserialize]
  split_ifs
  · exact h.lboundFits
  · exact (by decide : FitsInt32 0)

theorem upper_fits : FitsInt32 (rangeDeserialize r).upper.val := by
  simp only [rangeDeserialize]
  split_ifs
  · exact h.uboundFits
  · exact (by decide : FitsInt32 0)

end Int4Value

/-- What the code reads as the minimum of a column: zero if a lower bound is
infinite, else the smallest lower bound. -/
def readMin (sample : List (Option (SampleValue ℤ))) : ℤ :=
  let lowers := (nonEmptyParts sample).map RangeParts.lower
  if lowers.any RangeBound.infinite then 0 else (lowers.map RangeBound.val).min?.getD 0

/-- What the code reads as the maximum of a column: zero if an upper bound is
infinite, else the greatest upper bound. -/
def readMax (sample : List (Option (SampleValue ℤ))) : ℤ :=
  let uppers := (nonEmptyParts sample).map RangeParts.upper
  if uppers.any RangeBound.infinite then 0 else (uppers.map RangeBound.val).max?.getD 0

section Int4

variable {sample : List (Option (SampleValue ℤ))}

/-- The smallest lower bound carries the value read as the minimum. -/
theorem sortedLowers_first (htwo : 2 ≤ (nonEmptyParts sample).length) :
    ((sortedLowers int4range sample).getD 0 default).val = readMin sample := by
  obtain ⟨hmem, hle⟩ := sortBy_first_isLE (rangeCmpBounds btintcmp)
    (l := (nonEmptyParts sample).map RangeParts.lower) (by simp; omega) default
  change ((sortBy (rangeCmpBounds btintcmp) _).getD 0 default).val = _
  generalize (sortBy (rangeCmpBounds btintcmp) _).getD 0 default = b at hmem hle ⊢
  obtain ⟨p, hp, rfl⟩ := List.mem_map.mp hmem
  obtain ⟨v, -, -, rfl⟩ := exists_of_mem_nonEmptyParts hp
  unfold readMin
  dsimp only
  split_ifs with hany
  · -- an infinite lower bound sorts first, and carries the zero word
    obtain ⟨c, hc, hinf⟩ := List.any_eq_true.mp hany
    obtain ⟨q, hq, rfl⟩ := List.mem_map.mp hc
    obtain ⟨w, -, -, rfl⟩ := exists_of_mem_nonEmptyParts hq
    have hbinf : v.range.flags.lbInf = true := infinite_of_isLE_lower rfl hinf (hle _ hc)
    simp [rangeDeserialize, RangeFlags.hasLbound, hbinf]
  · have hfin : ∀ c ∈ (nonEmptyParts sample).map RangeParts.lower, c.infinite = false := by
      simpa using hany
    have hmin : (((nonEmptyParts sample).map RangeParts.lower).map RangeBound.val).min? =
        some (rangeDeserialize v.range).lower.val := by
      rw [List.min?_eq_some_iff]
      refine ⟨List.mem_map_of_mem hmem, fun x hx => ?_⟩
      obtain ⟨c, hc, rfl⟩ := List.mem_map.mp hx
      exact compareInt_isLE_iff.mp (val_isLE_of_isLE (hfin _ hmem) (hfin c hc) (hle c hc))
    rw [hmin]
    rfl

/-- The greatest upper bound carries the value read as the maximum. -/
theorem sortedUppers_last (htwo : 2 ≤ (nonEmptyParts sample).length) :
    ((sortedUppers int4range sample).getD ((nonEmptyParts sample).length - 1) default).val =
      readMax sample := by
  obtain ⟨hmem, hle⟩ := sortBy_last_isLE (rangeCmpBounds btintcmp)
    (l := (nonEmptyParts sample).map RangeParts.upper) (by simp; omega) default
  rw [List.length_map] at hmem hle
  change ((sortBy (rangeCmpBounds btintcmp) _).getD _ default).val = _
  generalize (sortBy (rangeCmpBounds btintcmp) _).getD _ default = b at hmem hle ⊢
  obtain ⟨p, hp, rfl⟩ := List.mem_map.mp hmem
  obtain ⟨v, -, -, rfl⟩ := exists_of_mem_nonEmptyParts hp
  unfold readMax
  dsimp only
  split_ifs with hany
  · obtain ⟨c, hc, hinf⟩ := List.any_eq_true.mp hany
    obtain ⟨q, hq, rfl⟩ := List.mem_map.mp hc
    obtain ⟨w, -, -, rfl⟩ := exists_of_mem_nonEmptyParts hq
    have hbinf : v.range.flags.ubInf = true := infinite_of_isLE_upper rfl hinf (hle _ hc)
    simp [rangeDeserialize, RangeFlags.hasUbound, hbinf]
  · have hfin : ∀ c ∈ (nonEmptyParts sample).map RangeParts.upper, c.infinite = false := by
      simpa using hany
    have hmax : (((nonEmptyParts sample).map RangeParts.upper).map RangeBound.val).max? =
        some (rangeDeserialize v.range).upper.val := by
      rw [List.max?_eq_some_iff]
      refine ⟨List.mem_map_of_mem hmem, fun x hx => ?_⟩
      obtain ⟨c, hc, rfl⟩ := List.mem_map.mp hx
      exact compareInt_isLE_iff.mp (val_isLE_of_isLE (hfin c hc) (hfin _ hmem) (hle c hc))
    rw [hmax]
    rfl

theorem readMin_fits (hvalues : ∀ v, some v ∈ sample → Int4Value v.range)
    (htwo : 2 ≤ (nonEmptyParts sample).length) : FitsInt32 (readMin sample) := by
  have hfirst : 0 < (nonEmptyParts sample).length := by omega
  obtain ⟨p, hp, hpeq⟩ := exists_sortedLower int4range hfirst
  obtain ⟨v, hv, -, rfl⟩ := exists_of_mem_nonEmptyParts hp
  rw [← sortedLowers_first htwo, ← hpeq]
  exact (hvalues v hv).lower_fits

theorem readMax_fits (hvalues : ∀ v, some v ∈ sample → Int4Value v.range)
    (htwo : 2 ≤ (nonEmptyParts sample).length) : FitsInt32 (readMax sample) := by
  have hlast : (nonEmptyParts sample).length - 1 < (nonEmptyParts sample).length := by omega
  obtain ⟨p, hp, hpeq⟩ := exists_sortedUpper int4range hlast
  obtain ⟨v, hv, -, rfl⟩ := exists_of_mem_nonEmptyParts hp
  rw [← sortedUppers_last htwo, ← hpeq]
  exact (hvalues v hv).upper_fits

/-- An inclusive lower and an exclusive upper bound are in order when their values
are strictly in order. -/
theorem canonical_isLE_iff {a b : ℤ} :
    (rangeCmpBounds btintcmp ⟨a, false, true, true⟩ ⟨b, false, false, false⟩).isLE ↔ a < b := by
  rw [rangeCmpBounds_eq_cut]
  simp only [RangeBound.cut, Bool.false_eq_true, ↓reduceIte, Cut.compareBy_point_point,
    Ordering.isLE_then_iff_or]
  constructor
  · rintro (hlt | ⟨-, hoff⟩)
    · exact compareInt_lt_iff.mp hlt
    · exact absurd hoff (by decide)
  · intro hlt
    exact Or.inl (compareInt_lt_iff.mpr hlt)

/-- A non-empty value with finite bounds has its lower value below its upper. -/
theorem Int4Value.lower_lt_upper {r : RangeType ℤ} (h : Int4Value r) (hne : r.flags.empty = false)
    (hl : r.flags.lbInf = false) (hu : r.flags.ubInf = false) :
    (lowerOf r).val < (upperOf r).val := by
  obtain ⟨hup, hlow⟩ := canonical_bounds h.value h.value rfl hne hne hu hl
  have hle := h.value.ordered hne
  change (rangeCmpBounds btintcmp (lowerOf r) (upperOf r)).isLE at hle
  rw [hup, hlow] at hle
  exact canonical_isLE_iff.mp hle

/-- Unless an infinite bound reads as zero, the minimum is below the maximum. -/
theorem readMin_zero_or_lt (hvalues : ∀ v, some v ∈ sample → Int4Value v.range)
    (htwo : 2 ≤ (nonEmptyParts sample).length) :
    readMin sample = 0 ∨ readMax sample = 0 ∨ readMin sample < readMax sample := by
  by_cases hlow : ((nonEmptyParts sample).map RangeParts.lower).any RangeBound.infinite = true
  · exact Or.inl (if_pos hlow)
  by_cases hup : ((nonEmptyParts sample).map RangeParts.upper).any RangeBound.infinite = true
  · exact Or.inr (Or.inl (if_pos hup))
  refine Or.inr (Or.inr ?_)
  have hlow' : ∀ c ∈ (nonEmptyParts sample).map RangeParts.lower, c.infinite = false := by
    simpa using hlow
  have hup' : ∀ c ∈ (nonEmptyParts sample).map RangeParts.upper, c.infinite = false := by
    simpa using hup
  obtain ⟨hfmem, hfirst⟩ := sortBy_first_isLE (rangeCmpBounds btintcmp)
    (l := (nonEmptyParts sample).map RangeParts.lower) (by simp; omega) default
  obtain ⟨hlmem, hlast⟩ := sortBy_last_isLE (rangeCmpBounds btintcmp)
    (l := (nonEmptyParts sample).map RangeParts.upper) (by simp; omega) default
  rw [List.length_map] at hlmem hlast
  obtain ⟨p, hp⟩ : ∃ p, p ∈ nonEmptyParts sample := List.exists_mem_of_length_pos (by omega)
  obtain ⟨v, hv, hne, rfl⟩ := exists_of_mem_nonEmptyParts hp
  have hpl := List.mem_map_of_mem (f := RangeParts.lower) hp
  have hpu := List.mem_map_of_mem (f := RangeParts.upper) hp
  rw [← sortedLowers_first htwo, ← sortedUppers_last htwo]
  calc ((sortBy (rangeCmpBounds btintcmp) _).getD 0 default).val
      ≤ (lowerOf v.range).val := compareInt_isLE_iff.mp
        (val_isLE_of_isLE (hlow' _ hfmem) (hlow' _ hpl) (hfirst _ hpl))
    _ < (upperOf v.range).val :=
        (hvalues v hv).lower_lt_upper hne (hlow' _ hpl) (hup' _ hpu)
    _ ≤ ((sortBy (rangeCmpBounds btintcmp) _).getD _ default).val := compareInt_isLE_iff.mp
        (val_isLE_of_isLE (hup' _ hpu) (hup' _ hlmem) (hlast _ hpu))

end Int4

/-- The length of the span is positive as a machine integer exactly when it is a
positive machine integer. -/
theorem spanLength_int4_pos_iff {min max : ℤ} (hmin : FitsInt32 min) (hmax : FitsInt32 max)
    (hzero : min = 0 ∨ max = 0 ∨ min < max) :
    1 ≤ spanLength .int32 (int4Word min) (int4Word max) ↔
      min ≤ max ∧ max - min ≤ 2147483646 := by
  obtain ⟨hmin1, hmin2⟩ := hmin
  obtain ⟨hmax1, hmax2⟩ := hmax
  rw [spanLength, toInt_int4Word ⟨hmin1, hmin2⟩, toInt_int4Word ⟨hmax1, hmax2⟩,
    CInt.wrap_wrap_add, CInt.int32_wrap, CInt.int32_wrap, CInt.int32_wrap,
    (CInt.wrap32_eq_iff min).mpr ⟨hmin1, hmin2⟩, (CInt.wrap32_eq_iff max).mpr ⟨hmax1, hmax2⟩,
    CInt.wrap32]
  omega

/-- The choice of the grid for an `int4range` column divides by zero nowhere and
gives a positive count and length exactly when the value read as the minimum is
not above the value read as the maximum, and their distance leaves room for one
more in an `int`. -/
theorem frequencyCall_grid_iff (target : StatTarget) (sample : List (Option (SampleValue ℤ)))
    (hvalues : ∀ v, some v ∈ sample → Int4Value v.range)
    (htwo : 2 ≤ (nonEmptyParts sample).length) :
    (∃ call bounds grid buckets,
      frequencyCall int4range target sample = .ok (some (call, bounds)) ∧
      call.run .int32 .float4 int4Word = .ok (grid, buckets) ∧
      1 ≤ grid.nbOfIntervals ∧ 1 ≤ grid.intervalLength) ↔
    readMin sample ≤ readMax sample ∧ readMax sample - readMin sample ≤ 2147483646 := by
  have hordered : ∀ p ∈ nonEmptyParts sample,
      (rangeCmpBounds int4range.cmp p.lower p.upper).isLE :=
    ordered_of_isValue fun v hv => (hvalues v hv).value
  obtain ⟨call, hcall, hrun⟩ := frequencyCall_run target
    (TypeCacheEntry.Indexable.transCmp .int4range) hordered htwo
  rw [← spanLength_int4_pos_iff (readMin_fits hvalues htwo) (readMax_fits hvalues htwo)
    (readMin_zero_or_lt hvalues htwo), ← chooseIntervals_pos_iff]
  specialize hrun .int32 .float4 int4Word
  rw [sortedLowers_first htwo, sortedUppers_last htwo] at hrun
  constructor
  · rintro ⟨call', bounds', grid, buckets, hcall', hrun', hnb, hwidth⟩
    rw [hcall] at hcall'
    cases hcall'
    rw [hrun] at hrun'
    exact ⟨grid, (exists_buckets_iff _ _ _ _ _ _ grid).mp ⟨buckets, hrun'⟩, hnb, hwidth⟩
  · rintro ⟨grid, hgrid, hnb, hwidth⟩
    obtain ⟨buckets, hbuckets⟩ := (exists_buckets_iff _ _ _ _ _ _ grid).mpr hgrid
    exact ⟨call, _, grid, buckets, hcall, hrun.trans hbuckets, hnb, hwidth⟩

/-- The ranges `(,-5)` and `(,-3)`. -/
def negativeSample : List (Option (SampleValue ℤ)) :=
  [some ⟨13, packRange ⟨0, true, false, true⟩ ⟨-5, false, false, false⟩⟩,
    some ⟨13, packRange ⟨0, true, false, true⟩ ⟨-3, false, false, false⟩⟩]

/-- For `(,-5)` and `(,-3)` the minimum reads as zero, the length is `-2`, and its
weighted divider is zero. -/
theorem frequencyCall_negativeSample :
    2 ≤ (nonEmptyParts negativeSample).length ∧
    ∃ call bounds, frequencyCall int4range defaultTarget negativeSample =
        .ok (some (call, bounds)) ∧
      call.run .int32 .float4 int4Word = .error .divisionByZero :=
  ⟨by decide, _, _, rfl, rfl⟩

/-- The ranges `(,7)` and `[2,9)`: the minimum reads as zero, which is below the
maximum. -/
theorem frequencyCall_grid_iff_infinite :
    ∃ call bounds grid buckets, frequencyCall int4range defaultTarget
        [some ⟨13, packRange ⟨0, true, false, true⟩ ⟨7, false, false, false⟩⟩,
          some ⟨17, packRange ⟨2, false, true, true⟩ ⟨9, false, false, false⟩⟩] =
        .ok (some (call, bounds)) ∧
      call.run .int32 .float4 int4Word = .ok (grid, buckets) ∧
      1 ≤ grid.nbOfIntervals ∧ 1 ≤ grid.intervalLength := by
  refine (frequencyCall_grid_iff defaultTarget _ ?_ (by decide)).mpr (by decide)
  intro v hv
  simp only [List.mem_cons, Option.some.injEq, List.not_mem_nil, or_false] at hv
  rcases hv with rfl | rfl
  · exact ⟨⟨by constructor <;> decide, by decide, by decide⟩, by decide, by decide⟩
  · exact ⟨⟨by constructor <;> decide, by decide, by decide⟩, by decide, by decide⟩

end PgRange.Stats
