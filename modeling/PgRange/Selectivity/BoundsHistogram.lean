import PgRange.Selectivity.HistOperators
import PgRange.Selectivity.Join
import PgRange.Spgist.Quad
import PgRange.Stats.IntColumn

/-!
# The bounds histogram and its readers

`compute_range_stats` sorts the lower and the upper bounds of a sample apart, and makes ranges
of the two bounds at each position, which come from different rows in general. The bounds at a
position are in order all the same, so that they make a range that is not empty.

The readers of the histogram take this for granted and raise an error at an empty range. They
never do so on a histogram that has been stored. `spg_range_quad_picksplit` makes its centroid
in the same way.

## Main results

* `independentSorts_valid` — bounds that are sorted apart make ranges that are not empty, with
  what this means for the readers and for the centroid
-/

set_option autoImplicit false

namespace PgRange.Selectivity

open Math Stats Spgist

/-! ### Estimates that do not raise the error -/

section Faults

variable {α : Type} [Inhabited α] (typcache : TypeCacheEntry α)

theorem divide_ne_empty (x y : FloatQ) : divide x y ≠ .error .emptyInBoundsHistogram :=
  ite_ne_error (error_ne_error (by decide)) ok_ne_error

omit [Inhabited α] in
theorem getPosition_ne_empty (value hist1 hist2 : RangeBound α) :
    getPosition typcache value hist1 hist2 ≠ .error .emptyInBoundsHistogram := by
  rw [getPosition_eq]
  exact ok_ne_error

theorem calcHistSelectivityScalar_ne_empty (constbound : RangeBound α)
    (hist : List (RangeBound α)) (equal : Bool) :
    calcHistSelectivityScalar typcache constbound hist equal ≠ .error .emptyInBoundsHistogram :=
  bind_ne_error (divide_ne_empty _ _) fun _ _ => ite_ne_error
    (bind_ne_error (getPosition_ne_empty _ _ _ _) fun _ _ =>
      bind_ne_error (divide_ne_empty _ _) fun _ _ => ok_ne_error)
    ok_ne_error

theorem getLenPosition_ne_empty (value hist1 hist2 : FloatQ) :
    getLenPosition value hist1 hist2 ≠ .error .emptyInBoundsHistogram :=
  ite_ne_error
    (ite_ne_error ok_ne_error (bind_ne_error (divide_ne_empty _ _) fun _ _ => ok_ne_error))
    (ite_ne_error ok_ne_error (ite_ne_error ok_ne_error ok_ne_error))

variable (lengthHist : List FloatQ) (length2 : FloatQ) (equal : Bool)

theorem areaLoop_ne_empty (rounds : ℕ) (s : AreaState) :
    areaLoop lengthHist length2 equal rounds s ≠ .error .emptyInBoundsHistogram := by
  induction rounds generalizing s with
  | zero => exact ok_ne_error
  | succ rounds ih =>
    exact ite_ne_error ok_ne_error (bind_ne_error (divide_ne_empty _ _) fun _ _ => ih _)

theorem firstBin_ne_empty (length1 : FloatQ) (i : ℤ) :
    firstBin lengthHist length1 i ≠ .error .emptyInBoundsHistogram :=
  ite_ne_error ok_ne_error (bind_ne_error (getLenPosition_ne_empty _ _ _) fun _ _ => ok_ne_error)

theorem lastPosition_ne_empty (i : ℕ) :
    lastPosition lengthHist length2 i ≠ .error .emptyInBoundsHistogram :=
  ite_ne_error ok_ne_error (ite_ne_error ok_ne_error (getLenPosition_ne_empty _ _ _))

theorem calcLengthHistFrac_ne_empty (length1 : FloatQ) :
    calcLengthHistFrac lengthHist length2 equal length1 ≠ .error .emptyInBoundsHistogram := by
  refine ite_ne_error (error_ne_error (by decide)) (ite_ne_error ok_ne_error
    (ite_ne_error ok_ne_error (ite_ne_error ok_ne_error ?_)))
  refine bind_ne_error (firstBin_ne_empty _ _ _) fun bin _ =>
    bind_ne_error (divide_ne_empty _ _) fun pb _ => ite_ne_error ok_ne_error ?_
  exact bind_ne_error (areaLoop_ne_empty _ _ _ _ _) fun s _ =>
    bind_ne_error (lastPosition_ne_empty _ _ _) fun pos _ =>
      bind_ne_error (divide_ne_empty _ _) fun pb _ =>
        ite_ne_error ok_ne_error (divide_ne_empty _ _)

variable (lower upper : RangeBound α) (histLower : List (RangeBound α))

theorem containedLoop_ne_empty (i : ℕ) (s : BinState) :
    containedLoop typcache lower upper histLower lengthHist i s ≠
      .error .emptyInBoundsHistogram := by
  induction i generalizing s with
  | zero => exact ok_ne_error
  | succ i ih =>
    refine ite_ne_error ?_ ?_
    · exact bind_ne_error (getPosition_ne_empty _ _ _ _) fun position _ =>
        bind_ne_error (calcLengthHistFrac_ne_empty _ _ _ _) fun frac _ =>
          bind_ne_error (divide_ne_empty _ _) fun _ _ => ok_ne_error
    · exact bind_ne_error (calcLengthHistFrac_ne_empty _ _ _ _) fun frac _ =>
        bind_ne_error (divide_ne_empty _ _) fun _ _ => ih _

theorem containsLoop_ne_empty (i : ℕ) (s : BinState) :
    containsLoop typcache upper histLower lengthHist i s ≠ .error .emptyInBoundsHistogram := by
  induction i generalizing s with
  | zero => exact ok_ne_error
  | succ i ih =>
    exact bind_ne_error (calcLengthHistFrac_ne_empty _ _ _ _) fun frac _ =>
      bind_ne_error (divide_ne_empty _ _) fun _ _ => ih _

theorem calcHistSelectivityContained_ne_empty :
    calcHistSelectivityContained typcache lower upper histLower lengthHist ≠
      .error .emptyInBoundsHistogram :=
  ite_ne_error ok_ne_error (bind_ne_error (getPosition_ne_empty _ _ _ _) fun _ _ =>
    containedLoop_ne_empty _ _ _ _ _ _ _)

theorem calcHistSelectivityContains_ne_empty :
    calcHistSelectivityContains typcache lower upper histLower lengthHist ≠
      .error .emptyInBoundsHistogram :=
  ite_ne_error ok_ne_error (bind_ne_error (getPosition_ne_empty _ _ _ _) fun _ _ =>
    containsLoop_ne_empty _ _ _ _ _ _)

/-- Once the bounds are read, no operator raises the error. -/
theorem histSwitch_ne_empty (histUpper : List (RangeBound α)) (operator : RangeOp) :
    histSwitch typcache lower upper histLower histUpper lengthHist operator ≠
      .error .emptyInBoundsHistogram := by
  have hscalar := calcHistSelectivityScalar_ne_empty typcache
  cases operator with
  | contained =>
    exact ite_ne_error (hscalar _ _ _) (ite_ne_error
      (bind_ne_error (hscalar _ _ _) fun _ _ => ok_ne_error)
      (calcHistSelectivityContained_ne_empty _ _ _ _ _))
  | contains => exact calcHistSelectivityContains_ne_empty _ _ _ _ _
  | overlap | containsElem =>
    exact bind_ne_error (hscalar _ _ _) fun _ _ =>
      bind_ne_error (hscalar _ _ _) fun _ _ => ok_ne_error
  | greater | greaterEqual | right | overlapsRight =>
    exact bind_ne_error (hscalar _ _ _) fun _ _ => ok_ne_error
  | less | lessEqual | left | overlapsLeft => exact hscalar _ _ _
  | elemContained => exact error_ne_error (by decide)

/-- `calc_hist_selectivity` does not raise the error on a histogram without empty ranges. -/
theorem calcHistSelectivity_ne_empty {vardata : HistVariable α} {hist : List (RangeType α)}
    {lengths : Option (List FloatQ)} (hslot : vardata.statsTuple = some (some hist, lengths))
    (hne : ∀ range ∈ hist, range.flags.empty = false) (constval : RangeType α)
    (operator : RangeOp) :
    calcHistSelectivity typcache vardata constval operator ≠ .error .emptyInBoundsHistogram := by
  have hparts : hist.mapM histBounds ≠ .error .emptyInBoundsHistogram := by
    have hok : hist.mapM histBounds = .ok (hist.map rangeDeserialize) :=
      mapM_eq_ok fun range hrange => by
        rw [histBounds, rangeDeserialize_empty, hne range hrange]
        rfl
    rw [hok]
    exact ok_ne_error
  have hestimate : ∀ lowers uppers lengths,
      histEstimate typcache constval lowers uppers lengths operator ≠
        .error .emptyInBoundsHistogram := fun _ _ _ =>
    ite_ne_error (error_ne_error (by decide)) (histSwitch_ne_empty _ _ _ _ _ _ _)
  unfold calcHistSelectivity
  rw [hslot]
  refine ite_ne_error ok_ne_error (ite_ne_error ok_ne_error (ite_ne_error ok_ne_error ?_))
  refine bind_ne_error hparts fun parts _ => ite_ne_error ?_ (hestimate _ _ _)
  cases lengths with
  | none => exact ok_ne_error
  | some lengthHist => exact ite_ne_error ok_ne_error (hestimate _ _ _)

end Faults

section FrequencyFaults

variable (A : CInt) (R : CFloat)

theorem roundUpDivision_ne_empty (numerator divider : ℤ) :
    roundUpDivision A numerator divider ≠ .error .emptyInBoundsHistogram :=
  ite_ne_error (error_ne_error (by decide))
    (ite_ne_error (error_ne_error (by decide)) ok_ne_error)

theorem restSpan_ne_empty {hist : List (RangeType Datum)}
    (hne : ∀ range ∈ hist, range.flags.empty = false) :
    restSpan A hist ≠ .error .emptyInBoundsHistogram := by
  unfold restSpan
  cases hfirst : hist.head? with
  | none => exact error_ne_error (by decide)
  | some first =>
    cases hlast : hist.getLast? with
    | none => exact error_ne_error (by decide)
    | some last =>
      dsimp only
      rw [hne first (List.mem_of_head? hfirst), hne last (List.mem_of_getLast? hlast)]
      exact ok_ne_error

/-- `rangerestsel` does not raise the error on a histogram without empty ranges. -/
theorem rangerestsel_ne_empty {clause : RestrictionClause} {stats : StatsTuple}
    {hist : List (RangeType Datum)} (hstats : clause.statsTuple = some stats)
    (hbounds : stats.bounds = some hist) (hne : ∀ range ∈ hist, range.flags.empty = false) :
    rangerestsel A R clause ≠ .error .emptyInBoundsHistogram := by
  unfold rangerestsel
  rw [hstats]
  refine ite_ne_error ok_ne_error ?_
  match clause.restrictionVariable with
  | none => exact ok_ne_error
  | some (.notConst, _) => exact ok_ne_error
  | some (.const constisnull sameType constrange, varonleft) =>
    refine ite_ne_error ok_ne_error (ite_ne_error ok_ne_error (ite_ne_error ok_ne_error
      (ite_ne_error ok_ne_error ?_)))
    dsimp only
    rw [hbounds]
    cases stats.frequencies with
    | none => exact ok_ne_error
    | some freqValues =>
      exact bind_ne_error (restSpan_ne_empty A hne) fun span _ =>
        bind_ne_error (bind_ne_error (roundUpDivision_ne_empty A _ _) fun _ _ => ok_ne_error)
          fun _ _ => ok_ne_error

theorem rangeoverlapsjoinselInner_ne_empty (freqValues1 freqValues2 : List FloatQ)
    (rows1 rows2 : ℕ) (min1 min2 max1 max2 : ℤ) :
    rangeoverlapsjoinselInner A R freqValues1 freqValues2 rows1 rows2 min1 min2 max1 max2 ≠
      .error .emptyInBoundsHistogram := by
  have hlow : ∀ nb1 nb2 length1 length2 fuel s,
      (lowLoop A nb1 nb2 length1 length2).run .outOfFuel fuel s ≠
        .error .emptyInBoundsHistogram := fun _ _ _ _ =>
    Loop.run_ne_error (by decide) (fun _ => ite_ne_error ok_ne_error
      (ite_ne_error ok_ne_error (error_ne_error (by decide))))
      fun _ => by dsimp only [lowLoop]; split_ifs <;> decide
  have hhigh : ∀ length1 length2 fuel s,
      (highLoop A length1 length2).run .outOfFuel fuel s ≠ .error .emptyInBoundsHistogram :=
    fun _ _ => Loop.run_ne_error (by decide) (fun _ => ite_ne_error ok_ne_error
      (ite_ne_error ok_ne_error (error_ne_error (by decide))))
      fun _ => by dsimp only [highLoop]; split_ifs <;> decide
  refine bind_ne_error (roundUpDivision_ne_empty A _ _) fun length1 _ =>
    bind_ne_error (roundUpDivision_ne_empty A _ _) fun length2 _ =>
      bind_ne_error (hlow _ _ _ _ _ _) fun low _ => bind_ne_error (hhigh _ _ _ _) fun high _ => ?_
  refine bind_ne_error ?_ fun _ _ => ok_ne_error
  obtain ⟨total, htotal⟩ := computeSelectivity_total A R (freqValues1.drop low.x.toNat)
    (freqValues2.drop low.y.toNat) (high.x - low.x + 1) (high.y - low.y + 1) length1 length2
    low.val1 low.val2
  rw [htotal]
  exact ok_ne_error

/-- Nor does `rangeoverlapsjoinsel` on two of them. -/
theorem rangeoverlapsjoinsel_ne_empty {clause : JoinClause} {stats1 stats2 : StatsTuple}
    {hist1 hist2 : List (RangeType Datum)} (hstats1 : clause.statsTuple1 = some stats1)
    (hstats2 : clause.statsTuple2 = some stats2) (hbounds1 : stats1.bounds = some hist1)
    (hbounds2 : stats2.bounds = some hist2) (hne1 : ∀ range ∈ hist1, range.flags.empty = false)
    (hne2 : ∀ range ∈ hist2, range.flags.empty = false) :
    rangeoverlapsjoinsel A R clause ≠ .error .emptyInBoundsHistogram := by
  unfold rangeoverlapsjoinsel
  refine ite_ne_error ok_ne_error (ite_ne_error ok_ne_error (ite_ne_error ok_ne_error ?_))
  unfold JoinClause.slots
  rw [hstats1, hstats2]
  dsimp only [Option.bind_eq_bind, Option.bind]
  rw [hbounds1, hbounds2]
  cases stats1.frequencies with
  | none => exact ok_ne_error
  | some freqValues1 =>
    cases stats2.frequencies with
    | none => exact ok_ne_error
    | some freqValues2 =>
      refine bind_ne_error (restSpan_ne_empty A hne1) fun span1 _ =>
        bind_ne_error (restSpan_ne_empty A hne2) fun span2 _ => ite_ne_error ?_ ok_ne_error
      exact bind_ne_error (rangeoverlapsjoinselInner_ne_empty A R _ _ _ _ _ _ _ _)
        fun _ _ => ok_ne_error

end FrequencyFaults

/-! ### What is stored -/

section Stored

variable {α : Type} [Inhabited α] {typcache : TypeCacheEntry α}

/-- The ranges of a histogram are not empty, and both sides are in ascending order. -/
structure BoundsSorted (typcache : TypeCacheEntry α) (hist : List (RangeType α)) : Prop where
  nonEmpty : ∀ range ∈ hist, range.flags.empty = false
  lowers : HistSorted typcache.cmp (lowerBounds hist)
  uppers : HistSorted typcache.cmp (upperBounds hist)

/-- The sample holds values of the type. -/
def ValueSample (typcache : TypeCacheEntry α) (sample : List (Option (SampleValue α))) : Prop :=
  ∀ value, some value ∈ sample → typcache.IsValue value.range

/-- The bounds histogram that `compute_range_stats` stores for some sample. -/
def StoredBounds (A : CInt) (R : CFloat) (word : α → Datum)
    (typcache : TypeCacheEntry α) (hist : List (RangeType α)) : Prop :=
  ∃ target sample stats slots, ValueSample typcache sample ∧
    computeRangeStats A R word typcache target sample = .ok (some stats) ∧
    stats.slots = some slots ∧ slots.bounds = some hist

theorem ValueSample.ordered {sample : List (Option (SampleValue α))}
    (h : ValueSample typcache sample) {p : RangeParts α} (hp : p ∈ nonEmptyParts sample) :
    (rangeCmpBounds typcache.cmp p.lower p.upper).isLE :=
  ordered_of_isValue h p hp

/-- The histogram reads from the lowest position to the highest. -/
theorem evenPositions_pairwise (n : ℕ) {m : ℕ} (hm : 2 ≤ m) :
    (evenPositions n m).Pairwise (· ≤ ·) := by
  rw [evenPositions_eq hm, List.pairwise_map]
  refine List.pairwise_lt_range.imp fun hlt => ?_
  exact Nat.div_le_div_right (Nat.mul_le_mul_right _ hlt.le)

/-- The slots that are stored hold the bounds histogram that was computed first. -/
theorem frequencyCall_of_stored {A : CInt} {R : CFloat} {word : α → Datum} {target : StatTarget}
    {sample : List (Option (SampleValue α))} {stats : ColumnStats α} {slots : RangeSlots α}
    (h : computeRangeStats A R word typcache target sample = .ok (some stats))
    (hslots : stats.slots = some slots) :
    ∃ call, frequencyCall typcache target sample = .ok (some (call, slots.bounds)) := by
  unfold computeRangeStats at h
  obtain ⟨result, hresult, h⟩ := bind_eq_ok_iff.mp h
  cases result with
  | none =>
    dsimp only at h
    split_ifs at h
    · obtain rfl := Option.some.inj (Except.ok.inj h)
      simp at hslots
    · simp [pure, Except.pure] at h
  | some result =>
    obtain ⟨call, bounds⟩ := result
    obtain ⟨⟨grid, buckets⟩, -, h⟩ := bind_eq_ok_iff.mp h
    obtain rfl := Option.some.inj (Except.ok.inj h)
    obtain rfl := Option.some.inj hslots
    exact ⟨call, hresult⟩

variable [Std.TransCmp typcache.cmp]

/-- The ranges that are made of independently sorted bounds. -/
theorem boundsSorted_callBounds {target : StatTarget} {sample : List (Option (SampleValue α))}
    (htwo : 2 ≤ (nonEmptyParts sample).length) :
    BoundsSorted typcache (callBounds typcache target sample) := by
  have hlt : ∀ pos ∈ callPositions target sample, pos < (nonEmptyParts sample).length :=
    fun pos hpos => evenPositions_lt htwo (two_le_numHist htwo target) hpos
  have hpositions := evenPositions_pairwise (nonEmptyParts sample).length
    (two_le_numHist htwo target)
  unfold callBounds
  constructor
  · intro range hrange
    obtain ⟨pos, -, rfl⟩ := List.mem_map.mp hrange
    rfl
  · -- packing does not move a bound
    refine List.pairwise_map.mpr (List.pairwise_map.mpr (hpositions.imp_of_mem ?_))
    intro pos pos' hpos hpos' hle
    rw [rangeCmpBounds_eq_cut,
      lowerOf_packRange_cut (sortedLowers_getD_lower typcache (hlt pos hpos)),
      lowerOf_packRange_cut (sortedLowers_getD_lower typcache (hlt pos' hpos')),
      ← rangeCmpBounds_eq_cut]
    exact sortBy_getD_isLE _ hle (by simpa using hlt pos' hpos') _
  · refine List.pairwise_map.mpr (List.pairwise_map.mpr (hpositions.imp_of_mem ?_))
    intro pos pos' hpos hpos' hle
    rw [rangeCmpBounds_eq_cut,
      upperOf_packRange_cut (sortedUppers_getD_lower typcache (hlt pos hpos)),
      upperOf_packRange_cut (sortedUppers_getD_lower typcache (hlt pos' hpos')),
      ← rangeCmpBounds_eq_cut]
    exact sortBy_getD_isLE _ hle (by simpa using hlt pos' hpos') _

/-- No range of the histogram raises an error while it is built. -/
theorem ValueSample.frequencyCall_ok {sample : List (Option (SampleValue α))}
    (h : ValueSample typcache sample) (target : StatTarget) :
    ∃ call, frequencyCall typcache target sample = .ok call := by
  by_cases htwo : 2 ≤ (nonEmptyParts sample).length
  · exact ⟨_, frequencyCall_eq typcache inferInstance target sample (fun p hp => h.ordered hp) htwo⟩
  · exact ⟨_, frequencyCall_of_few typcache target htwo⟩

theorem StoredBounds.boundsSorted {A : CInt} {R : CFloat} {word : α → Datum}
    {hist : List (RangeType α)} (h : StoredBounds A R word typcache hist) :
    BoundsSorted typcache hist := by
  obtain ⟨target, sample, stats, slots, hvalues, hrun, hslots, hbounds⟩ := h
  obtain ⟨call, hcall⟩ := frequencyCall_of_stored hrun hslots
  rw [hbounds] at hcall
  by_cases htwo : 2 ≤ (nonEmptyParts sample).length
  · rw [frequencyCall_eq typcache inferInstance target sample (fun p hp => hvalues.ordered hp) htwo,
      Except.ok.injEq, Option.some.injEq, Prod.mk.injEq, Option.some.injEq] at hcall
    rw [← hcall.2]
    exact boundsSorted_callBounds htwo
  · rw [frequencyCall_of_few typcache target htwo] at hcall
    split_ifs at hcall <;> simp at hcall

theorem StoredBounds.rangeToWord_nonEmpty {A : CInt} {R : CFloat} {word : α → Datum}
    {hist : List (RangeType α)} (h : StoredBounds A R word typcache hist) :
    ∀ range ∈ hist.map (rangeToWord word), range.flags.empty = false := by
  intro range hrange
  obtain ⟨r, hr, rfl⟩ := List.mem_map.mp hrange
  exact h.boundsSorted.nonEmpty r hr

/-- Bounds that are sorted apart make ranges that are not empty. -/
theorem rangeSerialize_of_sorts {ranges : List (RangeType α)} {lowers uppers : List (RangeBound α)}
    (hranges : ∀ r ∈ ranges, typcache.IsValue r ∧ r.flags.empty = false)
    (hlowers : IsSortOf (rangeCmpBounds typcache.cmp) lowers (ranges.map lowerOf))
    (huppers : IsSortOf (rangeCmpBounds typcache.cmp) uppers (ranges.map upperOf)) {k : ℕ}
    (hk : k < ranges.length) :
    rangeSerialize typcache.cmp (lowers.getD k default) (uppers.getD k default) false =
      .ok (packRange (lowers.getD k default) (uppers.getD k default)) := by
  have hside : ∀ {bounds : List (RangeBound α)} {f : RangeType α → RangeBound α} {side : Bool},
      IsSortOf (rangeCmpBounds typcache.cmp) bounds (ranges.map f) →
      (∀ r, (f r).lower = side) → (bounds.getD k default).lower = side := by
    intro bounds f side hsort hf
    have hlt : k < bounds.length := by rwa [hsort.perm.length_eq, List.length_map]
    rw [List.getD_eq_getElem _ _ hlt]
    obtain ⟨r, -, hr⟩ := List.mem_map.mp (hsort.perm.mem_iff.mp (List.getElem_mem hlt))
    rw [← hr]
    exact hf r
  refine rangeSerialize_of_isLE (hside hlowers fun _ => rfl) (hside huppers fun _ => rfl) ?_
  exact sort_pairing hlowers huppers (fun r hr => (hranges r hr).1.ordered (hranges r hr).2) hk _

/-- A split of values raises no error, and has a centroid unless all of them are empty. -/
theorem spgRangeQuadPicksplit_ok {datums : List (RangeType α)}
    (hdatums : ∀ r ∈ datums, typcache.IsValue r) (level : ℕ) :
    ∃ out, spgRangeQuadPicksplit typcache.cmp level datums = .ok out ∧
      ((∃ r ∈ datums, r.flags.empty = false) →
        ∃ c, out.prefixDatum = some c ∧ c.flags.empty = false) := by
  generalize hranges : (datums.filter fun range => !(rangeDeserialize range).empty) = ranges
  have hmem : ∀ r ∈ ranges, typcache.IsValue r ∧ r.flags.empty = false := by
    intro r hr
    rw [← hranges] at hr
    exact ⟨hdatums r (mem_nonEmpty.mp hr).1, (mem_nonEmpty.mp hr).2⟩
  unfold spgRangeQuadPicksplit
  rw [hranges]
  by_cases hnone : ranges.length = 0
  · refine ⟨_, if_pos hnone, ?_⟩
    rintro ⟨r, hr, hne⟩
    have hin : r ∈ ranges := hranges ▸ mem_nonEmpty.mpr ⟨hr, hne⟩
    rw [List.eq_nil_of_length_eq_zero hnone] at hin
    exact absurd hin List.not_mem_nil
  · have hser := rangeSerialize_of_sorts hmem (isSortOf_sortBy _ _) (isSortOf_sortBy _ _)
      (Nat.div_lt_self (Nat.pos_of_ne_zero hnone) one_lt_two)
    dsimp only
    rw [if_neg hnone, median, median, List.length_map, List.length_map, hser]
    exact ⟨_, rfl, fun _ => ⟨_, rfl, rfl⟩⟩

end Stored

/-- For a type with a total order, every position of independently sorted bounds of non-empty
ranges makes a range that is not empty. So a bounds histogram is built without error and holds
no empty range, with both sides ascending; the three readers never raise the error that they
have for one; and a split of an SP-GiST page always finds its centroid. -/
theorem independentSorts_valid {α : Type} [Inhabited α] (typcache : TypeCacheEntry α)
    [Std.TransCmp typcache.cmp] :
    (∀ (ranges : List (RangeType α)) (lowers uppers : List (RangeBound α)),
      (∀ r ∈ ranges, typcache.IsValue r ∧ r.flags.empty = false) →
      IsSortOf (rangeCmpBounds typcache.cmp) lowers (ranges.map lowerOf) →
      IsSortOf (rangeCmpBounds typcache.cmp) uppers (ranges.map upperOf) →
      ∀ k < ranges.length, ∃ r,
        rangeSerialize typcache.cmp (lowers.getD k default) (uppers.getD k default) false = .ok r ∧
          r.flags.empty = false) ∧
    (∀ target sample, ValueSample typcache sample →
      ∃ call, frequencyCall typcache target sample = .ok call) ∧
    (∀ A R word hist, StoredBounds A R word typcache hist →
      BoundsSorted typcache hist ∧
      (∀ vardata lengths constval operator, vardata.statsTuple = some (some hist, lengths) →
        calcHistSelectivity typcache vardata constval operator ≠ .error .emptyInBoundsHistogram) ∧
      (∀ B R' clause stats, clause.statsTuple = some stats →
        stats.bounds = some (hist.map (rangeToWord word)) →
        rangerestsel B R' clause ≠ .error .emptyInBoundsHistogram) ∧
      ∀ B R' clause stats1 stats2 hist2, StoredBounds A R word typcache hist2 →
        clause.statsTuple1 = some stats1 → clause.statsTuple2 = some stats2 →
        stats1.bounds = some (hist.map (rangeToWord word)) →
        stats2.bounds = some (hist2.map (rangeToWord word)) →
        rangeoverlapsjoinsel B R' clause ≠ .error .emptyInBoundsHistogram) ∧
    ∀ datums, (∀ r ∈ datums, typcache.IsValue r) → ∀ level,
      ∃ out, spgRangeQuadPicksplit typcache.cmp level datums = .ok out ∧
        ((∃ r ∈ datums, r.flags.empty = false) →
          ∃ c, out.prefixDatum = some c ∧ c.flags.empty = false) := by
  refine ⟨?_, fun target sample hvalues => hvalues.frequencyCall_ok target, ?_,
    fun datums hdatums level => spgRangeQuadPicksplit_ok hdatums level⟩
  · intro ranges lowers uppers hranges hlowers huppers k hk
    exact ⟨_, rangeSerialize_of_sorts hranges hlowers huppers hk, rfl⟩
  · intro A R word hist hstored
    refine ⟨hstored.boundsSorted, ?_, ?_, ?_⟩
    · intro vardata lengths constval operator hslot
      exact calcHistSelectivity_ne_empty typcache hslot hstored.boundsSorted.nonEmpty constval
        operator
    · intro B R' clause stats hstats hbounds
      exact rangerestsel_ne_empty B R' hstats hbounds hstored.rangeToWord_nonEmpty
    · intro B R' clause stats1 stats2 hist2 hstored2 hstats1 hstats2 hbounds1 hbounds2
      exact rangeoverlapsjoinsel_ne_empty B R' hstats1 hstats2 hbounds1 hbounds2
        hstored.rangeToWord_nonEmpty hstored2.rangeToWord_nonEmpty

/-- The bounds of `[1,10)` and `[5,6)`, sorted apart, are those of `[1,6)` and `[5,10)`. -/
theorem independentSorts_valid_nested :
    ∃ r, rangeSerialize int4range.cmp
      ([⟨1, false, true, true⟩, ⟨5, false, true, true⟩].getD 1 default)
      ([⟨6, false, false, false⟩, ⟨10, false, false, false⟩].getD 1 default) false = .ok r ∧
        r.flags.empty = false :=
  haveI := intSubtype_int4range.transCmp
  (independentSorts_valid int4range).1
    [⟨{ lbInc := true }, 1, 10⟩, ⟨{ lbInc := true }, 5, 6⟩] _ _
    (List.forall_mem_cons.mpr ⟨⟨int4range_isValue (by decide), rfl⟩,
      List.forall_mem_singleton.mpr ⟨int4range_isValue (by decide), rfl⟩⟩)
    ⟨List.Perm.refl _, by decide⟩ ⟨List.Perm.swap _ _ _, by decide⟩ 1 (by decide)

end PgRange.Selectivity
