import PgRange.Selectivity.Trim
import PgRange.Stats.IntColumn

/-!
# The width and the sign of `int` in the whole pipeline

From the sampled bounds to the selectivities, the frequency histogram is computed and
read with `int` locals: bounds, lengths, ends of intervals and a product of row
counts. This file runs the pipeline of two columns, a restriction on the first and a
join of both, once on the machine and once over unbounded integers, and compares all
these locals.

## Main results

* `restLocals_eq_iff` — the two readings of `rangerestsel_inner`
* `joinLocals_eq_iff` — the two readings of `rangeoverlapsjoinsel_inner`
* `pipeline_eq_iff` — for which columns and constants every `int` holds the value of the
  unbounded integers
-/

set_option autoImplicit false

namespace PgRange.Selectivity

open Math Stats

/-! ### The locals -/

/-- The `int` locals of `rangerestsel_inner` and what its loop computes. -/
structure RestLocals where
  min1 : ℤ
  max1 : ℤ
  intervalLength : ℤ
  a : ℤ
  b : ℤ
  sweep : RestSweep
  deriving DecidableEq

/-- `rangerestsel_inner` on the statistics of a column, with its locals. -/
def restLocals (A : CInt) (stats : IntColumn.Analyzed) (constrange : RangeType Datum)
    (operator : RangeOp) : Except Fault RestLocals := do
  let (min1, max1) ← restSpan A stats.bounds
  let intervalLength ← restIntervalLength A stats.buckets.length min1 max1
  let a := A.wrap (rangeDeserialize constrange).lower.val.toInt
  let b := A.wrap (rangeDeserialize constrange).upper.val.toInt
  return ⟨min1, max1, intervalLength, a, b,
    restSweep A .float8 (stats.buckets.map Bucket.count) min1 intervalLength a b operator⟩

/-- These are the locals of the estimate: it is the sum of the loop, divided by the rows and
clamped. The theorem is there to justify the definition. -/
theorem rangerestselHist_eq_restLocals (A : CInt) (stats : IntColumn.Analyzed)
    (constrange : RangeType Datum) (operator : RangeOp) :
    rangerestselHist A .float8 operator constrange stats.bounds (stats.buckets.map Bucket.count) =
      (restLocals A stats constrange operator).map fun locals =>
        clampFloat (CFloat.float8.div locals.sweep.sum (.fin stats.bounds.length)) := by
  unfold rangerestselHist restLocals rangerestselInner
  rw [List.length_map]
  cases restSpan A stats.bounds with
  | error e => rfl
  | ok span =>
    obtain ⟨min1, max1⟩ := span
    simp only [bind, Except.bind]
    cases restIntervalLength A stats.buckets.length min1 max1 with
    | error e => rfl
    | ok intervalLength => rfl

/-- A state of a trimming loop, with the other ends of the two intervals if the
condition is evaluated there. -/
abbrev TrimRound := Trim × Option (ℤ × ℤ)

/-- The rounds of a trimming loop, if `ends` gives the other ends of the intervals. -/
def trimRounds (p : Loop Fault Trim) (ends : Trim → ℤ × ℤ) (fuel : ℕ) (s : Trim) :
    List TrimRound :=
  (p.trace fuel s).map fun (s, tested) => (s, if tested then some (ends s) else none)

/-- The rounds of the loop `LOW`. -/
def lowRounds (A : CInt) (nb1 nb2 : ℕ) (length1 length2 min1 min2 : ℤ) : List TrimRound :=
  trimRounds (lowLoop A nb1 nb2 length1 length2)
    (fun s => (A.wrap (s.val1 + length1), A.wrap (s.val2 + length2)))
    (trimFuel nb1 nb2 (min1 - min2)) ⟨0, 0, min1, min2⟩

/-- The rounds of the loop `HIGH`. -/
def highRounds (A : CInt) (nb1 nb2 : ℕ) (length1 length2 max1 max2 : ℤ) : List TrimRound :=
  trimRounds (highLoop A length1 length2)
    (fun s => (A.wrap (s.val1 - length1), A.wrap (s.val2 - length2)))
    (trimFuel nb1 nb2 (max1 - max2)) ⟨nb1 - 1, nb2 - 1, max1, max2⟩

/-- The `int` locals of `rangeoverlapsjoinsel_inner`. -/
structure JoinLocals where
  min1 : ℤ
  max1 : ℤ
  min2 : ℤ
  max2 : ℤ
  intervalLength1 : ℤ
  intervalLength2 : ℤ
  low : List TrimRound
  high : List TrimRound
  rowProduct : ℤ

/-- `rangeoverlapsjoinsel_inner` on the statistics of two columns, with its locals;
`none` if the spans are apart and it is not called. -/
def joinLocals (A : CInt) (stats1 stats2 : IntColumn.Analyzed) :
    Except Fault (Option JoinLocals) := do
  let (min1, max1) ← restSpan A stats1.bounds
  let (min2, max2) ← restSpan A stats2.bounds
  if isInRange min1 max1 min2 max2 then
    let nb1 := stats1.buckets.length
    let nb2 := stats2.buckets.length
    let length1 ← joinIntervalLength A nb1 min1 max1
    let length2 ← joinIntervalLength A nb2 min2 max2
    return some ⟨min1, max1, min2, max2, length1, length2,
      lowRounds A nb1 nb2 length1 length2 min1 min2,
      highRounds A nb1 nb2 length1 length2 max1 max2,
      A.wrap (stats1.bounds.length * stats2.bounds.length)⟩
  else return none

/-- The rounds of a trimming loop end with the state that it leaves. -/
theorem mem_trimRounds_of_run {p : Loop Fault Trim} (ends : Trim → ℤ × ℤ) {fuel : ℕ} {s t : Trim}
    (h : p.run .outOfFuel fuel s = .ok t) : (t, some (ends t)) ∈ trimRounds p ends fuel s :=
  List.mem_map.mpr ⟨(t, true), Loop.mem_trace_of_run fuel h, rfl⟩

/-- These are the locals of the estimate: it is the sum that `computeSelectivity` makes
between a state of the loop `LOW` and one of the loop `HIGH`, divided by the row product.
The theorem is there to justify the definition. -/
theorem rangeoverlapsjoinselInner_joinLocals {A : CInt} {stats1 stats2 : IntColumn.Analyzed}
    {min1 max1 min2 max2 : ℤ} (hspan1 : restSpan A stats1.bounds = .ok (min1, max1))
    (hspan2 : restSpan A stats2.bounds = .ok (min2, max2))
    (hoverlap : isInRange min1 max1 min2 max2 = true) {result : FloatQ}
    (h : rangeoverlapsjoinselInner A .float8 (stats1.buckets.map Bucket.count)
      (stats2.buckets.map Bucket.count) stats1.bounds.length stats2.bounds.length
      min1 min2 max1 max2 = .ok result) :
    ∃ locals low lowEnds high highEnds total,
      joinLocals A stats1 stats2 = .ok (some locals) ∧
      (low, some lowEnds) ∈ locals.low ∧ (high, some highEnds) ∈ locals.high ∧
      computeSelectivity A .float8 ((stats1.buckets.map Bucket.count).drop low.x.toNat)
        ((stats2.buckets.map Bucket.count).drop low.y.toNat) (high.x - low.x + 1)
        (high.y - low.y + 1) locals.intervalLength1 locals.intervalLength2 low.val1 low.val2 =
          .ok total ∧
      result = CFloat.float8.div total (.fin locals.rowProduct) := by
  unfold rangeoverlapsjoinselInner at h
  simp only [List.length_map] at h
  obtain ⟨length1, hlength1, h⟩ := bind_eq_ok_iff.mp h
  obtain ⟨length2, hlength2, h⟩ := bind_eq_ok_iff.mp h
  obtain ⟨low, hlow, h⟩ := bind_eq_ok_iff.mp h
  obtain ⟨high, hhigh, h⟩ := bind_eq_ok_iff.mp h
  obtain ⟨total, htotal, h⟩ := bind_eq_ok_iff.mp h
  have hlocals : joinLocals A stats1 stats2 = .ok (some ⟨min1, max1, min2, max2, length1, length2,
      lowRounds A stats1.buckets.length stats2.buckets.length length1 length2 min1 min2,
      highRounds A stats1.buckets.length stats2.buckets.length length1 length2 max1 max2,
      A.wrap (stats1.bounds.length * stats2.bounds.length)⟩) := by
    simp only [joinLocals, hspan1, hspan2, bind, Except.bind, hoverlap, if_true, hlength1,
      hlength2]
    rfl
  have hlowMem := mem_trimRounds_of_run
    (fun s => (A.wrap (s.val1 + length1), A.wrap (s.val2 + length2))) hlow
  have hhighMem := mem_trimRounds_of_run
    (fun s => (A.wrap (s.val1 - length1), A.wrap (s.val2 - length2))) hhigh
  exact ⟨_, low, _, high, _, total, hlocals, hlowMem, hhighMem, htotal, (Except.ok.inj h).symm⟩

/-- The locals of the whole pipeline. -/
structure PipelineLocals where
  stats1 : IntColumn.Analyzed
  stats2 : IntColumn.Analyzed
  rest : RestLocals
  join : Option JoinLocals

/-- `ANALYZE` on two columns, then the estimates for `column1 operator constant` and
`column1 && column2`. -/
def pipeline (A : CInt) (c1 c2 : IntColumn) (constrange : RangeType Datum)
    (operator : RangeOp) : Except Fault PipelineLocals := do
  let stats1 ← c1.analyze A .float4
  let stats2 ← c2.analyze A .float4
  let rest ← restLocals A stats1 constrange operator
  let join ← joinLocals A stats1 stats2
  return ⟨stats1, stats2, rest, join⟩

/-! ### The span that the readers find -/

section Span

variable (c : IntColumn)

theorem bounds_eq : c.bounds = (List.range c.rows).map fun k =>
    rangeToWord intWord (packRange (c.lower (c.pos k)) (c.upper (c.pos k))) := by
  rw [IntColumn.bounds, callBounds, c.callPositions_eq, List.map_map, List.map_map]
  rfl

theorem length_bounds : c.bounds.length = c.rows := by simp [bounds_eq]

theorem pos_zero : c.pos 0 = 0 := by simp [IntColumn.pos]

theorem pos_last : c.pos (c.rows - 1) = c.count - 1 := by
  have := c.two_le_rows
  exact Nat.mul_div_cancel_left _ (by omega)

/-- The readers find the span of the column. -/
theorem restSpan_bounds (A : CInt) : restSpan A c.bounds = .ok (A.wrap c.min, A.wrap c.max) := by
  have hrows := c.two_le_rows
  have hcount := c.two_le_count
  have hlow := (IntColumn.lower_finite (c := c) (by omega : 0 < c.count)).1
  have hup := (IntColumn.upper_finite (c := c) (by omega : c.count - 1 < c.count)).1
  have hhead : c.bounds.head? =
      some (rangeToWord intWord (packRange (c.lower 0) (c.upper 0))) := by
    rw [bounds_eq, List.head?_map, List.head?_range, if_neg (by omega), Option.map_some, pos_zero]
  have hlast : c.bounds.getLast? =
      some (rangeToWord intWord (packRange (c.lower (c.count - 1)) (c.upper (c.count - 1)))) := by
    rw [bounds_eq, List.getLast?_map, List.getLast?_range, if_neg (by omega), Option.map_some,
      pos_last]
  have hmin : (rangeDeserialize (rangeToWord intWord
      (packRange (c.lower 0) (c.upper 0)))).lower.val = intWord c.min := by
    simp [rangeDeserialize, rangeToWord, packRange, RangeFlags.hasLbound, hlow, IntColumn.min]
  have hmax : (rangeDeserialize (rangeToWord intWord
      (packRange (c.lower (c.count - 1)) (c.upper (c.count - 1))))).upper.val = intWord c.max := by
    simp [rangeDeserialize, rangeToWord, packRange, RangeFlags.hasUbound, hup, IntColumn.max]
  unfold restSpan
  rw [hhead, hlast]
  simp only [hmin, hmax, toInt_intWord c.min_fits64, toInt_intWord c.max_fits64]
  rfl

end Span

/-! ### The restriction -/

/-- The number of intervals of a column. -/
def intervals (c : IntColumn) : ℕ := c.grid.nbOfIntervals.toNat

/-- The interval length that `rangerestsel_inner` uses, over unbounded integers. -/
def restWidth (c : IntColumn) : ℤ :=
  (c.max - c.min + c.grid.nbOfIntervals - 1) / c.grid.nbOfIntervals

/-- Whether interval `i` of `rangerestsel_inner` meets the integers from `a` to `b`. -/
def restMeets (c : IntColumn) (a b : ℤ) (i : ℕ) : Bool :=
  restInRange .unbounded c.min (restWidth c) a b i

/-- The end of the last interval fits an `int`, or the loop stops before it: for `<<` at
an interval that meets the constant, for `&&` at one that does not behind one that
does. -/
def RestFits (c : IntColumn) (a b : ℤ) : RangeOp → Prop
  | .left => c.min + c.grid.nbOfIntervals * restWidth c ≤ 2147483647 ∨
      ∃ i, i + 1 < intervals c ∧ restMeets c a b i = true
  | .overlap => c.min + c.grid.nbOfIntervals * restWidth c ≤ 2147483647 ∨
      ∃ j k, j < k ∧ k + 1 < intervals c ∧ restMeets c a b j = true ∧ restMeets c a b k = false
  | _ => True

section Restriction

variable (c : IntColumn)

theorem cast_intervals : (intervals c : ℤ) = c.grid.nbOfIntervals :=
  Int.toNat_of_nonneg c.tiling.countPos.le

theorem intervals_pos : 0 < intervals c := by
  have := cast_intervals c
  have := c.tiling.countPos
  omega

theorem length_exact_buckets : (c.exact .float4).buckets.length = intervals c := by
  simp [IntColumn.exact, intervals]

theorem restWidth_isCeil : IsCeil (c.max - c.min) c.grid.nbOfIntervals (restWidth c) :=
  IsCeil.of_ediv c.tiling.countPos

theorem restWidth_nonneg : 0 ≤ restWidth c := by
  have hle := c.min_le_max
  exact Int.ediv_nonneg (by have := c.tiling.countPos; omega) c.tiling.countPos.le

/-- The reader's intervals are no longer than the writer's. -/
theorem restWidth_le : restWidth c ≤ c.grid.intervalLength := by
  refine (restWidth_isCeil c).le_of_le c.tiling.countPos ?_
  have hcover := c.tiling.covers
  rw [mul_comm]
  omega

/-- All intervals but the last end within the span. -/
theorem restEnd_le_max {k : ℕ} (hk : k + 1 < intervals c) :
    c.min + (k + 1) * restWidth c ≤ c.max := by
  have hcast := cast_intervals c
  have hlast := c.tiling.lastInside
  have hstep : ((k : ℤ) + 1) * restWidth c ≤ (c.grid.nbOfIntervals - 1) * c.grid.intervalLength :=
    mul_le_mul (by omega) (restWidth_le c) (restWidth_nonneg c) (by omega)
  omega

theorem restRounds_le (test : ℕ → Bool) (n : ℕ) (operator : RangeOp) :
    restRounds test n operator ≤ n := by
  cases operator with
  | left => exact initialRounds_le _ n
  | overlap => exact firstRunRounds_le test n
  | _ => exact Nat.zero_le n

/-- The condition says that the last round is not made or does no harm. -/
theorem restFits_iff (a b : ℤ) (operator : RangeOp) :
    RestFits c a b operator ↔
      c.min + c.grid.nbOfIntervals * restWidth c ≤ 2147483647 ∨
        restRounds (restMeets c a b) (intervals c) operator < intervals c := by
  obtain ⟨n, hn⟩ : ∃ n, intervals c = n + 1 := ⟨intervals c - 1, by
    have := intervals_pos c
    omega⟩
  have hlt : restRounds (restMeets c a b) (intervals c) operator < intervals c ↔
      ¬ restRounds (restMeets c a b) (n + 1) operator = n + 1 := by
    have := restRounds_le (restMeets c a b) (intervals c) operator
    rw [← hn]
    omega
  cases operator with
  | left =>
    refine or_congr_right ?_
    rw [hlt, restRounds, initialRounds_eq_iff, hn]
    simp
  | overlap =>
    refine or_congr_right ?_
    rw [hlt, restRounds, firstRunRounds_eq_iff, hn]
    simp
  | _ => exact iff_of_true trivial (Or.inr (intervals_pos c))

variable {c}

/-- The two readings of an interval agree if its end fits. -/
theorem restInterval_eq_unbounded (h : c.GridFits) {k : ℕ}
    (hend : c.min + (k + 1) * restWidth c ≤ 2147483647) :
    restInterval .int32 c.min (restWidth c) k =
      restInterval .unbounded c.min (restWidth c) k := by
  have hmin := h.min_fits.1
  have hwidth := restWidth_nonneg c
  have hk : 0 ≤ (k : ℤ) * restWidth c := mul_nonneg (by omega) hwidth
  have hsucc : ((k : ℤ) + 1) * restWidth c = k * restWidth c + restWidth c := by ring
  unfold restInterval
  rw [CInt.wrap_add_wrap, CInt.wrap_add_wrap, CInt.int32.wrap_of_fits ⟨by omega, by omega⟩,
    CInt.int32.wrap_of_fits ⟨by omega, by omega⟩]
  rfl

/-- The two readings of the loops agree exactly under the condition. -/
theorem restSweep_eq_iff (h : c.GridFits) {freqValues : List FloatQ}
    (hlength : freqValues.length = intervals c) (a b : ℤ) (operator : RangeOp) :
    restSweep .int32 .float8 freqValues c.min (restWidth c) a b operator =
        restSweep .unbounded .float8 freqValues c.min (restWidth c) a b operator ↔
      RestFits c a b operator := by
  rw [restFits_iff]
  have hcast := cast_intervals c
  constructor
  · intro heq
    by_contra hnot
    obtain ⟨hend, hrounds⟩ := not_or.mp hnot
    have hall : restRounds (restMeets c a b) (intervals c) operator = intervals c :=
      le_antisymm (restRounds_le _ _ _) (not_lt.mp hrounds)
    -- the last interval is looked at, so its end is the value of an `int`
    have hmem : restInterval .unbounded c.min (restWidth c) (intervals c - 1) ∈
        (restSweep .int32 .float8 freqValues c.min (restWidth c) a b operator).ends := by
      rw [heq, restSweep_ends, hlength]
      refine List.mem_map_of_mem (List.mem_range.mpr ?_)
      have hpos := intervals_pos c
      change intervals c - 1 < restRounds (restMeets c a b) (intervals c) operator
      omega
    rw [restSweep_ends] at hmem
    obtain ⟨k, -, hk⟩ := List.mem_map.mp hmem
    have hfits : FitsInt32 (restInterval .unbounded c.min (restWidth c) (intervals c - 1)).2 := by
      rw [← hk]
      exact CInt.wrap32_fits _
    have hpos := intervals_pos c
    have hindex : ((intervals c - 1 : ℕ) : ℤ) + 1 = c.grid.nbOfIntervals := by omega
    refine hend ?_
    have hle := hfits.2
    simp only [restInterval, CInt.unbounded_wrap, hindex] at hle
    exact hle
  · intro hfits
    refine restSweep_congr freqValues operator fun k hk => ?_
    rw [hlength] at hk
    change k < restRounds (restMeets c a b) (intervals c) operator at hk
    have hle := restRounds_le (restMeets c a b) (intervals c) operator
    refine restInterval_eq_unbounded h ?_
    by_cases hlast : k + 1 < intervals c
    · have := restEnd_le_max c hlast
      have := h.max_fits.2
      omega
    · -- the last round is made, so its end has to fit
      have hk' : (k : ℤ) + 1 = c.grid.nbOfIntervals := by omega
      rw [hk']
      rcases hfits with hend | hearly
      · exact hend
      · omega

/-- The value of the lower bound of the constant. -/
def lowValue (constrange : RangeType Datum) : ℤ := (rangeDeserialize constrange).lower.val.toInt

/-- The value of the upper bound of the constant. -/
def upValue (constrange : RangeType Datum) : ℤ := (rangeDeserialize constrange).upper.val.toInt

/-- A reading of `int` that keeps the span of the column and its length. -/
structure KeepsSpan (A : CInt) (c : IntColumn) : Prop where
  min : A.wrap c.min = c.min
  max : A.wrap c.max = c.max
  distance : A.wrap (c.max - c.min) = c.max - c.min
  length : A.wrap (c.max - c.min + 1) = c.max - c.min + 1

theorem keepsSpan_unbounded (c : IntColumn) : KeepsSpan .unbounded c := ⟨rfl, rfl, rfl, rfl⟩

theorem keepsSpan_int32 (h : c.GridFits) : KeepsSpan .int32 c := by
  have hle := c.min_le_max
  have hlength := h.length
  exact ⟨CInt.int32.wrap_of_fits h.min_fits, CInt.int32.wrap_of_fits h.max_fits,
    CInt.int32.wrap_of_fits ⟨by omega, by omega⟩, CInt.int32.wrap_of_fits ⟨by omega, hlength⟩⟩

theorem KeepsSpan.restSpan_eq {A : CInt} (h : KeepsSpan A c) :
    restSpan A (c.exact .float4).bounds = .ok (c.min, c.max) := by
  have hspan := restSpan_bounds c A
  rw [h.min, h.max] at hspan
  exact hspan

/-- The locals in a reading of `int` that keeps the span. -/
theorem KeepsSpan.restLocals_eq {A : CInt} (h : KeepsSpan A c) (constrange : RangeType Datum)
    (operator : RangeOp) :
    restLocals A (c.exact .float4) constrange operator =
      .ok ⟨c.min, c.max, restWidth c, A.wrap (lowValue constrange), A.wrap (upValue constrange),
        restSweep A .float8 ((c.exact .float4).buckets.map Bucket.count) c.min (restWidth c)
          (A.wrap (lowValue constrange)) (A.wrap (upValue constrange)) operator⟩ := by
  have hlength : restIntervalLength A (c.exact .float4).buckets.length c.min c.max =
      .ok (restWidth c) := by
    rw [restIntervalLength, length_exact_buckets, cast_intervals, h.distance]
    have hle := c.min_le_max
    exact roundUpDivision_eq A (by omega) c.tiling.countPos h.distance (restWidth_isCeil c)
  unfold restLocals
  rw [h.restSpan_eq]
  change (restIntervalLength A (c.exact .float4).buckets.length c.min c.max >>= _) = _
  rw [hlength]
  rfl

/-- Given its grid, no `int` of `rangerestsel_inner` is too narrow exactly if the bounds
of the constant fit and so do the intervals that are looked at. -/
theorem restLocals_eq_iff (h : c.GridFits) (constrange : RangeType Datum) (operator : RangeOp) :
    restLocals .int32 (c.exact .float4) constrange operator =
        restLocals .unbounded (c.exact .float4) constrange operator ↔
      FitsInt32 (lowValue constrange) ∧ FitsInt32 (upValue constrange) ∧
        RestFits c (lowValue constrange) (upValue constrange) operator := by
  rw [(keepsSpan_int32 h).restLocals_eq, (keepsSpan_unbounded c).restLocals_eq]
  simp only [Except.ok.injEq, RestLocals.mk.injEq, true_and, CInt.int32_wrap,
    CInt.unbounded_wrap, CInt.wrap32_eq_iff]
  refine and_congr_right fun hlow => and_congr_right fun hup => ?_
  rw [(CInt.wrap32_eq_iff _).mpr hlow, (CInt.wrap32_eq_iff _).mpr hup]
  refine restSweep_eq_iff h ?_ _ _ operator
  rw [List.length_map, length_exact_buckets]

end Restriction

/-! ### The join -/

/-- The end of the last interval of the first column fits an `int`, or the loop `LOW`
stops before it: the second column starts within the intervals before. -/
def LowFits (c1 c2 : IntColumn) : Prop :=
  c1.min + c1.grid.nbOfIntervals * c1.grid.intervalLength ≤ 2147483647 ∨
    1 < intervals c1 ∧ c2.min ≤ c1.min + (c1.grid.nbOfIntervals - 1) * c1.grid.intervalLength

section Join

variable {c1 c2 : IntColumn}

/-- Two loops that agree on the states of an invariant, together with the ends that
they compute there, make the same rounds. -/
theorem trimRounds_congr {p q : Loop Fault Trim} {ends ends' : Trim → ℤ × ℤ} (Inv : Trim → Prop)
    (hcond : ∀ s, Inv s → p.cond s = q.cond s) (hstep : ∀ s, Inv s → p.step s = q.step s)
    (hcheck : ∀ s, p.check s = q.check s) (hround : ∀ s s', Inv s → p.Round s s' → Inv s')
    (hends : ∀ s, Inv s → ends s = ends' s) (fuel : ℕ) {s : Trim} (hs : Inv s) :
    trimRounds p ends fuel s = trimRounds q ends' fuel s := by
  have hcongr : p.run .outOfFuel fuel s = q.run .outOfFuel fuel s ∧
      p.trace fuel s = q.trace fuel s :=
    Loop.run_congr Inv hcond (fun s h _ => hstep s h) (fun _ s' _ _ _ => hcheck s') hround
      fuel hs
  obtain ⟨-, htrace⟩ := hcongr
  unfold trimRounds
  rw [← htrace]
  refine List.map_congr_left fun entry hentry => ?_
  obtain ⟨t, tested⟩ := entry
  cases tested with
  | false => rfl
  | true =>
    have ht : Inv t := Loop.trace_inv Inv hround fuel hs hentry
    simp [hends t ht]

/-- The rounds of the loop `LOW` on two columns. -/
def columnLow (A : CInt) (c1 c2 : IntColumn) : List TrimRound :=
  lowRounds A (intervals c1) (intervals c2) c1.grid.intervalLength c2.grid.intervalLength
    c1.min c2.min

/-- The rounds of the loop `HIGH` on two columns. -/
def columnHigh (A : CInt) (c1 c2 : IntColumn) : List TrimRound :=
  highRounds A (intervals c1) (intervals c2) c1.grid.intervalLength c2.grid.intervalLength
    c1.max c2.max

/-- The loop `LOW` has made `x` moves of the first or `y` moves of the second column,
and has not passed the start of the other. -/
def LowInv (c1 c2 : IntColumn) (s : Trim) : Prop :=
  ∃ x y : ℕ, s = ⟨x, y, c1.min + x * c1.grid.intervalLength, c2.min + y * c2.grid.intervalLength⟩ ∧
    x < intervals c1 ∧ y < intervals c2 ∧
    (x = 0 ∨ y = 0 ∧ c1.min + x * c1.grid.intervalLength < c2.min) ∧
    (y = 0 ∨ x = 0 ∧ c2.min + y * c2.grid.intervalLength < c1.min)

/-- All intervals but the last start and end within the span. -/
theorem start_le_max (c : IntColumn) {x : ℕ} (hx : x < intervals c) :
    c.min + x * c.grid.intervalLength ≤ c.max := by
  have hcast := cast_intervals c
  have hlast := c.tiling.lastInside
  have hle : (x : ℤ) * c.grid.intervalLength ≤
      (c.grid.nbOfIntervals - 1) * c.grid.intervalLength :=
    mul_le_mul_of_nonneg_right (by omega) c.tiling.widthPos.le
  omega

/-- The end of an interval that the loop `LOW` looks at fits. -/
theorem lowEnd_fits (h : c1.GridFits) (hfits : LowFits c1 c2) {x : ℕ} (hx : x < intervals c1)
    (hreach : x = 0 ∨ c1.min + x * c1.grid.intervalLength < c2.min) :
    FitsInt32 (c1.min + x * c1.grid.intervalLength + c1.grid.intervalLength) := by
  have hcast := cast_intervals c1
  have hwidth := c1.tiling.widthPos
  have hmin := h.min_fits.1
  have hx0 : 0 ≤ (x : ℤ) * c1.grid.intervalLength := mul_nonneg (by omega) hwidth.le
  have hsucc : c1.min + x * c1.grid.intervalLength + c1.grid.intervalLength =
      c1.min + ((x + 1 : ℕ) : ℤ) * c1.grid.intervalLength := by
    push_cast
    ring
  refine ⟨by omega, ?_⟩
  rw [hsucc]
  rcases hfits with hend | ⟨hmany, hmeet⟩
  · have hle : ((x + 1 : ℕ) : ℤ) * c1.grid.intervalLength ≤
        c1.grid.nbOfIntervals * c1.grid.intervalLength :=
      mul_le_mul_of_nonneg_right (by omega) hwidth.le
    omega
  · -- the loop stops before the last interval
    have hbefore : x + 1 < intervals c1 := by
      rcases hreach with rfl | hreach
      · omega
      · have hlt : (x : ℤ) * c1.grid.intervalLength <
            (c1.grid.nbOfIntervals - 1) * c1.grid.intervalLength := by omega
        have := lt_of_mul_lt_mul_right hlt hwidth.le
        omega
    exact (start_le_max c1 hbefore).trans h.max_fits.2

theorem add_succ_mul (a : ℤ) (x : ℕ) (length : ℤ) :
    a + ((x + 1 : ℕ) : ℤ) * length = a + x * length + length := by
  push_cast
  ring

theorem sub_succ_mul (a : ℤ) (x : ℕ) (length : ℤ) :
    a - ((x + 1 : ℕ) : ℤ) * length = a - x * length - length := by
  push_cast
  ring

/-- A move of the loop `LOW` keeps the invariant. -/
theorem LowInv.round {s s' : Trim} (hs : LowInv c1 c2 s)
    (hround : (lowLoop .unbounded (intervals c1) (intervals c2) c1.grid.intervalLength
      c2.grid.intervalLength).Round s s') : LowInv c1 c2 s' := by
  obtain ⟨x, y, rfl, hx, hy, hxreach, hyreach⟩ := hs
  have hwidth1 := c1.tiling.widthPos
  have hwidth2 := c2.tiling.widthPos
  have hx0 : 0 ≤ (x : ℤ) * c1.grid.intervalLength := mul_nonneg (by omega) hwidth1.le
  have hy0 : 0 ≤ (y : ℤ) * c2.grid.intervalLength := mul_nonneg (by omega) hwidth2.le
  rcases lowLoop_round hwidth1 hwidth2 rfl rfl hround with ⟨hlt, rfl, hne⟩ | ⟨hlt, rfl, hne⟩
  · dsimp only at hlt hne ⊢
    -- the second column has not moved, or it would be behind
    obtain rfl : y = 0 := by
      rcases hyreach with rfl | ⟨-, hbehind⟩
      · rfl
      · omega
    refine ⟨x + 1, 0, ?_, by omega, hy, Or.inr ⟨rfl, ?_⟩, Or.inl rfl⟩
    · rw [add_succ_mul]
      rfl
    · rw [add_succ_mul]
      simpa using hlt
  · dsimp only at hlt hne ⊢
    obtain rfl : x = 0 := by
      rcases hxreach with rfl | ⟨-, hbehind⟩
      · rfl
      · omega
    refine ⟨0, y + 1, ?_, hx, by omega, Or.inl rfl, Or.inr ⟨rfl, ?_⟩⟩
    · rw [add_succ_mul]
      rfl
    · rw [add_succ_mul]
      simpa using hlt

/-- If the intervals that it looks at fit, the loop `LOW` makes the rounds of unbounded
integers. -/
theorem columnLow_eq (h1 : c1.GridFits) (h2 : c2.GridFits) (hlow1 : LowFits c1 c2)
    (hlow2 : LowFits c2 c1) : columnLow .int32 c1 c2 = columnLow .unbounded c1 c2 := by
  have hends : ∀ s, LowInv c1 c2 s →
      CInt.wrap32 (s.val1 + c1.grid.intervalLength) = s.val1 + c1.grid.intervalLength ∧
        CInt.wrap32 (s.val2 + c2.grid.intervalLength) = s.val2 + c2.grid.intervalLength := by
    rintro s ⟨x, y, rfl, hx, hy, hxreach, hyreach⟩
    constructor
    · exact (CInt.wrap32_eq_iff _).mpr (lowEnd_fits h1 hlow1 hx (hxreach.imp_right And.right))
    · exact (CInt.wrap32_eq_iff _).mpr (lowEnd_fits h2 hlow2 hy (hyreach.imp_right And.right))
  symm
  unfold columnLow lowRounds
  -- the two loops agree on the states that the unbounded one reaches
  refine trimRounds_congr (LowInv c1 c2) ?_ ?_ ?_ (fun s s' hs => hs.round) ?_ _ ?_
  · intro s hs
    simp only [lowLoop, CInt.int32_wrap, CInt.unbounded_wrap, (hends s hs).1, (hends s hs).2]
  · intro s hs
    simp only [lowLoop, CInt.int32_wrap, CInt.unbounded_wrap, (hends s hs).1, (hends s hs).2]
  · exact fun _ => rfl
  · intro s hs
    simp only [CInt.int32_wrap, CInt.unbounded_wrap, (hends s hs).1, (hends s hs).2]
  · exact ⟨0, 0, by simp, intervals_pos c1, intervals_pos c2, Or.inl rfl, Or.inl rfl⟩

/-- The loop `HIGH` has made `x` moves of the first or `y` moves of the second column,
with an interval to go, and has not passed the end of the other. -/
def HighInv (c1 c2 : IntColumn) (s : Trim) : Prop :=
  ∃ x y : ℕ, s = ⟨intervals c1 - 1 - x, intervals c2 - 1 - y,
      c1.max - x * c1.grid.intervalLength, c2.max - y * c2.grid.intervalLength⟩ ∧
    (x = 0 ∨ x + 1 < intervals c1 ∧ y = 0 ∧ c2.max < c1.max - x * c1.grid.intervalLength) ∧
    (y = 0 ∨ y + 1 < intervals c2 ∧ x = 0 ∧ c1.max < c2.max - y * c2.grid.intervalLength)

/-- The start of an interval that the loop `HIGH` looks at fits. -/
theorem highEnd_fits (h : c1.GridFits) {x : ℕ} (hx : x = 0 ∨ x + 1 < intervals c1) :
    FitsInt32 (c1.max - x * c1.grid.intervalLength - c1.grid.intervalLength) := by
  have hcast := cast_intervals c1
  have hwidth := c1.tiling.widthPos
  have hmax := h.max_fits.2
  have hfirst := h.first
  have hx0 : 0 ≤ (x : ℤ) * c1.grid.intervalLength := mul_nonneg (by omega) hwidth.le
  refine ⟨?_, by omega⟩
  rcases hx with rfl | hx
  · have := c1.intervalLength_le
    simp only [Nat.cast_zero, zero_mul, sub_zero]
    omega
  · have hstart := start_le_max c1 hx
    have hsucc := add_succ_mul c1.min x c1.grid.intervalLength
    omega

/-- A span that reaches behind the end of another one it meets has two intervals. -/
theorem one_lt_intervals {x : ℕ} (hx : x = 0 ∨ x + 1 < intervals c1)
    (hover : c1.min ≤ c2.max)
    (hfar : c2.max < c1.max - x * c1.grid.intervalLength - c1.grid.intervalLength) :
    x + 2 ≤ intervals c1 := by
  rcases hx with rfl | hx
  · -- a single interval would cover the whole span
    by_contra hfew
    have hone : c1.grid.nbOfIntervals = 1 := by
      have := cast_intervals c1
      have := intervals_pos c1
      omega
    have hcover := c1.tiling.covers
    rw [hone, one_mul] at hcover
    simp only [Nat.cast_zero, zero_mul, sub_zero] at hfar
    omega
  · omega

/-- A move of the loop `HIGH` keeps the invariant. -/
theorem HighInv.round (hover1 : c1.min ≤ c2.max) (hover2 : c2.min ≤ c1.max) {s s' : Trim}
    (hs : HighInv c1 c2 s)
    (hround : (highLoop .unbounded c1.grid.intervalLength c2.grid.intervalLength).Round s s') :
    HighInv c1 c2 s' := by
  obtain ⟨x, y, rfl, hxreach, hyreach⟩ := hs
  have hwidth1 := c1.tiling.widthPos
  have hwidth2 := c2.tiling.widthPos
  have hx0 : 0 ≤ (x : ℤ) * c1.grid.intervalLength := mul_nonneg (by omega) hwidth1.le
  have hy0 : 0 ≤ (y : ℤ) * c2.grid.intervalLength := mul_nonneg (by omega) hwidth2.le
  rcases highLoop_round hwidth1 hwidth2 rfl rfl hround with ⟨hlt, rfl, hne⟩ | ⟨hlt, rfl, hne⟩
  · dsimp only at hlt hne ⊢
    obtain rfl : y = 0 := by
      rcases hyreach with rfl | ⟨-, -, hbehind⟩
      · rfl
      · omega
    simp only [Nat.cast_zero, zero_mul, sub_zero] at hlt
    have hmany := one_lt_intervals (hxreach.imp_right And.left) hover1 hlt
    refine ⟨x + 1, 0, ?_, Or.inr ⟨by omega, rfl, ?_⟩, Or.inl rfl⟩
    · rw [sub_succ_mul]
      push_cast
      ring_nf
    · rw [sub_succ_mul]
      exact hlt
  · dsimp only at hlt hne ⊢
    obtain rfl : x = 0 := by
      rcases hxreach with rfl | ⟨-, -, hbehind⟩
      · rfl
      · omega
    simp only [Nat.cast_zero, zero_mul, sub_zero] at hlt
    have hmany := one_lt_intervals (hyreach.imp_right And.left) hover2 hlt
    refine ⟨0, y + 1, ?_, Or.inl rfl, Or.inr ⟨by omega, rfl, ?_⟩⟩
    · rw [sub_succ_mul]
      push_cast
      ring_nf
    · rw [sub_succ_mul]
      exact hlt

/-- On overlapping spans the loop `HIGH` makes the rounds of unbounded integers. -/
theorem columnHigh_eq (h1 : c1.GridFits) (h2 : c2.GridFits)
    (hoverlap : isInRange c1.min c1.max c2.min c2.max = true) :
    columnHigh .int32 c1 c2 = columnHigh .unbounded c1 c2 := by
  obtain ⟨hover2, hover1⟩ := isInRange_eq_true_iff.mp hoverlap
  have hends : ∀ s, HighInv c1 c2 s →
      CInt.wrap32 (s.val1 - c1.grid.intervalLength) = s.val1 - c1.grid.intervalLength ∧
        CInt.wrap32 (s.val2 - c2.grid.intervalLength) = s.val2 - c2.grid.intervalLength := by
    rintro s ⟨x, y, rfl, hxreach, hyreach⟩
    constructor
    · exact (CInt.wrap32_eq_iff _).mpr (highEnd_fits h1 (hxreach.imp_right And.left))
    · exact (CInt.wrap32_eq_iff _).mpr (highEnd_fits h2 (hyreach.imp_right And.left))
  symm
  unfold columnHigh highRounds
  -- the two loops agree on the states that the unbounded one reaches
  refine trimRounds_congr (HighInv c1 c2) ?_ ?_ ?_
    (fun s s' hs => hs.round hover1 hover2) ?_ _ ?_
  · intro s hs
    simp only [highLoop, CInt.int32_wrap, CInt.unbounded_wrap, (hends s hs).1, (hends s hs).2]
  · intro s hs
    simp only [highLoop, CInt.int32_wrap, CInt.unbounded_wrap, (hends s hs).1, (hends s hs).2]
  · exact fun _ => rfl
  · intro s hs
    simp only [CInt.int32_wrap, CInt.unbounded_wrap, (hends s hs).1, (hends s hs).2]
  · exact ⟨0, 0, by simp, Or.inl rfl, Or.inl rfl⟩

/-- Unless it fits or the second column starts early enough, the loop `LOW` computes the
end of the last interval of the first column. -/
theorem mem_columnLow_last
    (hlate : ¬(1 < intervals c1 ∧
      c2.min ≤ c1.min + (c1.grid.nbOfIntervals - 1) * c1.grid.intervalLength)) :
    ∃ s end2, (s, some (c1.min + c1.grid.nbOfIntervals * c1.grid.intervalLength, end2)) ∈
      columnLow .unbounded c1 c2 := by
  have hcast := cast_intervals c1
  have hpos1 := intervals_pos c1
  have hpos2 := intervals_pos c2
  have hwidth := c1.tiling.widthPos
  let f : ℕ → Trim := fun i => ⟨i, 0, c1.min + i * c1.grid.intervalLength, c2.min⟩
  -- the first column moves alone, up to its last interval
  have hround : ∀ i < intervals c1 - 1, (lowLoop .unbounded (intervals c1) (intervals c2)
      c1.grid.intervalLength c2.grid.intervalLength).Round (f i) (f (i + 1)) := by
    intro i hi
    have hbehind : c1.min + (c1.grid.nbOfIntervals - 1) * c1.grid.intervalLength < c2.min := by
      by_contra hle
      exact hlate ⟨by omega, by omega⟩
    have hle : ((i + 1 : ℕ) : ℤ) * c1.grid.intervalLength ≤
        (c1.grid.nbOfIntervals - 1) * c1.grid.intervalLength :=
      mul_le_mul_of_nonneg_right (by omega) hwidth.le
    have hsucc := add_succ_mul c1.min i c1.grid.intervalLength
    have hlt : c1.min + i * c1.grid.intervalLength < c2.min := by omega
    refine ⟨?_, ?_, ?_⟩
    · simp only [lowLoop, f, CInt.unbounded_wrap, Bool.not_eq_true', isInRange_eq_false_iff]
      omega
    · simp only [lowLoop, f, CInt.unbounded_wrap, if_pos hlt, hsucc]
      push_cast
      rfl
    · simp only [lowLoop, f]
      exact if_neg (by omega)
  have hmem := Loop.mem_trace_path f (intervals c1 - 1) hround
    (show _ ≤ trimFuel (intervals c1) (intervals c2) (c1.min - c2.min) by
      unfold trimFuel
      omega)
  have hstart : f 0 = ⟨0, 0, c1.min, c2.min⟩ := by simp [f]
  rw [hstart] at hmem
  have hend : c1.min + ((intervals c1 - 1 : ℕ) : ℤ) * c1.grid.intervalLength +
      c1.grid.intervalLength = c1.min + c1.grid.nbOfIntervals * c1.grid.intervalLength := by
    rw [← add_succ_mul, Nat.sub_add_cancel hpos1, hcast]
  refine ⟨f (intervals c1 - 1), c2.min + c2.grid.intervalLength, List.mem_map.mpr ⟨_, hmem, ?_⟩⟩
  simp [f, hend]

/-- The ends that the loop `LOW` computes in the code fit. -/
theorem columnLow_ends_fit {s : Trim} {end1 end2 : ℤ}
    (h : (s, some (end1, end2)) ∈ columnLow .int32 c1 c2) :
    FitsInt32 end1 ∧ FitsInt32 end2 := by
  obtain ⟨⟨t, tested⟩, -, heq⟩ := List.mem_map.mp h
  cases tested with
  | false => simp at heq
  | true =>
    simp only [if_true, Prod.mk.injEq, Option.some.injEq] at heq
    obtain ⟨-, rfl, rfl⟩ := heq
    exact ⟨CInt.wrap32_fits _, CInt.wrap32_fits _⟩

theorem lowFits_of_columnLow_eq (h : columnLow .int32 c1 c2 = columnLow .unbounded c1 c2) :
    LowFits c1 c2 := by
  by_cases hlate : 1 < intervals c1 ∧
      c2.min ≤ c1.min + (c1.grid.nbOfIntervals - 1) * c1.grid.intervalLength
  · exact Or.inr hlate
  · obtain ⟨s, end2, hmem⟩ := mem_columnLow_last hlate
    rw [← h] at hmem
    exact Or.inl (columnLow_ends_fit hmem).1.2

/-- Exchanging the columns exchanges the locals of every round. -/
theorem columnLow_swap (A : CInt) (c1 c2 : IntColumn) :
    columnLow A c2 c1 =
      (columnLow A c1 c2).map (Prod.map Trim.swap (Option.map Prod.swap)) := by
  have hfuel : trimFuel (intervals c2) (intervals c1) (c2.min - c1.min) =
      trimFuel (intervals c1) (intervals c2) (c1.min - c2.min) := by
    unfold trimFuel
    omega
  have htrace := (lowLoop_swap A (intervals c1) (intervals c2) c1.grid.intervalLength
    c2.grid.intervalLength).trace (trimFuel (intervals c1) (intervals c2) (c1.min - c2.min))
    ⟨0, 0, c1.min, c2.min⟩
  unfold columnLow lowRounds trimRounds
  rw [hfuel]
  change List.map _ ((lowLoop A _ _ _ _).trace _ (Trim.swap ⟨0, 0, c1.min, c2.min⟩)) = _
  rw [htrace, List.map_map, List.map_map]
  refine List.map_congr_left ?_
  rintro ⟨s, tested⟩ -
  cases tested <;> rfl

/-- The two readings of the loop `LOW`. -/
theorem columnLow_eq_iff (h1 : c1.GridFits) (h2 : c2.GridFits) :
    columnLow .int32 c1 c2 = columnLow .unbounded c1 c2 ↔ LowFits c1 c2 ∧ LowFits c2 c1 := by
  constructor
  · intro h
    refine ⟨lowFits_of_columnLow_eq h, lowFits_of_columnLow_eq ?_⟩
    rw [columnLow_swap .int32 c1 c2, columnLow_swap .unbounded c1 c2, h]
  · rintro ⟨hlow1, hlow2⟩
    exact columnLow_eq h1 h2 hlow1 hlow2

/-- The interval length of the join is the one that `ANALYZE` chose. -/
theorem KeepsSpan.joinIntervalLength_eq {A : CInt} {c : IntColumn} (h : KeepsSpan A c) :
    joinIntervalLength A (c.exact .float4).buckets.length c.min c.max =
      .ok c.grid.intervalLength := by
  have hpos : 1 ≤ c.max - c.min + 1 := by
    have := c.min_le_max
    omega
  rw [joinIntervalLength, length_exact_buckets, cast_intervals, h.distance, h.length]
  exact roundUpDivision_eq A (by omega) c.tiling.countPos h.length (intervalWidth_isCeil hpos)

/-- The locals of the join in a reading of `int` that keeps the two spans. -/
theorem KeepsSpan.joinLocals_eq {A : CInt} (h1 : KeepsSpan A c1) (h2 : KeepsSpan A c2) :
    joinLocals A (c1.exact .float4) (c2.exact .float4) =
      .ok (if isInRange c1.min c1.max c2.min c2.max then
        some ⟨c1.min, c1.max, c2.min, c2.max, c1.grid.intervalLength, c2.grid.intervalLength,
          columnLow A c1 c2, columnHigh A c1 c2, A.wrap (c1.rows * c2.rows)⟩
      else none) := by
  have hrows1 : (c1.exact .float4).bounds.length = c1.rows := length_bounds c1
  have hrows2 : (c2.exact .float4).bounds.length = c2.rows := length_bounds c2
  unfold joinLocals
  rw [h1.restSpan_eq, h2.restSpan_eq]
  simp only [bind, Except.bind]
  by_cases hover : isInRange c1.min c1.max c2.min c2.max = true
  · rw [if_pos hover, if_pos hover, h1.joinIntervalLength_eq, h2.joinIntervalLength_eq]
    simp only [length_exact_buckets, hrows1, hrows2]
    rfl
  · rw [if_neg hover, if_neg hover]
    rfl

/-- The product of the row counts always fits. -/
theorem rowProduct_fits (c1 c2 : IntColumn) : FitsInt32 ((c1.rows : ℤ) * c2.rows) := by
  have hle : c1.rows * c2.rows ≤ 10001 * 10001 := Nat.mul_le_mul c1.rows_le c2.rows_le
  have hcast : ((c1.rows * c2.rows : ℕ) : ℤ) = (c1.rows : ℤ) * c2.rows := Nat.cast_mul _ _
  rw [← hcast]
  exact ⟨by omega, by omega⟩

/-- Given the two grids, no `int` of `rangeoverlapsjoinsel_inner` is too narrow exactly if
it is not called or the interval ends of the loop `LOW` fit. -/
theorem joinLocals_eq_iff (h1 : c1.GridFits) (h2 : c2.GridFits) :
    joinLocals .int32 (c1.exact .float4) (c2.exact .float4) =
        joinLocals .unbounded (c1.exact .float4) (c2.exact .float4) ↔
      (isInRange c1.min c1.max c2.min c2.max = true → LowFits c1 c2 ∧ LowFits c2 c1) := by
  rw [(keepsSpan_int32 h1).joinLocals_eq (keepsSpan_int32 h2),
    (keepsSpan_unbounded c1).joinLocals_eq (keepsSpan_unbounded c2)]
  by_cases hover : isInRange c1.min c1.max c2.min c2.max = true
  · have hproduct : CInt.int32.wrap (c1.rows * c2.rows) = (c1.rows : ℤ) * c2.rows :=
      CInt.int32.wrap_of_fits (rowProduct_fits c1 c2)
    simp only [hover, if_true, hproduct, CInt.unbounded_wrap, columnHigh_eq h1 h2 hover,
      Except.ok.injEq, Option.some.injEq, JoinLocals.mk.injEq, true_and, and_true, forall_true_left]
    exact columnLow_eq_iff h1 h2
  · simp [hover]

end Join

/-! ### The pipeline -/

/-- The pipeline returns its four stages. -/
theorem pipeline_eq_ok_iff {A : CInt} {c1 c2 : IntColumn} {constrange : RangeType Datum}
    {operator : RangeOp} {locals : PipelineLocals} :
    pipeline A c1 c2 constrange operator = .ok locals ↔
      c1.analyze A .float4 = .ok locals.stats1 ∧ c2.analyze A .float4 = .ok locals.stats2 ∧
        restLocals A locals.stats1 constrange operator = .ok locals.rest ∧
        joinLocals A locals.stats1 locals.stats2 = .ok locals.join := by
  unfold pipeline
  simp only [bind_eq_ok_iff]
  constructor
  · rintro ⟨stats1, hstats1, stats2, hstats2, rest, hrest, join, hjoin, hreturn⟩
    obtain rfl := Except.ok.inj hreturn
    exact ⟨hstats1, hstats2, hrest, hjoin⟩
  · rintro ⟨hstats1, hstats2, hrest, hjoin⟩
    exact ⟨_, hstats1, _, hstats2, _, hrest, _, hjoin, rfl⟩

/-- The `int` locals of the pipeline hold the values of unbounded integers exactly if the
grids of both columns and the bounds of the constant fit, and so do the interval ends
that the loops of the two estimates look at, and no row that reaches into an interval has
its upper bound on the other side of zero from the last integer of the interval, unless
it is the next one. -/
theorem pipeline_eq_iff (c1 c2 : IntColumn) (constrange : RangeType Datum)
    (operator : RangeOp) :
    pipeline .int32 c1 c2 constrange operator = pipeline .unbounded c1 c2 constrange operator ↔
      (c1.GridFits ∧ ∀ i < c1.grid.nbOfIntervals.toNat, ∀ k < c1.rows, ¬ c1.CrossesAt i k) ∧
        (c2.GridFits ∧ ∀ i < c2.grid.nbOfIntervals.toNat, ∀ k < c2.rows, ¬ c2.CrossesAt i k) ∧
        FitsInt32 (lowValue constrange) ∧ FitsInt32 (upValue constrange) ∧
        RestFits c1 (lowValue constrange) (upValue constrange) operator ∧
        (isInRange c1.min c1.max c2.min c2.max = true → LowFits c1 c2 ∧ LowFits c2 c1) := by
  have hstats1 := c1.analyze_unbounded .float4
  have hstats2 := c2.analyze_unbounded .float4
  obtain ⟨rest, hrest⟩ : ∃ rest,
      restLocals .unbounded (c1.exact .float4) constrange operator = .ok rest :=
    ⟨_, (keepsSpan_unbounded c1).restLocals_eq constrange operator⟩
  obtain ⟨join, hjoin⟩ : ∃ join,
      joinLocals .unbounded (c1.exact .float4) (c2.exact .float4) = .ok join :=
    ⟨_, (keepsSpan_unbounded c1).joinLocals_eq (keepsSpan_unbounded c2)⟩
  have hexact : pipeline .unbounded c1 c2 constrange operator =
      .ok ⟨c1.exact .float4, c2.exact .float4, rest, join⟩ :=
    pipeline_eq_ok_iff.mpr ⟨hstats1, hstats2, hrest, hjoin⟩
  -- stage by stage, each one given the exact results of those before it
  rw [hexact, pipeline_eq_ok_iff, ← hstats1, ← hstats2, ← hrest, ← hjoin, c1.analyze_eq_iff .float4,
    c2.analyze_eq_iff .float4]
  refine and_congr_right fun h1 => and_congr_right fun h2 => ?_
  rw [restLocals_eq_iff h1.1, joinLocals_eq_iff h1.1 h2.1, and_assoc, and_assoc]

/-- The `int8range` values `[2^32, 2^32 + 10)` and `[2^32 + 2, 2^32 + 12)`. -/
def bigintColumn : IntColumn where
  typcache := int8range
  cmpInt := rfl
  target := defaultTarget
  sample :=
    [some ⟨25, packRange ⟨4294967296, false, true, true⟩ ⟨4294967306, false, false, false⟩⟩,
      some ⟨25, packRange ⟨4294967298, false, true, true⟩ ⟨4294967308, false, false, false⟩⟩]
  two := by decide
  ordered := by decide
  finite := by decide
  fits := by decide

/-- Two `int4range` values `[-1,1)`. -/
def zeroColumn : IntColumn where
  typcache := int4range
  cmpInt := rfl
  target := defaultTarget
  sample := List.replicate 2
    (some ⟨17, packRange ⟨-1, false, true, true⟩ ⟨1, false, false, false⟩⟩)
  two := by decide
  ordered := by decide
  finite := by decide
  fits := by decide

/-- The constant `[5,8)`. -/
def smallConstant : RangeType Datum :=
  packRange ⟨intWord 5, false, true, true⟩ ⟨intWord 8, false, false, false⟩

/-- The minimum `2^32` is cut to zero, so that the constant `[5,8)` meets intervals of the
column, which all lie beyond it. The rows `[-1,1)` have one integer in the interval of
`-1`, but are counted with two, since the upper bound is compared with `-1` as an unsigned
word. -/
theorem pipeline_bigintColumn :
    (pipeline .int32 bigintColumn bigintColumn smallConstant .overlap).map
      (fun locals => (locals.stats1.grid.min, locals.rest.sweep.sum)) =
        .ok (0, .fin (67108865 / 67108864)) ∧
    (pipeline .unbounded bigintColumn bigintColumn smallConstant .overlap).map
      (fun locals => (locals.stats1.grid.min, locals.rest.sweep.sum)) =
        .ok (4294967296, .fin 0) ∧
    (pipeline .int32 zeroColumn zeroColumn smallConstant .overlap).map
      (fun locals => locals.stats1.buckets.map Bucket.mults) = .ok [[2, 2], [1, 1], []] ∧
    (pipeline .unbounded zeroColumn zeroColumn smallConstant .overlap).map
      (fun locals => locals.stats1.buckets.map Bucket.mults) = .ok [[1, 1], [1, 1], []] := by
  decide +kernel

end PgRange.Selectivity
