import PgRange.Math.FirstRun
import PgRange.Math.CFloat
import PgRange.Selectivity.CalcRangesel
import PgRange.Stats.CountFrequencies

/-!
# Restriction selectivity from the frequency histogram

`rangerestsel` estimates `column << constant` and `column && constant`. It reads the
span of the column from the bounds histogram, lays its own grid over it, and
adds up frequencies.

## Main results

* `restGrid_eq_iff` — the grid is the one the frequencies were counted on exactly
  when the number of intervals does not divide the distance of the span's ends
-/

set_option autoImplicit false

namespace PgRange.Selectivity

open Math Stats

/-! ### The functions of the source -/

/-- `IsInRange`. -/
def isInRange (challengeLow challengeUp lowBound upBound : ℤ) : Bool :=
  !(decide (challengeUp < lowBound) || decide (challengeLow > upBound))

theorem isInRange_eq_true_iff {a b c d : ℤ} : isInRange a b c d = true ↔ c ≤ b ∧ a ≤ d := by
  simp [isInRange]

theorem isInRange_eq_false_iff {a b c d : ℤ} : isInRange a b c d = false ↔ b < c ∨ d < a := by
  rw [← Bool.not_eq_true, isInRange_eq_true_iff]
  omega

/-- The interval length of `rangerestsel_inner`. -/
def restIntervalLength (A : CInt) (freqNbIntervals min1 max1 : ℤ) : Except Fault ℤ :=
  -- the writer divides `max - min + 1`
  roundUpDivision A (A.wrap (max1 - min1)) freqNbIntervals

/-- The locals `x` and `y` of `rangerestsel_inner` in round `i`. -/
def restInterval (A : CInt) (min1 intervalLength : ℤ) (i : ℕ) : ℤ × ℤ :=
  (A.wrap (min1 + A.wrap (i * intervalLength)),
    A.wrap (min1 + A.wrap ((i + 1) * intervalLength)))

/-- What a loop of `rangerestsel_inner` computes: the sum, and the values that `x` and
`y` took. -/
structure RestSweep where
  ends : List (ℤ × ℤ)
  sum : FloatQ
  deriving DecidableEq, Repr

section Loops

variable (A : CInt) (R : CFloat) (min1 intervalLength a b : ℤ)

/-- The test of round `i`. -/
def restInRange (i : ℕ) : Bool :=
  isInRange (restInterval A min1 intervalLength i).1 (restInterval A min1 intervalLength i).2 a b

/-- The loop of the case `OID_RANGE_LEFT_OP`, from round `i` on. -/
def leftLoop : ℕ → List FloatQ → RestSweep → RestSweep
  | _, [], s => s
  | i, freq :: freqs, s =>
    let s := { s with ends := s.ends ++ [restInterval A min1 intervalLength i] }
    -- an interval that meets the constant adds nothing and ends the loop
    if restInRange A min1 intervalLength a b i then s
    else leftLoop (i + 1) freqs { s with sum := R.add s.sum freq }

/-- The loop of the case `OID_RANGE_OVERLAP_OP`, from round `i` on. -/
def overlapLoop : ℕ → List FloatQ → Bool → RestSweep → RestSweep
  | _, [], _, s => s
  | i, freq :: freqs, out, s =>
    let s := { s with ends := s.ends ++ [restInterval A min1 intervalLength i] }
    if restInRange A min1 intervalLength a b i then
      overlapLoop (i + 1) freqs true { s with sum := R.add s.sum freq }
    -- behind the intervals that meet the constant, no other can
    else if out then s
    else overlapLoop (i + 1) freqs false s

end Loops

/-- The `switch` of `rangerestsel_inner`. -/
def restSweep (A : CInt) (R : CFloat) (freqValues : List FloatQ) (min1 intervalLength a b : ℤ) :
    RangeOp → RestSweep
  | .left =>
    let s := leftLoop A R min1 intervalLength a b 0 freqValues ⟨[], .fin 0⟩
    -- a sum below one is replaced, as if the constant began in the first interval; an `int`
    -- is converted to `float8` without rounding
    if s.sum.lt (.fin 1) then
      { s with sum := R.mul (freqValues.headD (.fin 0)) (R.div (.fin a) (.fin intervalLength)) }
    else s
  | .overlap => overlapLoop A R min1 intervalLength a b 0 freqValues false ⟨[], .fin 0⟩
  | _ => ⟨[], .fin 0⟩

/-- `rangerestsel_inner`. -/
def rangerestselInner (A : CInt) (R : CFloat) (freqValues : List FloatQ) (rows1 : ℕ)
    (min1 max1 : ℤ) (constLower constUpper : RangeBound Datum) (operator : RangeOp) :
    Except Fault FloatQ := do
  let intervalLength ← restIntervalLength A freqValues.length min1 max1
  let a := A.wrap constLower.val.toInt
  let b := A.wrap constUpper.val.toInt
  return R.div (restSweep A R freqValues min1 intervalLength a b operator).sum (.fin rows1)

/-- `CLAMP_PROBABILITY` on a floating-point value. -/
def clampFloat (p : FloatQ) : FloatQ :=
  if p.lt (.fin 0) then .fin 0 else if (FloatQ.fin 1).lt p then .fin 1 else p

/-- The row of `pg_statistic` for a range column, as far as the selectivity functions
read it. -/
structure StatsTuple extends ColumnFractions where
  bounds : Option (List (RangeType Datum))
  frequencies : Option (List FloatQ)

/-- The operand that is not the column. -/
inductive OtherNode
  | notConst
  | const (constisnull sameType : Bool) (constvalue : RangeType Datum)

/-- What `rangerestsel` finds out about the clause. -/
structure RestrictionClause where
  operator : RangeOp
  /-- The result of `get_restriction_variable`: the other operand and whether the
  column is on the left. -/
  restrictionVariable : Option (OtherNode × Bool)
  securityCheck : Bool
  statsTuple : Option StatsTuple

/-- The bound values of the span of the column, from its bounds histogram. -/
def restSpan (A : CInt) (hist : List (RangeType Datum)) : Except Fault (ℤ × ℤ) :=
  match hist.head?, hist.getLast? with
  | some first, some last =>
    if first.flags.empty || last.flags.empty then .error .emptyInBoundsHistogram
    else .ok (A.wrap (rangeDeserialize first).lower.val.toInt,
      A.wrap (rangeDeserialize last).upper.val.toInt)
  | _, _ => .error .uninitializedRead

/-- The end of `rangerestsel`, with both histograms at hand. -/
def rangerestselHist (A : CInt) (R : CFloat) (operator : RangeOp) (constrange : RangeType Datum)
    (hist : List (RangeType Datum)) (freqValues : List FloatQ) : Except Fault FloatQ := do
  let (min1, max1) ← restSpan A hist
  let const := rangeDeserialize constrange
  let selec ← rangerestselInner A R freqValues hist.length min1 max1 const.lower const.upper
    operator
  return clampFloat selec

/-- The estimate if something goes wrong: the double `0.005`. -/
def defaultSelec : ℚ := BinaryFormat.double.nearest (5 / 1000)

/-- `rangerestsel`. -/
def rangerestsel (A : CInt) (R : CFloat) (clause : RestrictionClause) : Except Fault FloatQ :=
  if clause.operator ≠ .left ∧ clause.operator ≠ .overlap then .ok (.fin defaultSelec)
  else
    match clause.restrictionVariable with
    | none => .ok (.fin (defaultRangeSelectivity clause.operator))
    | some (.notConst, _) => .ok (.fin (defaultRangeSelectivity .left))
    | some (.const constisnull sameType constrange, varonleft) =>
      if constisnull || !varonleft then .ok (.fin (defaultRangeSelectivity .left))
      else if !sameType then .ok (.fin (defaultRangeSelectivity .left))
      else if rangeIsEmpty constrange then .ok (.fin 0)
      else if !clause.securityCheck then .ok (.fin defaultSelec)
      else
        match clause.statsTuple with
        | none => .ok (.fin defaultSelec)
        | some stats =>
          match stats.bounds, stats.frequencies with
          | some hist, some freqValues =>
            rangerestselHist A R clause.operator constrange hist freqValues
          | _, _ => .ok (.fin defaultSelec)

/-! ### The grid of the estimate and the grid of the frequencies -/

/-- The integers that `count_frequencies` counts into a bucket, from the first one to
the one behind the last. -/
def countedInterval (intervalLength : ℤ) (bucket : Bucket) : ℤ × ℤ :=
  (bucket.sup - intervalLength + 1, bucket.sup + 1)

/-- On a span that fits, the interval length is the distance of the ends, divided by
the number of intervals and rounded up. -/
theorem restIntervalLength_isCeil (s : Span) :
    ∃ width, restIntervalLength .int32 s.grid.nbOfIntervals s.min s.max = .ok width ∧
      IsCeil (s.max - s.min) s.grid.nbOfIntervals width := by
  have hlt := s.lt
  have hlength := s.lengthFits
  have hwrap : CInt.int32.wrap (s.max - s.min) = s.max - s.min :=
    CInt.int32.wrap_of_fits ⟨by omega, by omega⟩
  rw [restIntervalLength, hwrap]
  exact roundUpDivision_isCeil .int32 (by omega) s.tiling.countPos hwrap

/-- With the interval length of the writer, the reader's intervals are the counted
ones: the sums of round `i` stay below the end of the grid. -/
theorem restInterval_eq_countedInterval (s : Span) {lowers uppers : List (RangeBound Datum)}
    {rows : ℕ} {buckets : List Bucket}
    (hrun : countFrequencies .int32 .float4 lowers uppers rows s.grid.intervalLength
      s.grid.nbOfIntervals s.min = .ok buckets) :
    (List.range s.grid.nbOfIntervals.toNat).map
        (restInterval .int32 s.min s.grid.intervalLength) =
      buckets.map (countedInterval s.grid.intervalLength) := by
  have hsups := sweepIntervals_sups .int32 .float4 lowers uppers rows s.grid.intervalLength _ _ _
    hrun
  have hcounted : buckets.map (countedInterval s.grid.intervalLength) =
      (buckets.map Bucket.sup).map fun sup => (sup - s.grid.intervalLength + 1, sup + 1) := by
    rw [List.map_map]
    rfl
  rw [hcounted, hsups, List.map_map]
  refine List.map_congr_left fun i hi => ?_
  have hi' : (i : ℤ) + 1 ≤ s.grid.nbOfIntervals := by
    have := List.mem_range.mp hi
    omega
  have hwidth := s.tiling.widthPos
  have hle : ((i : ℤ) + 1) * s.grid.intervalLength ≤
      s.grid.nbOfIntervals * s.grid.intervalLength :=
    mul_le_mul_of_nonneg_right hi' hwidth.le
  have hsucc : ((i : ℤ) + 1) * s.grid.intervalLength =
      i * s.grid.intervalLength + s.grid.intervalLength := by ring
  have hi0 : 0 ≤ (i : ℤ) * s.grid.intervalLength := mul_nonneg (by omega) hwidth.le
  have hend := s.end_le
  have hmin := s.minFits
  simp only [restInterval, Function.comp_apply, CInt.wrap_add_wrap, CInt.wrap_wrap_add]
  rw [CInt.int32.wrap_of_fits ⟨by omega, by omega⟩, CInt.int32.wrap_of_fits ⟨by omega, by omega⟩,
    CInt.int32.wrap_of_fits ⟨by omega, by omega⟩, hsucc]
  ext <;> dsimp only <;> omega

/-- The reader divides the distance of the ends where the writer divides the number
of integers, which is one more. Both round up, so the two interval lengths agree,
and with them all intervals, unless the reader's division is exact. -/
theorem restGrid_eq_iff (s : Span) (lowers uppers : List (RangeBound Datum)) (rows : ℕ) :
    ∃ grid buckets width,
      chooseIntervals .int32 (int4Word s.min) (int4Word s.max) = .ok grid ∧
      countFrequencies .int32 .float4 lowers uppers rows grid.intervalLength grid.nbOfIntervals
        grid.min = .ok buckets ∧
      restIntervalLength .int32 grid.nbOfIntervals s.min s.max = .ok width ∧
      (width = grid.intervalLength ∧
          (List.range grid.nbOfIntervals.toNat).map (restInterval .int32 s.min width) =
            buckets.map (countedInterval grid.intervalLength) ↔
        ¬ intervalCount (s.max - s.min + 1) ∣ s.max - s.min) := by
  obtain ⟨buckets, hbuckets, -⟩ := countFrequencies_total .int32 .float4 lowers uppers rows
    s.grid.intervalLength s.grid.nbOfIntervals s.grid.min
  obtain ⟨width, hwidth, hceil⟩ := restIntervalLength_isCeil s
  have hlength : 1 ≤ s.max - s.min + 1 := by
    have := s.lt
    omega
  have hiff : width = s.grid.intervalLength ↔ ¬ s.grid.nbOfIntervals ∣ s.max - s.min :=
    hceil.succ_iff s.tiling.countPos (intervalWidth_isCeil hlength)
  refine ⟨s.grid, buckets, width, s.chooseIntervals_eq, hbuckets, hwidth, ?_⟩
  constructor
  · rintro ⟨heq, -⟩
    exact hiff.mp heq
  · intro hdvd
    obtain rfl := hiff.mpr hdvd
    exact ⟨rfl, restInterval_eq_countedInterval s hbuckets⟩

/-- For the span from 0 to 380 the writer counts into 20 intervals of 20 integers, and
the reader takes them to have 19: its second interval starts at 19, not at 20. -/
theorem restGrid_zero_380 :
    chooseIntervals .int32 (int4Word 0) (int4Word 380) = .ok ⟨0, 380, 381, 20, 20⟩ ∧
      restIntervalLength .int32 20 0 380 = .ok 19 ∧ restInterval .int32 0 19 1 = (19, 38) := by
  decide +kernel

/-! ### The sums of the two loops -/

section Sums

variable (A : CInt) (R : CFloat) (min1 intervalLength a b : ℤ)

theorem restInRange_shift (i : ℕ) :
    (fun k => restInRange A min1 intervalLength a b (i + (k + 1))) =
      fun k => restInRange A min1 intervalLength a b (i + 1 + k) := by
  funext k
  congr 1
  omega

/-- The loop for `<<` adds the frequencies before the first interval that meets the
constant. -/
theorem leftLoop_sum (freqs : List FloatQ) (i : ℕ) (s : RestSweep) :
    (leftLoop A R min1 intervalLength a b i freqs s).sum =
      (initialRun (fun k => !restInRange A min1 intervalLength a b (i + k)) freqs).foldl R.add
        s.sum := by
  induction freqs generalizing i s with
  | nil => rfl
  | cons freq freqs ih =>
    have hshift := congrArg (fun test k => !test k)
      (restInRange_shift A min1 intervalLength a b i)
    dsimp only at hshift
    rw [leftLoop, initialRun, hshift]
    cases hmeets : restInRange A min1 intervalLength a b i with
    | true => simp
    | false => simp [ih]

/-- The loop for `&&` adds the frequencies of the first run of intervals that meet the
constant. -/
theorem overlapLoop_sum (freqs : List FloatQ) (i : ℕ) (out : Bool) (s : RestSweep) :
    (overlapLoop A R min1 intervalLength a b i freqs out s).sum =
      (if out then initialRun (fun k => restInRange A min1 intervalLength a b (i + k)) freqs
        else firstRun (fun k => restInRange A min1 intervalLength a b (i + k)) freqs).foldl
          R.add s.sum := by
  induction freqs generalizing i out s with
  | nil => cases out <;> rfl
  | cons freq freqs ih =>
    rw [overlapLoop, initialRun, firstRun, restInRange_shift]
    -- `out` says that the run has begun; behind its end the loop stops
    cases hmeets : restInRange A min1 intervalLength a b i with
    | true => simp [ih]
    | false =>
      cases out with
      | true => simp
      | false => simp [ih]

variable (freqs : List FloatQ)

/-- The frequencies of the intervals before the first one that meets the constant. -/
def leftSum : FloatQ :=
  R.sum (initialRun (fun i => !restInRange A min1 intervalLength a b i) freqs)

/-- The frequencies of the intervals from the first one that meets the constant to the
last one in a row. -/
def overlapSum : FloatQ := R.sum (firstRun (restInRange A min1 intervalLength a b) freqs)

/-- The value that replaces a sum below one: the first frequency, times the lower bound of
the constant in units of the interval length. -/
def leftScaled : FloatQ := R.mul (freqs.headD (.fin 0)) (R.div (.fin a) (.fin intervalLength))

/-- What is estimated from a sum for `<<`. -/
def leftValue (sum : FloatQ) : FloatQ :=
  if sum.lt (.fin 1) then leftScaled R intervalLength a freqs else sum

theorem restSweep_left_sum :
    (restSweep A R freqs min1 intervalLength a b .left).sum =
      leftValue R intervalLength a freqs (leftSum A R min1 intervalLength a b freqs) := by
  have hloop : (leftLoop A R min1 intervalLength a b 0 freqs ⟨[], .fin 0⟩).sum =
      leftSum A R min1 intervalLength a b freqs := by
    have hsum := leftLoop_sum A R min1 intervalLength a b freqs 0 ⟨[], .fin 0⟩
    simp only [Nat.zero_add] at hsum
    exact hsum
  rw [restSweep, leftValue, ← hloop]
  by_cases hsmall : (leftLoop A R min1 intervalLength a b 0 freqs ⟨[], .fin 0⟩).sum.lt
      (.fin 1) = true
  · rw [if_pos hsmall, if_pos hsmall]
    rfl
  · rw [if_neg hsmall, if_neg hsmall]

theorem restSweep_overlap_sum :
    (restSweep A R freqs min1 intervalLength a b .overlap).sum =
      overlapSum A R min1 intervalLength a b freqs := by
  have hloop := overlapLoop_sum A R min1 intervalLength a b freqs 0 false ⟨[], .fin 0⟩
  simp only [Bool.false_eq_true, ↓reduceIte, Nat.zero_add] at hloop
  exact hloop

/-- The sum of an operator that is estimated. -/
def restSum (operator : RangeOp) : FloatQ :=
  match operator with
  | .left => leftValue R intervalLength a freqs (leftSum A R min1 intervalLength a b freqs)
  | .overlap => overlapSum A R min1 intervalLength a b freqs
  | _ => .fin 0

theorem restSweep_sum (operator : RangeOp) :
    (restSweep A R freqs min1 intervalLength a b operator).sum =
      restSum A R min1 intervalLength a b freqs operator := by
  cases operator <;> first | rfl | skip
  · exact restSweep_overlap_sum A R min1 intervalLength a b freqs
  · exact restSweep_left_sum A R min1 intervalLength a b freqs

end Sums

/-! ### The estimate in closed form -/

/-- The distance of the ends, divided by the number of intervals; a remainder adds one,
whatever the sign. -/
def restLength (A : CInt) (nb : ℕ) (min1 max1 : ℤ) : ℤ :=
  (A.wrap (max1 - min1)).tdiv nb + if (A.wrap (max1 - min1)).tmod nb = 0 then 0 else 1

section Closed

variable (A : CInt) (R : CFloat) (min1 max1 : ℤ)

theorem restIntervalLength_eq {nb : ℕ} (hnb : nb ≠ 0) :
    restIntervalLength A nb min1 max1 = .ok (restLength A nb min1 max1) :=
  roundUpDivision_of_pos A (by omega) (A.wrap_wrap _)

/-- Without intervals there is no interval length, and no estimate. -/
theorem rangerestselInner_nil (rows : ℕ) (lower upper : RangeBound Datum) (operator : RangeOp) :
    rangerestselInner A R [] rows min1 max1 lower upper operator = .error .divisionByZero := rfl

theorem rangerestselInner_eq {freqs : List FloatQ} (hne : freqs ≠ []) (rows : ℕ)
    (lower upper : RangeBound Datum) (operator : RangeOp) :
    rangerestselInner A R freqs rows min1 max1 lower upper operator =
      .ok (R.div (restSum A R min1 (restLength A freqs.length min1 max1)
        (A.wrap lower.val.toInt) (A.wrap upper.val.toInt) freqs operator) (.fin rows)) := by
  rw [rangerestselInner, restIntervalLength_eq A min1 max1 (by simpa using hne), ← restSweep_sum]
  rfl

theorem rangerestselInner_map_eq {qs : List ℚ} (hne : qs ≠ []) (rows : ℕ)
    (lower upper : RangeBound Datum) (operator : RangeOp) :
    rangerestselInner A R (qs.map .fin) rows min1 max1 lower upper operator =
      .ok (R.div (restSum A R min1 (restLength A qs.length min1 max1) (A.wrap lower.val.toInt)
        (A.wrap upper.val.toInt) (qs.map .fin) operator) (.fin rows)) := by
  have hne' : qs.map FloatQ.fin ≠ [] := by simpa using hne
  rw [rangerestselInner_eq A R min1 max1 hne', List.length_map]

variable {A R} {length : ℤ}

theorem headD_map_fin (qs : List ℚ) : (qs.map FloatQ.fin).headD (.fin 0) = .fin (qs.headD 0) := by
  cases qs <;> rfl

theorem headD_nonneg {qs : List ℚ} (hq : ∀ q ∈ qs, 0 ≤ q) : 0 ≤ qs.headD 0 := by
  cases qs with
  | nil => exact le_rfl
  | cons q qs => exact hq q List.mem_cons_self

/-- The quotient of two `int`s is finite. -/
theorem exists_round_div (hne : length ≠ 0) {v : ℤ} (hv : |v| ≤ 2147483648) :
    ∃ p, R.round ((v : ℚ) / length) = .fin p := by
  have hone : (1 : ℚ) ≤ |(length : ℚ)| := by exact_mod_cast Int.one_le_abs hne
  have hcast : |(v : ℚ)| ≤ 2147483648 := by exact_mod_cast hv
  have habs : |(v : ℚ) / length| ≤ 2 ^ (127 : ℤ) := by
    rw [abs_div]
    calc |(v : ℚ)| / |(length : ℚ)| ≤ |(v : ℚ)| := div_le_self (abs_nonneg _) hone
      _ ≤ 2147483648 := hcast
      _ ≤ 2 ^ (127 : ℤ) := by norm_num
  exact CFloat.exists_round_eq_fin (abs_le.mp habs).1 (abs_le.mp habs).2

theorem leftScaled_of_round (hne : length ≠ 0) {v : ℤ} {p : ℚ}
    (hp : R.round ((v : ℚ) / length) = .fin p) (qs : List ℚ) :
    leftScaled R length v (qs.map .fin) = R.round (qs.headD 0 * p) := by
  have hcast : (length : ℚ) ≠ 0 := by exact_mod_cast hne
  rw [leftScaled, headD_map_fin, CFloat.div, FloatQ.fin_div_fin hcast]
  change R.rounded (.fin (qs.headD 0) * R.round (v / length)) = _
  rw [hp]
  rfl

/-- The value that replaces a small sum is in the order of the quotients. -/
theorem leftScaled_mono {qs : List ℚ} (hq : ∀ q ∈ qs, 0 ≤ q) (hne : length ≠ 0) {v w : ℤ}
    (hv : |v| ≤ 2147483648) (hw : |w| ≤ 2147483648) (hle : (v : ℚ) / length ≤ w / length) :
    (leftScaled R length v (qs.map .fin)).le (leftScaled R length w (qs.map .fin)) = true := by
  obtain ⟨p, hp⟩ := exists_round_div (R := R) hne hv
  obtain ⟨q, hq'⟩ := exists_round_div (R := R) hne hw
  have hpq := R.round_mono hle
  rw [hp, hq', FloatQ.fin_le_fin, decide_eq_true_eq] at hpq
  rw [leftScaled_of_round hne hp, leftScaled_of_round hne hq']
  exact R.round_mono (mul_le_mul_of_nonneg_left hpq (headD_nonneg hq))

theorem leftScaled_neg (hne : length ≠ 0) {v : ℤ} (hv : |v| ≤ 2147483648) (qs : List ℚ) :
    leftScaled R length (-v) (qs.map .fin) = (leftScaled R length v (qs.map .fin)).neg := by
  obtain ⟨p, hp⟩ := exists_round_div (R := R) hne hv
  have hneg : R.round (((-v : ℤ) : ℚ) / length) = .fin (-p) := by
    rw [Int.cast_neg, neg_div, R.round_neg, hp]
    rfl
  rw [leftScaled_of_round hne hp, leftScaled_of_round hne hneg, mul_neg, R.round_neg]

end Closed

theorem abs_le_of_fits {v : ℤ} (hv : FitsInt32 v) : |v| ≤ 2147483648 :=
  abs_le.mpr ⟨hv.1, by have := hv.2; omega⟩

/-! ### The rounds of the two loops -/

/-- The number of rounds that `rangerestsel_inner` makes over `n` intervals, if `test`
tells which of them meet the constant. -/
def restRounds (test : ℕ → Bool) (n : ℕ) : RangeOp → ℕ
  | .left => initialRounds (fun k => !test k) n
  | .overlap => firstRunRounds test n
  | _ => 0

section Rounds

variable (A B : CInt) (R : CFloat) (min1 intervalLength a b : ℤ)

theorem leftLoop_ends (freqs : List FloatQ) (i : ℕ) (s : RestSweep) :
    (leftLoop A R min1 intervalLength a b i freqs s).ends =
      s.ends ++ (List.range (initialRounds
        (fun k => !restInRange A min1 intervalLength a b (i + k)) freqs.length)).map
          fun k => restInterval A min1 intervalLength (i + k) := by
  induction freqs generalizing i s with
  | nil => simp [leftLoop, initialRounds]
  | cons freq freqs ih =>
    rw [leftLoop, List.length_cons, initialRounds]
    cases hmeets : restInRange A min1 intervalLength a b i with
    | true => simp
    | false =>
      simp only [Bool.false_eq_true, ↓reduceIte, ih, Nat.add_zero, Bool.not_false,
        List.range_succ_eq_map, List.map_cons, List.map_map, List.append_assoc,
        List.singleton_append]
      simp only [Function.comp_def, Nat.succ_eq_add_one, Nat.add_assoc, Nat.add_comm 1]

theorem overlapLoop_ends (freqs : List FloatQ) (i : ℕ) (out : Bool) (s : RestSweep) :
    (overlapLoop A R min1 intervalLength a b i freqs out s).ends =
      s.ends ++ (List.range (if out
        then initialRounds (fun k => restInRange A min1 intervalLength a b (i + k)) freqs.length
        else firstRunRounds (fun k => restInRange A min1 intervalLength a b (i + k))
          freqs.length)).map fun k => restInterval A min1 intervalLength (i + k) := by
  induction freqs generalizing i out s with
  | nil => cases out <;> simp [overlapLoop, initialRounds, firstRunRounds]
  | cons freq freqs ih =>
    rw [overlapLoop, List.length_cons, initialRounds, firstRunRounds]
    cases hmeets : restInRange A min1 intervalLength a b i with
    | true =>
      simp only [↓reduceIte, ih, Nat.add_zero, ite_self, List.range_succ_eq_map,
        List.map_cons, List.map_map, List.append_assoc, List.singleton_append]
      simp only [Function.comp_def, Nat.succ_eq_add_one, Nat.add_assoc, Nat.add_comm 1]
    | false =>
      cases out with
      | true => simp
      | false =>
        simp only [Bool.false_eq_true, ↓reduceIte, ih, Nat.add_zero,
          List.range_succ_eq_map, List.map_cons, List.map_map, List.append_assoc,
          List.singleton_append]
        simp only [Function.comp_def, Nat.succ_eq_add_one, Nat.add_assoc, Nat.add_comm 1]

/-- The intervals that `rangerestsel_inner` looks at. -/
theorem restSweep_ends (freqValues : List FloatQ) (operator : RangeOp) :
    (restSweep A R freqValues min1 intervalLength a b operator).ends =
      (List.range (restRounds (restInRange A min1 intervalLength a b) freqValues.length
        operator)).map (restInterval A min1 intervalLength) := by
  cases operator <;> try rfl
  · simpa [restSweep, restRounds] using
      overlapLoop_ends A R min1 intervalLength a b freqValues 0 false ⟨[], .fin 0⟩
  · have hends := leftLoop_ends A R min1 intervalLength a b freqValues 0 ⟨[], .fin 0⟩
    simp only [restSweep, restRounds]
    split_ifs <;> simpa using hends

variable {A B R min1 intervalLength a b}

theorem restInRange_congr {i : ℕ}
    (h : restInterval A min1 intervalLength i = restInterval B min1 intervalLength i) :
    restInRange A min1 intervalLength a b i = restInRange B min1 intervalLength a b i := by
  unfold restInRange
  rw [h]

theorem leftLoop_congr (freqs : List FloatQ) (i : ℕ) (s : RestSweep)
    (h : ∀ k < initialRounds (fun k => !restInRange B min1 intervalLength a b (i + k))
      freqs.length, restInterval A min1 intervalLength (i + k) =
        restInterval B min1 intervalLength (i + k)) :
    leftLoop A R min1 intervalLength a b i freqs s =
      leftLoop B R min1 intervalLength a b i freqs s := by
  induction freqs generalizing i s with
  | nil => rfl
  | cons freq freqs ih =>
    rw [List.length_cons, initialRounds] at h
    have hhere : restInterval A min1 intervalLength i = restInterval B min1 intervalLength i := by
      refine h 0 ?_
      split_ifs <;> omega
    rw [leftLoop, leftLoop, hhere, restInRange_congr hhere]
    cases hmeets : restInRange B min1 intervalLength a b i with
    | true => rfl
    | false =>
      -- the round does not break, so the others are made from the next one on
      simp only [Nat.add_zero, hmeets, Bool.not_false, ↓reduceIte] at h
      refine ih (i + 1) _ fun k hk => ?_
      have hnext := h (k + 1)
      simp only [Nat.add_assoc, Nat.add_comm 1] at hk ⊢
      exact hnext (by omega)

theorem overlapLoop_congr (freqs : List FloatQ) (i : ℕ) (out : Bool) (s : RestSweep)
    (h : ∀ k < (if out
        then initialRounds (fun k => restInRange B min1 intervalLength a b (i + k)) freqs.length
        else firstRunRounds (fun k => restInRange B min1 intervalLength a b (i + k))
          freqs.length), restInterval A min1 intervalLength (i + k) =
            restInterval B min1 intervalLength (i + k)) :
    overlapLoop A R min1 intervalLength a b i freqs out s =
      overlapLoop B R min1 intervalLength a b i freqs out s := by
  induction freqs generalizing i out s with
  | nil => rfl
  | cons freq freqs ih =>
    rw [List.length_cons, initialRounds, firstRunRounds] at h
    have hhere : restInterval A min1 intervalLength i = restInterval B min1 intervalLength i := by
      refine h 0 ?_
      split_ifs <;> omega
    rw [overlapLoop, overlapLoop, hhere, restInRange_congr hhere]
    cases hmeets : restInRange B min1 intervalLength a b i with
    | true =>
      simp only [Nat.add_zero, hmeets, ↓reduceIte, ite_self] at h
      refine ih (i + 1) true _ fun k hk => ?_
      have hnext := h (k + 1)
      simp only [↓reduceIte, Nat.add_assoc, Nat.add_comm 1] at hk ⊢
      exact hnext (by omega)
    | false =>
      cases out with
      | true => rfl
      | false =>
        simp only [Nat.add_zero, hmeets, Bool.false_eq_true, ↓reduceIte] at h
        refine ih (i + 1) false _ fun k hk => ?_
        have hnext := h (k + 1)
        simp only [Bool.false_eq_true, ↓reduceIte, Nat.add_assoc, Nat.add_comm 1] at hk ⊢
        exact hnext (by omega)

/-- Two readings that agree on the intervals that one of them looks at compute the
same sweep. -/
theorem restSweep_congr (freqValues : List FloatQ) (operator : RangeOp)
    (h : ∀ k < restRounds (restInRange B min1 intervalLength a b) freqValues.length operator,
      restInterval A min1 intervalLength k = restInterval B min1 intervalLength k) :
    restSweep A R freqValues min1 intervalLength a b operator =
      restSweep B R freqValues min1 intervalLength a b operator := by
  cases operator <;> try rfl
  · exact overlapLoop_congr freqValues 0 false _ (by simpa [restRounds] using h)
  · have hloop := leftLoop_congr (R := R) (a := a) (b := b) freqValues 0 ⟨[], .fin 0⟩
      (by simpa [restRounds] using h)
    simp only [restSweep, hloop]

end Rounds

/-- The stored form of the `int4range` value `[lower,upper)`. -/
def int4Stored (lower upper : ℤ) : RangeType Datum :=
  packRange ⟨int4Word lower, false, true, true⟩ ⟨int4Word upper, false, false, false⟩

end PgRange.Selectivity
