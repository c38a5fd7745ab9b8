import PgRange.Selectivity.Restriction

/-!
# Join selectivity from two frequency histograms

`rangeoverlapsjoinsel` estimates `column1 && column2`. Before it combines the two
histograms it trims them: one loop walks up from the two minima, the other down
from the two maxima, until the current intervals of both columns meet. Each loop
raises an error when it runs out of intervals.

## Main results

* `spanLow_ok` — on spans that overlap the upward loop always ends
* `rangeoverlapsjoinselInner_ok_iff` — when the downward loop ends too
-/

set_option autoImplicit false

namespace PgRange.Selectivity

open Math Stats

/-! ### The functions of the source -/

/-- The locals of a trimming loop: the two interval indexes and the two values. -/
structure Trim where
  x : ℤ
  y : ℤ
  val1 : ℤ
  val2 : ℤ
  deriving DecidableEq, Repr

section Loops

variable (A : CInt) (freqNbIntervals1 freqNbIntervals2 intervalLength1 intervalLength2 : ℤ)

/-- The loop `LOW`, from the minima up. -/
def lowLoop : Loop Fault Trim where
  cond := fun s => !isInRange s.val1 (A.wrap (s.val1 + intervalLength1)) s.val2
    (A.wrap (s.val2 + intervalLength2))
  step := fun s =>
    if s.val1 < s.val2 then
      .ok { s with val1 := A.wrap (s.val1 + intervalLength1), x := s.x + 1 }
    else if s.val2 < s.val1 then
      .ok { s with val2 := A.wrap (s.val2 + intervalLength2), y := s.y + 1 }
    else .error .valuesInRange
  check := fun s =>
    if s.x = freqNbIntervals1 ∨ s.y = freqNbIntervals2 then some .overlapNotFound else none

/-- The loop `HIGH`, from the maxima down. -/
def highLoop : Loop Fault Trim where
  cond := fun s => !isInRange (A.wrap (s.val1 - intervalLength1)) s.val1
    (A.wrap (s.val2 - intervalLength2)) s.val2
  step := fun s =>
    if s.val1 > s.val2 then
      .ok { s with val1 := A.wrap (s.val1 - intervalLength1), x := s.x - 1 }
    else if s.val2 > s.val1 then
      .ok { s with val2 := A.wrap (s.val2 - intervalLength2), y := s.y - 1 }
    else .error .valuesInRange
  -- the index of an interval that is still to be compared
  check := fun s => if s.x = 0 ∨ s.y = 0 then some .overlapNotFound else none

end Loops

/-- The locals of `computeSelectivity`. -/
structure Merge where
  idx1 : ℕ
  idx2 : ℕ
  min1 : ℤ
  min2 : ℤ
  total : FloatQ
  deriving DecidableEq, Repr

/-- The loop of `computeSelectivity`. -/
def mergeLoop (A : CInt) (R : CFloat) (truncFreq1 truncFreq2 : List FloatQ)
    (size1 size2 intervalLength1 intervalLength2 : ℤ) : Loop Fault Merge where
  cond := fun s => decide ((s.idx1 : ℤ) < size1) && decide ((s.idx2 : ℤ) < size2)
  step := fun s =>
    -- the product is added before it is known which interval ends first
    let total := R.add s.total
      (R.mul (truncFreq1.getD s.idx1 (.fin 0)) (truncFreq2.getD s.idx2 (.fin 0)))
    if s.min1 < s.min2 then
      .ok ⟨s.idx1 + 1, s.idx2, A.wrap (s.min1 + intervalLength1), s.min2, total⟩
    else if s.min1 > s.min2 then
      .ok ⟨s.idx1, s.idx2 + 1, s.min1, A.wrap (s.min2 + intervalLength2), total⟩
    else
      .ok ⟨s.idx1 + 1, s.idx2 + 1, A.wrap (s.min1 + intervalLength1),
        A.wrap (s.min2 + intervalLength2), total⟩
  check := fun _ => none

/-- `computeSelectivity`. -/
def computeSelectivity (A : CInt) (R : CFloat) (truncFreq1 truncFreq2 : List FloatQ)
    (size1 size2 intervalLength1 intervalLength2 min1 min2 : ℤ) : Except Fault FloatQ := do
  let s ← (mergeLoop A R truncFreq1 truncFreq2 size1 size2 intervalLength1 intervalLength2).run
    .outOfFuel (size1.toNat + size2.toNat) ⟨0, 0, min1, min2, .fin 0⟩
  return s.total

/-- The interval length of `rangeoverlapsjoinsel_inner`. -/
def joinIntervalLength (A : CInt) (freqNbIntervals min max : ℤ) : Except Fault ℤ :=
  roundUpDivision A (A.wrap (A.wrap (max - min) + 1)) freqNbIntervals

/-- A bound on the rounds of a trimming loop. A loop that starts with a single
interval has passed the index at which it raises, and goes on until the values
meet. -/
def trimFuel (nb1 nb2 : ℕ) (distance : ℤ) : ℕ := nb1 + nb2 + distance.natAbs

/-- `rangeoverlapsjoinsel_inner`. -/
def rangeoverlapsjoinselInner (A : CInt) (R : CFloat) (freqValues1 freqValues2 : List FloatQ)
    (rows1 rows2 : ℕ) (min1 min2 max1 max2 : ℤ) : Except Fault FloatQ := do
  let nb1 := freqValues1.length
  let nb2 := freqValues2.length
  let intervalLength1 ← joinIntervalLength A nb1 min1 max1
  let intervalLength2 ← joinIntervalLength A nb2 min2 max2
  let low ← (lowLoop A nb1 nb2 intervalLength1 intervalLength2).run .outOfFuel
    (trimFuel nb1 nb2 (min1 - min2)) ⟨0, 0, min1, min2⟩
  let high ← (highLoop A intervalLength1 intervalLength2).run .outOfFuel
    (trimFuel nb1 nb2 (max1 - max2)) ⟨nb1 - 1, nb2 - 1, max1, max2⟩
  let result ← computeSelectivity A R (freqValues1.drop low.x.toNat) (freqValues2.drop low.y.toNat)
    (high.x - low.x + 1) (high.y - low.y + 1) intervalLength1 intervalLength2 low.val1 low.val2
  return R.div result (.fin (A.wrap (rows1 * rows2)))

/-- What `rangeoverlapsjoinsel` finds out about the clause. -/
structure JoinClause where
  operator : RangeOp
  securityCheck1 : Bool
  securityCheck2 : Bool
  statsTuple1 : Option StatsTuple
  statsTuple2 : Option StatsTuple

/-- The four slots of the two columns, if all are there. -/
def JoinClause.slots (clause : JoinClause) :
    Option ((List (RangeType Datum) × List FloatQ) × (List (RangeType Datum) × List FloatQ)) := do
  let stats1 ← clause.statsTuple1
  let stats2 ← clause.statsTuple2
  let bounds1 ← stats1.bounds
  let bounds2 ← stats2.bounds
  let frequencies1 ← stats1.frequencies
  let frequencies2 ← stats2.frequencies
  return ((bounds1, frequencies1), (bounds2, frequencies2))

/-- `rangeoverlapsjoinsel`. -/
def rangeoverlapsjoinsel (A : CInt) (R : CFloat) (clause : JoinClause) : Except Fault FloatQ :=
  if clause.operator ≠ .overlap then .ok (.fin defaultSelec)
  else if !clause.securityCheck1 then .ok (.fin defaultSelec)
  else if !clause.securityCheck2 then .ok (.fin defaultSelec)
  else
    match clause.slots with
    | none => .ok (.fin defaultSelec)
    | some ((hist1, freqValues1), (hist2, freqValues2)) => do
      let (min1, max1) ← restSpan A hist1
      let (min2, max2) ← restSpan A hist2
      let selec ←
        if isInRange min1 max1 min2 max2 then
          rangeoverlapsjoinselInner A R freqValues1 freqValues2 hist1.length hist2.length
            min1 min2 max1 max2
        else .ok (.fin defaultSelec)
      return clampFloat selec

/-! ### The loop that combines the histograms ends -/

theorem computeSelectivity_total (A : CInt) (R : CFloat) (truncFreq1 truncFreq2 : List FloatQ)
    (size1 size2 intervalLength1 intervalLength2 min1 min2 : ℤ) :
    ∃ total, computeSelectivity A R truncFreq1 truncFreq2 size1 size2 intervalLength1
      intervalLength2 min1 min2 = .ok total := by
  have hrun : ∃ t, (mergeLoop A R truncFreq1 truncFreq2 size1 size2 intervalLength1
      intervalLength2).run .outOfFuel (size1.toNat + size2.toNat) ⟨0, 0, min1, min2, .fin 0⟩ =
        .ok t := by
    -- every round moves an index that is still below its size
    refine Loop.run_total (fun s => (size1 - s.idx1).toNat + (size2 - s.idx2).toNat) ?_ (by simp)
    intro s hcond
    simp only [mergeLoop, Bool.and_eq_true, decide_eq_true_eq] at hcond
    by_cases hlt : s.min1 < s.min2
    · exact ⟨_, if_pos hlt, rfl, by dsimp only; omega⟩
    · by_cases hgt : s.min1 > s.min2
      · exact ⟨_, (if_neg hlt).trans (if_pos hgt), rfl, by dsimp only; omega⟩
      · exact ⟨_, (if_neg hlt).trans (if_neg hgt), rfl, by dsimp only; omega⟩
  obtain ⟨t, ht⟩ := hrun
  refine ⟨t.total, ?_⟩
  unfold computeSelectivity
  rw [ht]
  rfl

/-! ### Trimming

Only the column that reaches further moves. By symmetry it is enough to follow the
first one. -/

/-- The state with the two columns exchanged. -/
def Trim.swap (s : Trim) : Trim := ⟨s.y, s.x, s.val2, s.val1⟩

theorem isInRange_comm (a b c d : ℤ) : isInRange a b c d = isInRange c d a b := by
  simp [isInRange, Bool.or_comm]

/-- Exchanging the columns renames the upward loop. -/
theorem lowLoop_swap (A : CInt) (nb1 nb2 length1 length2 : ℤ) :
    Loop.Renames Trim.swap (lowLoop A nb1 nb2 length1 length2)
      (lowLoop A nb2 nb1 length2 length1) := by
  refine ⟨fun s => ?_, fun s => ?_, fun s => ?_⟩
  · simp only [lowLoop, Trim.swap]
    rw [isInRange_comm]
  · rcases lt_trichotomy s.val1 s.val2 with h | h | h
    · simp [lowLoop, Trim.swap, h, h.not_gt, Except.map]
    · simp [lowLoop, Trim.swap, h, Except.map]
    · simp [lowLoop, Trim.swap, h, h.not_gt, Except.map]
  · simp [lowLoop, Trim.swap, or_comm]

/-- Exchanging the columns renames the downward loop. -/
theorem highLoop_swap (A : CInt) (length1 length2 : ℤ) :
    Loop.Renames Trim.swap (highLoop A length1 length2) (highLoop A length2 length1) := by
  refine ⟨fun s => ?_, fun s => ?_, fun s => ?_⟩
  · simp only [highLoop, Trim.swap]
    rw [isInRange_comm]
  · rcases lt_trichotomy s.val1 s.val2 with h | h | h
    · simp [highLoop, Trim.swap, h, h.not_gt, Except.map]
    · simp [highLoop, Trim.swap, h, Except.map]
    · simp [highLoop, Trim.swap, h, h.not_gt, Except.map]
  · simp [highLoop, Trim.swap, or_comm]

section Trimming

variable (s1 s2 : Span)

/-- The upward loop on two spans. -/
def spanLow : Loop Fault Trim :=
  lowLoop .int32 s1.grid.nbOfIntervals s2.grid.nbOfIntervals s1.grid.intervalLength
    s2.grid.intervalLength

/-- The downward loop on two spans. -/
def spanHigh : Loop Fault Trim :=
  highLoop .int32 s1.grid.intervalLength s2.grid.intervalLength

/-- The upward loop after `i` moves of the first column. -/
def lowPath (i : ℕ) : Trim := ⟨i, 0, s1.start i, s2.min⟩

/-- The downward loop after `i` moves of the first column. -/
def highPath (i : ℕ) : Trim :=
  ⟨s1.grid.nbOfIntervals - 1 - i, s2.grid.nbOfIntervals - 1, s1.stop i, s2.max⟩

/-- If the first column starts lower, the upward loop moves it until the end of its
interval reaches the start of the second. -/
theorem spanLow_run_of_le (hle : s1.min ≤ s2.min) {fuel : ℕ}
    (hfuel : s1.grid.nbOfIntervals.toNat ≤ fuel) :
    (spanLow s1 s2).run .outOfFuel fuel (lowPath s1 s2 0) =
      if s1.start s1.grid.nbOfIntervals.toNat < s2.min then .error .overlapNotFound
      else .ok (lowPath s1 s2
        (Nat.count (fun i => s1.start (i + 1) < s2.min) s1.grid.nbOfIntervals.toNat)) := by
  have hcount := s1.one_lt_nbOfIntervals
  have hcount2 := s2.one_lt_nbOfIntervals
  have hwidth2 := s2.tiling.widthPos
  have hreach1 : ∀ i < s1.grid.nbOfIntervals.toNat,
      CInt.wrap32 (s1.start i + s1.grid.intervalLength) = s1.start (i + 1) := by
    intro i hi
    rw [← s1.start_succ]
    exact CInt.int32.wrap_of_fits (s1.start_fits hi)
  have hreach2 : CInt.wrap32 (s2.min + s2.grid.intervalLength) =
      s2.min + s2.grid.intervalLength := by
    rw [← s2.start_zero, ← s2.start_succ]
    exact CInt.int32.wrap_of_fits (s2.start_fits (by omega))
  have hlast : s1.start s1.grid.nbOfIntervals.toNat =
      s1.start (s1.grid.nbOfIntervals.toNat - 1 + 1) := by
    rw [Nat.sub_add_cancel (by omega)]
  rw [hlast]
  refine Loop.run_advance (lowPath s1 s2) (fun i => s1.start (i + 1) < s2.min) (by omega)
    ?_ ?_ ?_ ?_ ?_ hfuel
  · intro i j hij _ hj
    exact lt_of_le_of_lt (s1.start_mono (by omega)) hj
  · intro i hi hbefore
    -- the first column has not passed the start of the second
    have hval : s1.start i ≤ s2.min := by
      cases i with
      | zero => rwa [s1.start_zero]
      | succ i => exact (hbefore i (by omega)).le
    have hnot : ¬ s1.start i > s2.min + s2.grid.intervalLength := by omega
    simp [spanLow, lowLoop, lowPath, isInRange, hreach1 i hi, hreach2, hnot]
  · intro i hi hfar
    have hlt : s1.start i < s2.min := lt_of_le_of_lt (s1.start_mono (by omega)) hfar
    simp [spanLow, lowLoop, lowPath, hlt, hreach1 i hi]
  · intro i _ hlt
    refine if_neg ?_
    simp only [lowPath]
    omega
  · refine if_pos (Or.inl ?_)
    simp only [lowPath]
    omega

/-- If the first column ends higher, the downward loop moves it until the start of its
interval reaches the end of the second, unless its intervals but one are too short for
that. -/
theorem spanHigh_run_of_le (hle : s2.max ≤ s1.max) {fuel : ℕ}
    (hfuel : s1.grid.nbOfIntervals.toNat ≤ fuel) :
    (spanHigh s1 s2).run .outOfFuel fuel (highPath s1 s2 0) =
      if s2.max < s1.stop (s1.grid.nbOfIntervals.toNat - 1) then .error .overlapNotFound
      else .ok (highPath s1 s2
        (Nat.count (fun i => s2.max < s1.stop (i + 1)) (s1.grid.nbOfIntervals.toNat - 1))) := by
  have hcount := s1.one_lt_nbOfIntervals
  have hcount2 := s2.one_lt_nbOfIntervals
  have hwidth2 := s2.tiling.widthPos
  have hreach1 : ∀ i < s1.grid.nbOfIntervals.toNat - 1,
      CInt.wrap32 (s1.stop i - s1.grid.intervalLength) = s1.stop (i + 1) := by
    intro i hi
    rw [← s1.stop_succ]
    exact CInt.int32.wrap_of_fits (s1.stop_fits (by omega))
  have hreach2 : CInt.wrap32 (s2.max - s2.grid.intervalLength) =
      s2.max - s2.grid.intervalLength := by
    rw [← s2.stop_zero, ← s2.stop_succ]
    exact CInt.int32.wrap_of_fits (s2.stop_fits (by omega))
  have hlast : s1.stop (s1.grid.nbOfIntervals.toNat - 1) =
      s1.stop (s1.grid.nbOfIntervals.toNat - 1 - 1 + 1) := by
    rw [Nat.sub_add_cancel (by omega)]
  rw [hlast]
  refine Loop.run_advance (highPath s1 s2) (fun i => s2.max < s1.stop (i + 1)) (by omega)
    ?_ ?_ ?_ ?_ ?_ (by omega)
  · intro i j hij _ hj
    exact lt_of_lt_of_le hj (s1.stop_anti (by omega))
  · intro i hi hbefore
    -- the first column has not passed the end of the second
    have hval : s2.max ≤ s1.stop i := by
      cases i with
      | zero => rwa [s1.stop_zero]
      | succ i => exact (hbefore i (by omega)).le
    have hnot : ¬ s1.stop i < s2.max - s2.grid.intervalLength := by omega
    simp [spanHigh, highLoop, highPath, isInRange, hreach1 i hi, hreach2, hnot]
  · intro i hi hfar
    have hlt : s1.stop i > s2.max := lt_of_lt_of_le hfar (s1.stop_anti (by omega))
    simp only [spanHigh, highLoop, highPath, hlt, ↓reduceIte, CInt.int32_wrap, hreach1 i hi]
    congr 2
    push_cast
    ring
  · intro i _ hlt
    refine if_neg ?_
    simp only [highPath]
    omega
  · -- the loop gives up with one interval to go
    refine if_pos (Or.inl ?_)
    simp only [highPath]
    omega

/-- On spans that overlap, the upward loop never runs out of intervals. -/
theorem spanLow_ok (hoverlap : isInRange s1.min s1.max s2.min s2.max = true) {fuel : ℕ}
    (hfuel1 : s1.grid.nbOfIntervals.toNat ≤ fuel) (hfuel2 : s2.grid.nbOfIntervals.toNat ≤ fuel) :
    ∃ t, (spanLow s1 s2).run .outOfFuel fuel ⟨0, 0, s1.min, s2.min⟩ = .ok t := by
  rw [isInRange_eq_true_iff] at hoverlap
  rcases le_total s1.min s2.min with hle | hle
  · have hrun := spanLow_run_of_le s1 s2 hle hfuel1
    have hmeet : ¬ s1.start s1.grid.nbOfIntervals.toNat < s2.min := by
      have := s1.max_lt_start
      omega
    rw [if_neg hmeet, lowPath, s1.start_zero] at hrun
    exact ⟨_, hrun⟩
  · have hrun := spanLow_run_of_le s2 s1 hle hfuel2
    have hmeet : ¬ s2.start s2.grid.nbOfIntervals.toNat < s1.min := by
      have := s2.max_lt_start
      omega
    rw [if_neg hmeet, lowPath, s2.start_zero] at hrun
    have hswap := (lowLoop_swap .int32 s2.grid.nbOfIntervals s1.grid.nbOfIntervals
      s2.grid.intervalLength s1.grid.intervalLength).run .outOfFuel fuel ⟨0, 0, s2.min, s1.min⟩
    exact ⟨_, hswap.trans (congrArg (Except.map Trim.swap) hrun)⟩

/-- The downward loop ends exactly if neither column, with its last interval left out,
stays beyond the end of the other. -/
theorem spanHigh_ok_iff {fuel : ℕ} (hfuel1 : s1.grid.nbOfIntervals.toNat ≤ fuel)
    (hfuel2 : s2.grid.nbOfIntervals.toNat ≤ fuel) :
    (∃ t, (spanHigh s1 s2).run .outOfFuel fuel
      ⟨s1.grid.nbOfIntervals - 1, s2.grid.nbOfIntervals - 1, s1.max, s2.max⟩ = .ok t) ↔
    s1.stop (s1.grid.nbOfIntervals.toNat - 1) ≤ s2.max ∧
      s2.stop (s2.grid.nbOfIntervals.toNat - 1) ≤ s1.max := by
  have hstop1 := s1.stop_anti (Nat.zero_le (s1.grid.nbOfIntervals.toNat - 1))
  have hstop2 := s2.stop_anti (Nat.zero_le (s2.grid.nbOfIntervals.toNat - 1))
  rw [s1.stop_zero] at hstop1
  rw [s2.stop_zero] at hstop2
  rcases le_total s2.max s1.max with hle | hle
  · have hrun := spanHigh_run_of_le s1 s2 hle hfuel1
    rw [highPath, s1.stop_zero, Nat.cast_zero, sub_zero] at hrun
    rw [hrun]
    by_cases hfar : s2.max < s1.stop (s1.grid.nbOfIntervals.toNat - 1)
    · simp [hfar]
    · simp only [hfar, ↓reduceIte, Except.ok.injEq, exists_eq', true_iff]
      omega
  · have hrun := spanHigh_run_of_le s2 s1 hle hfuel2
    rw [highPath, s2.stop_zero, Nat.cast_zero, sub_zero] at hrun
    have hswap := (highLoop_swap .int32 s2.grid.intervalLength s1.grid.intervalLength).run
      .outOfFuel fuel ⟨s2.grid.nbOfIntervals - 1, s1.grid.nbOfIntervals - 1, s2.max, s1.max⟩
    change (∃ t, (highLoop .int32 _ _).run Fault.outOfFuel fuel (Trim.swap ⟨_, _, _, _⟩) = _) ↔ _
    rw [hswap]
    change (∃ t, ((spanHigh s2 s1).run _ _ _).map Trim.swap = _) ↔ _
    rw [hrun]
    by_cases hfar : s1.max < s2.stop (s2.grid.nbOfIntervals.toNat - 1)
    · simp [hfar, Except.map]
    · simp only [hfar, ↓reduceIte, Except.map, Except.ok.injEq, exists_eq', true_iff]
      omega

end Trimming

/-! ### The estimate -/

/-- The reader of a join uses the interval length of the writer. -/
theorem joinIntervalLength_eq (s : Span) :
    joinIntervalLength .int32 s.grid.nbOfIntervals s.min s.max = .ok s.grid.intervalLength := by
  have hlt := s.lt
  have hlength := s.lengthFits
  have hwrap : CInt.int32.wrap (s.max - s.min + 1) = s.max - s.min + 1 :=
    CInt.int32.wrap_of_fits ⟨by omega, hlength⟩
  rw [joinIntervalLength, CInt.wrap_wrap_add, hwrap]
  exact roundUpDivision_eq .int32 (by omega) s.tiling.countPos hwrap
    (intervalWidth_isCeil (by omega))

/-- The estimate is computed if both trimming loops end. -/
theorem rangeoverlapsjoinselInner_ok_iff_loops (R : CFloat) (s1 s2 : Span)
    (freqValues1 freqValues2 : List FloatQ) (rows1 rows2 : ℕ)
    (hnb1 : (freqValues1.length : ℤ) = s1.grid.nbOfIntervals)
    (hnb2 : (freqValues2.length : ℤ) = s2.grid.nbOfIntervals) :
    (∃ r, rangeoverlapsjoinselInner .int32 R freqValues1 freqValues2 rows1 rows2 s1.min s2.min
      s1.max s2.max = .ok r) ↔
    (∃ low, (spanLow s1 s2).run .outOfFuel (trimFuel freqValues1.length freqValues2.length
      (s1.min - s2.min)) ⟨0, 0, s1.min, s2.min⟩ = .ok low) ∧
    (∃ high, (spanHigh s1 s2).run .outOfFuel (trimFuel freqValues1.length freqValues2.length
      (s1.max - s2.max))
      ⟨s1.grid.nbOfIntervals - 1, s2.grid.nbOfIntervals - 1, s1.max, s2.max⟩ = .ok high) := by
  unfold rangeoverlapsjoinselInner
  simp only [hnb1, hnb2, joinIntervalLength_eq]
  change (∃ r, ((spanLow s1 s2).run _ _ _ >>= fun low => (spanHigh s1 s2).run _ _ _ >>= _) = _) ↔ _
  cases (spanLow s1 s2).run .outOfFuel (trimFuel freqValues1.length freqValues2.length
      (s1.min - s2.min)) ⟨0, 0, s1.min, s2.min⟩ with
  | error e => simp [bind, Except.bind]
  | ok low =>
    cases (spanHigh s1 s2).run .outOfFuel (trimFuel freqValues1.length freqValues2.length
        (s1.max - s2.max))
        ⟨s1.grid.nbOfIntervals - 1, s2.grid.nbOfIntervals - 1, s1.max, s2.max⟩ with
    | error e => simp [bind, Except.bind]
    | ok high =>
      obtain ⟨total, htotal⟩ := computeSelectivity_total .int32 R
        (freqValues1.drop low.x.toNat) (freqValues2.drop low.y.toNat) (high.x - low.x + 1)
        (high.y - low.y + 1) s1.grid.intervalLength s2.grid.intervalLength low.val1 low.val2
      simp [bind, Except.bind, htotal, pure, Except.pure]

/-- On overlapping spans the estimate is computed, instead of an error reported, exactly
if neither column keeps beyond the end of the other when all its intervals but one are
taken off from above. The downward loop gives up with one interval to go. -/
theorem rangeoverlapsjoinselInner_ok_iff (R : CFloat) (s1 s2 : Span) {grid1 grid2 : Grid}
    (hgrid1 : chooseIntervals .int32 (int4Word s1.min) (int4Word s1.max) = .ok grid1)
    (hgrid2 : chooseIntervals .int32 (int4Word s2.min) (int4Word s2.max) = .ok grid2)
    (freqValues1 freqValues2 : List FloatQ) (rows1 rows2 : ℕ)
    (hnb1 : (freqValues1.length : ℤ) = grid1.nbOfIntervals)
    (hnb2 : (freqValues2.length : ℤ) = grid2.nbOfIntervals)
    (hoverlap : isInRange s1.min s1.max s2.min s2.max = true) :
    (∃ r, rangeoverlapsjoinselInner .int32 R freqValues1 freqValues2 rows1 rows2 s1.min s2.min
      s1.max s2.max = .ok r) ↔
    s1.max - (grid1.nbOfIntervals - 1) * grid1.intervalLength ≤ s2.max ∧
      s2.max - (grid2.nbOfIntervals - 1) * grid2.intervalLength ≤ s1.max := by
  obtain rfl : s1.grid = grid1 := Except.ok.inj (s1.chooseIntervals_eq.symm.trans hgrid1)
  obtain rfl : s2.grid = grid2 := Except.ok.inj (s2.chooseIntervals_eq.symm.trans hgrid2)
  have hfuel1 : ∀ d, s1.grid.nbOfIntervals.toNat ≤
      trimFuel freqValues1.length freqValues2.length d := by
    intro d
    unfold trimFuel
    omega
  have hfuel2 : ∀ d, s2.grid.nbOfIntervals.toNat ≤
      trimFuel freqValues1.length freqValues2.length d := by
    intro d
    unfold trimFuel
    omega
  rw [rangeoverlapsjoinselInner_ok_iff_loops R s1 s2 freqValues1 freqValues2 rows1 rows2 hnb1 hnb2,
    spanHigh_ok_iff s1 s2 (hfuel1 _) (hfuel2 _), s1.stop_last, s2.stop_last]
  exact and_iff_right (spanLow_ok s1 s2 hoverlap (hfuel1 _) (hfuel2 _))

/-- Two columns of which one ends where the other starts, at 100. Each has 17 intervals
of 6 integers, and planning a join on `&&` fails. -/
theorem rangeoverlapsjoinselInner_touching :
    isInRange 0 100 100 200 = true ∧
    chooseIntervals .int32 (int4Word 0) (int4Word 100) = .ok ⟨0, 100, 101, 17, 6⟩ ∧
    chooseIntervals .int32 (int4Word 100) (int4Word 200) = .ok ⟨100, 200, 101, 17, 6⟩ ∧
    rangeoverlapsjoinselInner .int32 .float8 (List.replicate 17 (.fin 1))
      (List.replicate 17 (.fin 1)) 2 2 0 100 100 200 = .error .overlapNotFound := by
  decide +kernel

/-- The span from 0 to 100. -/
def spanTo100 : Span := ⟨0, 100, by decide, by decide, by decide, by decide +kernel⟩

/-- The span from 50 to 150. -/
def spanFrom50 : Span := ⟨50, 150, by decide, by decide, by decide, by decide +kernel⟩

/-- Two columns that overlap by half. -/
theorem rangeoverlapsjoinselInner_ok_iff_half :
    ∃ r, rangeoverlapsjoinselInner .int32 .float8 (List.replicate 17 (.fin 1))
      (List.replicate 17 (.fin 1)) 2 2 spanTo100.min spanFrom50.min spanTo100.max spanFrom50.max =
        .ok r :=
  (rangeoverlapsjoinselInner_ok_iff .float8 spanTo100 spanFrom50 spanTo100.chooseIntervals_eq
    spanFrom50.chooseIntervals_eq (List.replicate 17 (.fin 1)) (List.replicate 17 (.fin 1)) 2 2
    (by decide +kernel) (by decide +kernel) (by decide +kernel)).mpr (by decide +kernel)

end PgRange.Selectivity
