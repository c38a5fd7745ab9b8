import PgRange.Selectivity.Merge

/-!
# Trimming two columns

Before their buckets are combined, `rangeoverlapsjoinsel_inner` trims both columns. The
loop `LOW` counts buckets from the minima. The loop `HIGH` counts from the maxima, where
its steps need not meet the ends of the buckets, since rounding up leaves the last bucket
room beyond the maximum. That room is what keeps it from dropping too much.

Nothing in the estimate depends on which column comes first.

## Main results

* `trim_lossless` — the indexes stay in bounds and in order, and no bucket that meets the
  other column is dropped
* `rangeoverlapsjoinselInner_symm` — exchanging the columns does not change the outcome
-/

set_option autoImplicit false

namespace PgRange.Selectivity

open Math Stats

/-! ### The rounds -/

section Rounds

variable {A : CInt} {length1 length2 : ℤ} (hpos1 : 0 < length1) (hpos2 : 0 < length2)
  {s s' : Trim}

include hpos1 hpos2

/-- A round of the loop `LOW` moves the column whose interval ends before the other's
starts. -/
theorem lowLoop_round {nb1 nb2 : ℤ} (hkeep1 : A.wrap (s.val1 + length1) = s.val1 + length1)
    (hkeep2 : A.wrap (s.val2 + length2) = s.val2 + length2)
    (h : (lowLoop A nb1 nb2 length1 length2).Round s s') :
    (s.val1 + length1 < s.val2 ∧ s' = ⟨s.x + 1, s.y, s.val1 + length1, s.val2⟩ ∧
        s.x + 1 ≠ nb1) ∨
      (s.val2 + length2 < s.val1 ∧ s' = ⟨s.x, s.y + 1, s.val1, s.val2 + length2⟩ ∧
        s.y + 1 ≠ nb2) := by
  obtain ⟨hcond, hstep, hcheck⟩ := h
  simp only [lowLoop, hkeep1, hkeep2, Bool.not_eq_true', isInRange_eq_false_iff]
    at hcond hstep hcheck
  rcases lt_trichotomy s.val1 s.val2 with hlt | heq | hgt
  · rw [if_pos hlt, Except.ok.injEq] at hstep
    subst hstep
    refine Or.inl ⟨by omega, rfl, fun he => ?_⟩
    rw [if_pos (Or.inl he)] at hcheck
    cases hcheck
  · omega
  · rw [if_neg (by omega), if_pos hgt, Except.ok.injEq] at hstep
    subst hstep
    refine Or.inr ⟨by omega, rfl, fun he => ?_⟩
    rw [if_pos (Or.inr he)] at hcheck
    cases hcheck

/-- A round of the loop `HIGH` moves the column whose interval starts behind the other's
end. -/
theorem highLoop_round (hkeep1 : A.wrap (s.val1 - length1) = s.val1 - length1)
    (hkeep2 : A.wrap (s.val2 - length2) = s.val2 - length2)
    (h : (highLoop A length1 length2).Round s s') :
    (s.val2 < s.val1 - length1 ∧ s' = ⟨s.x - 1, s.y, s.val1 - length1, s.val2⟩ ∧ s.x ≠ 1) ∨
      (s.val1 < s.val2 - length2 ∧ s' = ⟨s.x, s.y - 1, s.val1, s.val2 - length2⟩ ∧
        s.y ≠ 1) := by
  obtain ⟨hcond, hstep, hcheck⟩ := h
  simp only [highLoop, hkeep1, hkeep2, Bool.not_eq_true', isInRange_eq_false_iff, gt_iff_lt]
    at hcond hstep hcheck
  rcases lt_trichotomy s.val2 s.val1 with hlt | heq | hgt
  · rw [if_pos hlt, Except.ok.injEq] at hstep
    subst hstep
    refine Or.inl ⟨by omega, rfl, fun he => ?_⟩
    rw [if_pos (Or.inl (by dsimp only; omega))] at hcheck
    cases hcheck
  · omega
  · rw [if_neg (by omega), if_pos hgt, Except.ok.injEq] at hstep
    subst hstep
    refine Or.inr ⟨by omega, rfl, fun he => ?_⟩
    rw [if_pos (Or.inr (by dsimp only; omega))] at hcheck
    cases hcheck

end Rounds

/-! ### Columns -/

/-- A column as the trimming loops see it: a span with its intervals. The length of the span is an
`int`, and so are the ends of the grid that the loops can get to, counted up from the minimum and
down from the maximum. -/
structure TrimColumn (A : CInt) (nb min max length : ℤ) : Prop where
  le : min ≤ max
  countPos : 1 ≤ nb
  keepsLength : A.wrap (max - min + 1) = max - min + 1
  length_eq : joinIntervalLength A nb min max = .ok length
  keepsMin : A.wrap min = min
  keepsMax : A.wrap max = max
  keepsEnd : A.wrap (min + nb * length) = min + nb * length
  keepsFront : A.wrap (max - nb * length) = max - nb * length

namespace TrimColumn

/-- Over unbounded integers nothing is lost. -/
theorem unbounded {nb min max length : ℤ} (hle : min ≤ max) (hnb : 1 ≤ nb)
    (hlength : joinIntervalLength .unbounded nb min max = .ok length) :
    TrimColumn .unbounded nb min max length :=
  ⟨hle, hnb, rfl, hlength, rfl, rfl, rfl, rfl⟩

variable {A : CInt} {nb min max length : ℤ} (h : TrimColumn A nb min max length)

include h

theorem isCeil : IsCeil (max - min + 1) nb length := by
  have hle := h.le
  obtain ⟨c, hrun, hceil⟩ := roundUpDivision_isCeil A (by omega : 0 ≤ max - min + 1)
    (by have := h.countPos; omega : 0 < nb) h.keepsLength
  have hlength := h.length_eq
  rw [joinIntervalLength, CInt.wrap_wrap_add, h.keepsLength, hrun, Except.ok.injEq] at hlength
  exact hlength ▸ hceil

theorem lengthPos : 0 < length :=
  h.isCeil.pos (by have := h.countPos; omega) (by have := h.le; omega)

/-- The intervals cover the span. -/
theorem covers : max - min + 1 ≤ nb * length := by
  rw [mul_comm]
  exact h.isCeil.2

/-- The end of an interval is not lost. -/
theorem keeps_end {x : ℤ} (h0 : 0 ≤ x) (hx : x < nb) :
    A.wrap (min + x * length + length) = min + x * length + length := by
  have hlow : 0 ≤ (x + 1) * length := mul_nonneg (by omega) h.lengthPos.le
  have hhigh : (x + 1) * length ≤ nb * length :=
    mul_le_mul_of_nonneg_right (by omega) h.lengthPos.le
  have hsucc : min + x * length + length = min + (x + 1) * length := by ring
  rw [hsucc]
  exact A.wrap_of_between h.keepsMin h.keepsEnd (by omega) (by omega)

/-- Nor is the front of one that is counted from above. -/
theorem keeps_front {x : ℤ} (h0 : 0 ≤ x) (hx : x ≤ nb - 1) :
    A.wrap (max - (nb - 1 - x) * length - length) = max - (nb - 1 - x) * length - length := by
  have hlow : 0 ≤ (nb - x) * length := mul_nonneg (by omega) h.lengthPos.le
  have hhigh : (nb - x) * length ≤ nb * length :=
    mul_le_mul_of_nonneg_right (by omega) h.lengthPos.le
  have hsucc : max - (nb - 1 - x) * length - length = max - (nb - x) * length := by ring
  rw [hsucc]
  exact A.wrap_of_between h.keepsFront h.keepsMax (by omega) (by omega)

end TrimColumn

/-! ### Where the loops bring a column -/

/-- A column in the loop `LOW`, after `x` moves. If it has moved, it is still before the
minimum of the other one. -/
structure LowSide (nb min length other x val : ℤ) : Prop where
  nonneg : 0 ≤ x
  lt : x < nb
  val_eq : val = min + x * length
  before : 0 < x → val < other

/-- A column in the loop `HIGH`, with `x` the index of the bucket it has come down to. If
it has moved, it is still behind the maximum of the other one. -/
structure HighSide (nb max length other x val : ℤ) : Prop where
  nonneg : 0 ≤ x
  le : x ≤ nb - 1
  val_eq : val = max - (nb - 1 - x) * length
  behind : x < nb - 1 → 1 ≤ x ∧ other < val

namespace LowSide

variable {nb min length other x val : ℤ}

theorem start (hnb : 1 ≤ nb) : LowSide nb min length other 0 min where
  nonneg := le_rfl
  lt := hnb
  val_eq := by ring
  before := fun h => absurd h (lt_irrefl 0)

theorem min_le (h : LowSide nb min length other x val) (hlength : 0 < length) : min ≤ val := by
  have hmoved : 0 ≤ x * length := mul_nonneg h.nonneg hlength.le
  rw [h.val_eq]
  omega

/-- A column moves only while the other one has not moved: it is before the value of
the other, which is then the minimum. -/
theorem move (h : LowSide nb min length other x val) (hlength : 0 < length)
    {nb' length' x' val' : ℤ} (h' : LowSide nb' other length' min x' val')
    (hlt : val + length < val') (hne : x + 1 ≠ nb) :
    LowSide nb min length other (x + 1) (val + length) where
  nonneg := by have := h.nonneg; omega
  lt := by have := h.lt; omega
  val_eq := by rw [h.val_eq]; ring
  before := fun _ => by
    have hmin := h.min_le hlength
    have hother := h'.val_eq
    rcases h'.nonneg.eq_or_lt with hzero | hpos
    · rw [← hzero, zero_mul, add_zero] at hother
      omega
    · have := h'.before hpos
      omega

/-- A bucket that reaches the other column is not dropped from below. -/
theorem le_of_reaches (h : LowSide nb min length other x val) (hlength : 0 < length) {i : ℤ}
    (h0 : 0 ≤ i) (hreach : other < min + (i + 1) * length) : x ≤ i := by
  by_contra hlt
  have hbefore := h.before (by omega)
  have hle : (i + 1) * length ≤ x * length := mul_le_mul_of_nonneg_right (by omega) hlength.le
  rw [h.val_eq] at hbefore
  omega

end LowSide

namespace HighSide

variable {nb max length other x val : ℤ}

theorem start (hnb : 1 ≤ nb) : HighSide nb max length other (nb - 1) max where
  nonneg := by omega
  le := le_rfl
  val_eq := by ring
  behind := fun h => absurd h (lt_irrefl _)

theorem le_max (h : HighSide nb max length other x val) (hlength : 0 < length) : val ≤ max := by
  have hmoved : 0 ≤ (nb - 1 - x) * length := mul_nonneg (by have := h.le; omega) hlength.le
  rw [h.val_eq]
  omega

/-- A column moves only while the other one has not moved, and only if it has two
intervals: a single one would reach down to its minimum, which is not behind the other
column. -/
theorem move {A : CInt} {min : ℤ} (hcolumn : TrimColumn A nb min max length)
    (hoverlap : min ≤ other) (h : HighSide nb max length other x val)
    {nb' length' x' val' : ℤ} (h' : HighSide nb' other length' max x' val')
    (hlt : val' < val - length) (hne : x ≠ 1) :
    HighSide nb max length other (x - 1) (val - length) := by
  have hlength := hcolumn.lengthPos
  have hle := h.le_max hlength
  have hother : val' = other := by
    have hvalue := h'.val_eq
    rcases h'.le.eq_or_lt with hlast | hmoved
    · rw [hvalue, hlast]
      ring
    · have := (h'.behind hmoved).2
      omega
  have htwo : 1 ≤ x := by
    rcases h.le.eq_or_lt with hlast | hmoved
    · by_contra hfew
      have hone : nb = 1 := by have := hcolumn.countPos; omega
      have hcover := hcolumn.covers
      rw [hone, one_mul] at hcover
      omega
    · exact (h.behind hmoved).1
  refine ⟨by omega, by have := h.le; omega, ?_, fun _ => ⟨by omega, by omega⟩⟩
  rw [h.val_eq]
  ring

/-- A bucket that starts before the end of the other column is not dropped from above. -/
theorem le_of_reaches {A : CInt} {min : ℤ} (hcolumn : TrimColumn A nb min max length)
    (h : HighSide nb max length other x val) {i : ℤ} (hi : i < nb)
    (hreach : min + i * length ≤ other) : i ≤ x := by
  by_contra hlt
  have hbehind := (h.behind (by omega)).2
  have hcover := hcolumn.covers
  -- what is dropped starts within the room that rounding up has left
  have hle : (x + 1) * length ≤ i * length :=
    mul_le_mul_of_nonneg_right (by omega) hcolumn.lengthPos.le
  have hsplit : (nb - 1 - x) * length = nb * length - (x + 1) * length := by ring
  rw [h.val_eq, hsplit] at hbehind
  omega

end HighSide

/-- The two loops do not cross. -/
theorem LowSide.le_highSide {A : CInt} {nb min max length otherMin otherMax x val x' val' : ℤ}
    (hcolumn : TrimColumn A nb min max length) (hother : otherMin ≤ otherMax)
    (hlow : LowSide nb min length otherMin x val)
    (hhigh : HighSide nb max length otherMax x' val') : x ≤ x' := by
  rcases hlow.nonneg.eq_or_lt with hzero | hpos
  · exact hzero ▸ hhigh.nonneg
  rcases hhigh.le.eq_or_lt with hlast | hmoved
  · have := hlow.lt
    omega
  · -- the other column lies between the two values
    have hbefore := hlow.before hpos
    have hbehind := (hhigh.behind hmoved).2
    have hcover := hcolumn.covers
    rw [hlow.val_eq] at hbefore
    rw [hhigh.val_eq] at hbehind
    have hlt : (x + (nb - 1 - x')) * length < nb * length := by
      rw [add_mul]
      omega
    have := lt_of_mul_lt_mul_right hlt hcolumn.lengthPos.le
    omega

/-- A bucket meets the span from `lo` to `hi`. -/
def MeetsSpan (min length : ℤ) (i : ℕ) (lo hi : ℤ) : Prop :=
  (Set.Ico (bucketStart min length i) (bucketStart min length (i + 1)) ∩ Set.Icc lo hi).Nonempty

theorem MeetsSpan.reaches {min length lo hi : ℤ} {i : ℕ} (h : MeetsSpan min length i lo hi) :
    lo < min + ((i : ℤ) + 1) * length ∧ min + i * length ≤ hi := by
  obtain ⟨v, ⟨hstart, hend⟩, hlo, hhi⟩ := h
  unfold bucketStart at hstart hend
  push_cast at hend
  exact ⟨hlo.trans_lt hend, hstart.trans hhi⟩

/-! ### Both loops -/

section Loops

variable {A : CInt} {nb1 nb2 min1 max1 min2 max2 length1 length2 : ℤ}
  (h1 : TrimColumn A nb1 min1 max1 length1) (h2 : TrimColumn A nb2 min2 max2 length2)

include h1 h2

/-- Where the loop `LOW` brings the columns. -/
theorem lowLoop_sides {fuel : ℕ} {low : Trim}
    (hrun : (lowLoop A nb1 nb2 length1 length2).run .outOfFuel fuel ⟨0, 0, min1, min2⟩ =
      .ok low) :
    LowSide nb1 min1 length1 min2 low.x low.val1 ∧
      LowSide nb2 min2 length2 min1 low.y low.val2 := by
  refine (Loop.run_inv (fun s => LowSide nb1 min1 length1 min2 s.x s.val1 ∧
    LowSide nb2 min2 length2 min1 s.y s.val2) ?_ fuel
    ⟨.start h1.countPos, .start h2.countPos⟩ hrun).1
  rintro s s' ⟨hs1, hs2⟩ hround
  have hkeep1 := h1.keeps_end hs1.nonneg hs1.lt
  have hkeep2 := h2.keeps_end hs2.nonneg hs2.lt
  rw [← hs1.val_eq] at hkeep1
  rw [← hs2.val_eq] at hkeep2
  rcases lowLoop_round h1.lengthPos h2.lengthPos hkeep1 hkeep2 hround with
    ⟨hlt, rfl, hne⟩ | ⟨hlt, rfl, hne⟩
  · exact ⟨hs1.move h1.lengthPos hs2 hlt hne, hs2⟩
  · exact ⟨hs1, hs2.move h2.lengthPos hs1 hlt hne⟩

/-- Where the loop `HIGH` brings the columns. -/
theorem highLoop_sides (hoverlap1 : min1 ≤ max2) (hoverlap2 : min2 ≤ max1) {fuel : ℕ}
    {high : Trim}
    (hrun : (highLoop A length1 length2).run .outOfFuel fuel ⟨nb1 - 1, nb2 - 1, max1, max2⟩ =
      .ok high) :
    HighSide nb1 max1 length1 max2 high.x high.val1 ∧
      HighSide nb2 max2 length2 max1 high.y high.val2 := by
  refine (Loop.run_inv (fun s => HighSide nb1 max1 length1 max2 s.x s.val1 ∧
    HighSide nb2 max2 length2 max1 s.y s.val2) ?_ fuel
    ⟨.start h1.countPos, .start h2.countPos⟩ hrun).1
  rintro s s' ⟨hs1, hs2⟩ hround
  have hkeep1 := h1.keeps_front hs1.nonneg hs1.le
  have hkeep2 := h2.keeps_front hs2.nonneg hs2.le
  rw [← hs1.val_eq] at hkeep1
  rw [← hs2.val_eq] at hkeep2
  rcases highLoop_round h1.lengthPos h2.lengthPos hkeep1 hkeep2 hround with
    ⟨hlt, rfl, hne⟩ | ⟨hlt, rfl, hne⟩
  · exact ⟨hs1.move h1 hoverlap1 hs2 hlt hne, hs2⟩
  · exact ⟨hs1, hs2.move h2 hoverlap2 hs1 hlt hne⟩

end Loops

/-- The spans from 0 to 14 and from 7 to 21, in three intervals of five each. -/
theorem trimColumn_from_0 : TrimColumn .int32 3 0 14 5 := by
  constructor <;> decide +kernel

theorem trimColumn_from_7 : TrimColumn .int32 3 7 21 5 := by
  constructor <;> decide +kernel

/-- The locals with the two columns exchanged. -/
def Merge.swap (s : Merge) : Merge := ⟨s.idx2, s.idx1, s.min2, s.min1, s.total⟩

/-- Exchanging the columns renames the loop that combines them. -/
theorem mergeLoop_swap (A : CInt) (R : CFloat) (freq1 freq2 : List FloatQ)
    (size1 size2 length1 length2 : ℤ) :
    Loop.Renames Merge.swap (mergeLoop A R freq1 freq2 size1 size2 length1 length2)
      (mergeLoop A R freq2 freq1 size2 size1 length2 length1) := by
  refine ⟨fun s => ?_, fun s => ?_, fun s => rfl⟩
  · simp only [mergeLoop, Merge.swap]
    rw [Bool.and_comm]
  · have hproduct : R.mul (freq2[s.idx2]?.getD (.fin 0)) (freq1[s.idx1]?.getD (.fin 0)) =
        R.mul (freq1[s.idx1]?.getD (.fin 0)) (freq2[s.idx2]?.getD (.fin 0)) := by
      rw [CFloat.mul, CFloat.mul, FloatQ.mul_comm]
    rcases lt_trichotomy s.min1 s.min2 with h | h | h
    · simp [mergeLoop, Merge.swap, h, h.not_gt, hproduct, Except.map]
    · simp [mergeLoop, Merge.swap, h, hproduct, Except.map]
    · simp [mergeLoop, Merge.swap, h, h.not_gt, hproduct, Except.map]

theorem computeSelectivity_swap (A : CInt) (R : CFloat) (freq1 freq2 : List FloatQ)
    (size1 size2 length1 length2 min1 min2 : ℤ) :
    computeSelectivity A R freq2 freq1 size2 size1 length2 length1 min2 min1 =
      computeSelectivity A R freq1 freq2 size1 size2 length1 length2 min1 min2 := by
  have hrun := (mergeLoop_swap A R freq1 freq2 size1 size2 length1 length2).run .outOfFuel
    (size1.toNat + size2.toNat) ⟨0, 0, min1, min2, .fin 0⟩
  unfold computeSelectivity
  rw [add_comm size2.toNat]
  change (mergeLoop A R freq2 freq1 size2 size1 length2 length1).run _ _
    (Merge.swap ⟨0, 0, min1, min2, .fin 0⟩) >>= _ = _
  rw [hrun]
  cases (mergeLoop A R freq1 freq2 size1 size2 length1 length2).run .outOfFuel
    (size1.toNat + size2.toNat) ⟨0, 0, min1, min2, .fin 0⟩ with
  | error e => rfl
  | ok s => rfl

/-- What `rangeoverlapsjoinsel_inner` does once the interval lengths are known. -/
def trimAndMerge (A : CInt) (R : CFloat) (freqValues1 freqValues2 : List FloatQ) (rows1 rows2 : ℕ)
    (min1 min2 max1 max2 intervalLength1 intervalLength2 : ℤ) : Except Fault FloatQ := do
  let nb1 := freqValues1.length
  let nb2 := freqValues2.length
  let low ← (lowLoop A nb1 nb2 intervalLength1 intervalLength2).run .outOfFuel
    (trimFuel nb1 nb2 (min1 - min2)) ⟨0, 0, min1, min2⟩
  let high ← (highLoop A intervalLength1 intervalLength2).run .outOfFuel
    (trimFuel nb1 nb2 (max1 - max2)) ⟨nb1 - 1, nb2 - 1, max1, max2⟩
  let result ← computeSelectivity A R (freqValues1.drop low.x.toNat) (freqValues2.drop low.y.toNat)
    (high.x - low.x + 1) (high.y - low.y + 1) intervalLength1 intervalLength2 low.val1 low.val2
  return R.div result (.fin (A.wrap (rows1 * rows2)))

section Swap

variable (A : CInt) (R : CFloat) (freqValues1 freqValues2 : List FloatQ) (rows1 rows2 : ℕ)
  (min1 min2 max1 max2 : ℤ)

theorem rangeoverlapsjoinselInner_eq_bind :
    rangeoverlapsjoinselInner A R freqValues1 freqValues2 rows1 rows2 min1 min2 max1 max2 =
      joinIntervalLength A freqValues1.length min1 max1 >>= fun length1 =>
      joinIntervalLength A freqValues2.length min2 max2 >>= fun length2 =>
      trimAndMerge A R freqValues1 freqValues2 rows1 rows2 min1 min2 max1 max2 length1 length2 :=
  rfl

theorem trimFuel_swap (nb1 nb2 : ℕ) (a b : ℤ) :
    trimFuel nb2 nb1 (b - a) = trimFuel nb1 nb2 (a - b) := by
  unfold trimFuel
  omega

theorem trimAndMerge_swap (length1 length2 : ℤ) :
    trimAndMerge A R freqValues2 freqValues1 rows2 rows1 min2 min1 max2 max1 length2 length1 =
      trimAndMerge A R freqValues1 freqValues2 rows1 rows2 min1 min2 max1 max2 length1 length2 := by
  have hlow := (lowLoop_swap A freqValues1.length freqValues2.length length1 length2).run .outOfFuel
    (trimFuel freqValues1.length freqValues2.length (min1 - min2)) ⟨0, 0, min1, min2⟩
  have hhigh := (highLoop_swap A length1 length2).run .outOfFuel
    (trimFuel freqValues1.length freqValues2.length (max1 - max2))
    ⟨freqValues1.length - 1, freqValues2.length - 1, max1, max2⟩
  simp only [Trim.swap] at hlow hhigh
  simp only [trimAndMerge, trimFuel_swap, hlow, hhigh]
  cases (lowLoop A freqValues1.length freqValues2.length length1 length2).run .outOfFuel
      (trimFuel freqValues1.length freqValues2.length (min1 - min2)) ⟨0, 0, min1, min2⟩ with
  | error e => rfl
  | ok low =>
    cases (highLoop A length1 length2).run .outOfFuel
        (trimFuel freqValues1.length freqValues2.length (max1 - max2))
        ⟨freqValues1.length - 1, freqValues2.length - 1, max1, max2⟩ with
    | error e => rfl
    | ok high =>
      simp only [Except.map, bind, Except.bind]
      rw [computeSelectivity_swap, mul_comm (rows2 : ℤ)]
      rfl

/-- The interval length of a column can fail to be computed for one reason only. -/
theorem joinIntervalLength_error {nb : ℕ} {min max : ℤ} {e : Fault}
    (h : joinIntervalLength A nb min max = .error e) : e = .divisionByZero := by
  unfold joinIntervalLength at h
  rcases nb.eq_zero_or_pos with rfl | hpos
  · simp only [roundUpDivision, Nat.cast_zero, ↓reduceIte, Except.error.injEq] at h
    exact h.symm
  · rw [roundUpDivision_of_pos A (by omega) (A.wrap_wrap _)] at h
    cases h

theorem joinIntervalLength_pos {A : CInt} {nb : ℕ} {min max length : ℤ}
    (h : joinIntervalLength A nb min max = .ok length) : 0 < nb := by
  have := (roundUpDivision_inv A h).1
  omega

section Fuel

variable {length1 length2 : ℤ} (hpos1 : 0 < length1) (hpos2 : 0 < length2)

include hpos1 hpos2

/-- The loop `LOW` does not run out of rounds: a move brings the two values closer. -/
theorem lowLoop_ne_outOfFuel {nb1 nb2 : ℤ} {fuel : ℕ} {s : Trim}
    (hfuel : (s.val1 - s.val2).natAbs < fuel) :
    (lowLoop .unbounded nb1 nb2 length1 length2).run .outOfFuel fuel s ≠ .error .outOfFuel := by
  refine Loop.run_ne_timeout (fun s => (s.val1 - s.val2).natAbs) (fun s => ?_) (fun s => ?_)
    (fun s s' hround => ?_) hfuel
  · simp only [lowLoop]
    split_ifs <;> simp
  · simp only [lowLoop]
    split_ifs <;> simp
  · rcases lowLoop_round hpos1 hpos2 rfl rfl hround with ⟨hlt, rfl, -⟩ | ⟨hlt, rfl, -⟩
    · dsimp only
      omega
    · dsimp only
      omega

/-- Nor does the loop `HIGH`. -/
theorem highLoop_ne_outOfFuel {fuel : ℕ} {s : Trim} (hfuel : (s.val1 - s.val2).natAbs < fuel) :
    (highLoop .unbounded length1 length2).run .outOfFuel fuel s ≠ .error .outOfFuel := by
  refine Loop.run_ne_timeout (fun s => (s.val1 - s.val2).natAbs) (fun s => ?_) (fun s => ?_)
    (fun s s' hround => ?_) hfuel
  · simp only [highLoop]
    split_ifs <;> simp
  · simp only [highLoop]
    split_ifs <;> simp
  · rcases highLoop_round hpos1 hpos2 rfl rfl hround with ⟨hlt, rfl, -⟩ | ⟨hlt, rfl, -⟩
    · dsimp only
      omega
    · dsimp only
      omega

theorem trimAndMerge_ne_outOfFuel (hnb : 0 < freqValues1.length) :
    trimAndMerge .unbounded R freqValues1 freqValues2 rows1 rows2 min1 min2 max1 max2 length1
      length2 ≠ .error .outOfFuel := by
  have hfuel : ∀ d : ℤ, d.natAbs < trimFuel freqValues1.length freqValues2.length d := by
    intro d
    dsimp only [trimFuel]
    omega
  refine bind_ne_error (lowLoop_ne_outOfFuel hpos1 hpos2 (hfuel _)) fun low _ =>
    bind_ne_error (highLoop_ne_outOfFuel hpos1 hpos2 (hfuel _)) fun high _ => ?_
  obtain ⟨total, htotal⟩ := computeSelectivity_total .unbounded R (freqValues1.drop low.x.toNat)
    (freqValues2.drop low.y.toNat) (high.x - low.x + 1) (high.y - low.y + 1) length1 length2
    low.val1 low.val2
  rw [htotal]
  nofun

end Fuel

/-- Exchanging the columns changes nothing: the same error is raised, or the same estimate
returned. Over unbounded integers one of these comes about. -/
theorem rangeoverlapsjoinselInner_symm :
    rangeoverlapsjoinselInner A R freqValues2 freqValues1 rows2 rows1 min2 min1 max2 max1 =
        rangeoverlapsjoinselInner A R freqValues1 freqValues2 rows1 rows2 min1 min2 max1 max2 ∧
      (min1 ≤ max1 → min2 ≤ max2 →
        rangeoverlapsjoinselInner .unbounded R freqValues1 freqValues2 rows1 rows2 min1 min2 max1
          max2 ≠ .error .outOfFuel) := by
  constructor
  · rw [rangeoverlapsjoinselInner_eq_bind, rangeoverlapsjoinselInner_eq_bind,
      bind_comm_of_error (fun e => joinIntervalLength_error A) (fun e => joinIntervalLength_error A)]
    simp only [trimAndMerge_swap]
  · intro hspan1 hspan2
    rw [rangeoverlapsjoinselInner_eq_bind]
    refine bind_ne_error (fun h => ?_) fun length1 h1 => bind_ne_error (fun h => ?_)
      fun length2 h2 => ?_
    · cases joinIntervalLength_error _ h
    · cases joinIntervalLength_error _ h
    · have hnb1 := joinIntervalLength_pos h1
      have hnb2 := joinIntervalLength_pos h2
      exact trimAndMerge_ne_outOfFuel R freqValues1 freqValues2 rows1 rows2 min1 min2 max1 max2
        (TrimColumn.unbounded hspan1 (by omega) h1).lengthPos
        (TrimColumn.unbounded hspan2 (by omega) h2).lengthPos hnb1

end Swap

/-- Two columns, once in either order. -/
theorem rangeoverlapsjoinselInner_symm_two :
    rangeoverlapsjoinselInner .int32 .float8 [.fin 1, .fin 1] [.fin 2, .fin 0] 2 2 5 0 14 9 =
        rangeoverlapsjoinselInner .int32 .float8 [.fin 2, .fin 0] [.fin 1, .fin 1] 2 2 0 5 9 14 ∧
      rangeoverlapsjoinselInner .unbounded .float8 [.fin 2, .fin 0] [.fin 1, .fin 1] 2 2 0 5 9 14 ≠
        .error .outOfFuel := by
  have h := rangeoverlapsjoinselInner_symm .int32 .float8 [.fin 2, .fin 0] [.fin 1, .fin 1] 2 2 0 5 9
    14
  exact ⟨h.1, h.2 (by decide) (by decide)⟩

end PgRange.Selectivity
