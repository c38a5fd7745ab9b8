import PgRange.Selectivity.RestEstimate

/-!
# The buckets that a restriction estimate for `&&` counts

The loop of `rangerestsel_inner` for `&&` adds the frequency of each bucket that passes
`IsInRange` and breaks at the first failure behind a success. On a column without overflow
the buckets that pass are in a row, so the break loses nothing, and a wider constant is
met by more of them.

`IsInRange` takes all ends as included, though a bucket and a constant both leave out
their upper end. A bucket that only touches the constant is counted as well. And a bucket
whose end is not an `int` is tested with an end that has wrapped around.

## Main results

* `rangerestselInner_overlap_monotone` — the break loses nothing, and the estimate grows
  with the constant
* `rangerestselInner_halfOpen_iff` — when the buckets that are counted are those that have an
  integer in common with the constant
-/

set_option autoImplicit false

namespace PgRange.Selectivity

open Math Stats

/-! ### The rounds that add a frequency -/

section Counted

variable (A : CInt) (R : CFloat) (min1 intervalLength a b : ℤ)

/-- The buckets, of `n`, whose frequencies the loop for `&&` adds. -/
def countedBuckets (n : ℕ) : List ℕ :=
  firstRun (restInRange A min1 intervalLength a b) (List.range n)

/-- The sum for `&&` is that of the counted buckets, whatever the frequencies are. -/
theorem overlapSum_eq_addFrequencies (freqs : List FloatQ) :
    overlapSum A R min1 intervalLength a b freqs =
      addFrequencies R freqs (countedBuckets A min1 intervalLength a b freqs.length) := by
  rw [overlapSum, firstRun_eq_map_getD _ _ (.fin 0)]
  rfl

end Counted

/-! ### Leaving the loop early, and wider constants -/

namespace RestColumn

variable {A : CInt} {nb : ℕ} {min1 max1 : ℤ} (h : RestColumn A nb min1 max1)

include h

/-- The break loses no bucket that passes the test. -/
theorem countedBuckets_eq_filter (a b : ℤ) :
    countedBuckets A min1 (restLength A nb min1 max1) a b nb =
      (List.range nb).filter (restInRange A min1 (restLength A nb min1 max1) a b) := by
  refine firstRun_range fun i j k hij hjk hk hi hk' => ?_
  rw [h.restInRange_eq a b (by omega), decide_eq_true_eq] at hi hk' ⊢
  exact hi.between (h.restLength_pos (by omega)) hk' hij hjk

/-- A wider constant is met by more buckets. -/
theorem countedBuckets_sublist {a b a' b' : ℤ} (ha : a' ≤ a) (hb : b ≤ b') :
    (countedBuckets A min1 (restLength A nb min1 max1) a b nb).Sublist
      (countedBuckets A min1 (restLength A nb min1 max1) a' b' nb) := by
  rw [h.countedBuckets_eq_filter, h.countedBuckets_eq_filter]
  refine List.monotone_filter_right _ fun i hi => ?_
  rw [restInRange_eq_true_iff] at hi ⊢
  exact ⟨ha.trans hi.1, hi.2.trans hb⟩

end RestColumn

/-- The estimate for `&&` is the sum over all buckets that pass the test, by the rows, as
if the loop did not break; and a constant that contains another one has no smaller
estimate. -/
theorem rangerestselInner_overlap_monotone {A : CInt} {R : CFloat} {freqValues : List FloatQ}
    (hfreq : ∀ f ∈ freqValues, (FloatQ.fin 0).le f = true) {rows : ℕ} (hrows : 1 ≤ rows)
    {min1 max1 : ℤ} (h : RestColumn A freqValues.length min1 max1) :
    (∀ lower upper : RangeBound Datum,
      rangerestselInner A R freqValues rows min1 max1 lower upper .overlap =
        (restIntervalLength A freqValues.length min1 max1).map fun length =>
          R.div (addFrequencies R freqValues ((List.range freqValues.length).filter
            (restInRange A min1 length (A.wrap lower.val.toInt) (A.wrap upper.val.toInt))))
              (.fin rows)) ∧
    (freqValues ≠ [] → ∀ lower upper lower' upper' : RangeBound Datum,
      A.wrap lower'.val.toInt ≤ A.wrap lower.val.toInt →
      A.wrap upper.val.toInt ≤ A.wrap upper'.val.toInt →
      ∃ e e', rangerestselInner A R freqValues rows min1 max1 lower upper .overlap = .ok e ∧
        rangerestselInner A R freqValues rows min1 max1 lower' upper' .overlap = .ok e' ∧
        e.le e' = true) := by
  constructor
  · intro lower upper
    rcases eq_or_ne freqValues [] with rfl | hne
    · rfl
    rw [rangerestselInner_eq A R min1 max1 hne, restIntervalLength_eq A min1 max1
      (by simpa using hne), restSum, overlapSum_eq_addFrequencies, h.countedBuckets_eq_filter]
    rfl
  · intro hne lower upper lower' upper' hlow hupp
    refine ⟨_, _, rangerestselInner_eq A R min1 max1 hne rows lower upper .overlap,
      rangerestselInner_eq A R min1 max1 hne rows lower' upper' .overlap, ?_⟩
    rw [restSum, restSum, overlapSum_eq_addFrequencies, overlapSum_eq_addFrequencies]
    exact CFloat.div_le_div (addFrequencies_le hfreq (h.countedBuckets_sublist hlow hupp))
      (Nat.cast_pos.mpr hrows)

/-- Two rows `[100,108)`: the constants `[103,105)` and `[100,108)`. -/
theorem rangerestselInner_overlap_monotone_inner :
    ∃ e e',
      rangerestselInner .int32 .float8 (eightQuarters.map .fin) 2 100 108 (int4Lower 103)
        (int4Upper 105) .overlap = .ok e ∧
      rangerestselInner .int32 .float8 (eightQuarters.map .fin) 2 100 108 (int4Lower 100)
        (int4Upper 108) .overlap = .ok e' ∧ e.le e' = true :=
  (rangerestselInner_overlap_monotone (by decide +kernel) (by decide)
    ⟨by decide, by decide, by decide, by decide⟩).2 (by decide) _ _ _ _ (by decide) (by decide)

/-! ### Ends that are left out -/

/-- A bucket and the constant `[a,b)` have an integer in common. -/
def MeetsHalfOpen (min1 length a b : ℤ) (i : ℕ) : Prop :=
  (Set.Ico (bucketStart min1 length i) (bucketStart min1 length (i + 1)) ∩ Set.Ico a b).Nonempty

theorem meetsHalfOpen_iff {min1 length a b : ℤ} (hab : a < b) (i : ℕ) :
    MeetsHalfOpen min1 length a b i ↔
      0 < length ∧ a < bucketStart min1 length (i + 1) ∧ bucketStart min1 length i < b := by
  have hstep := bucketStart_succ min1 length i
  rw [MeetsHalfOpen, Set.Ico_inter_Ico, Set.nonempty_Ico, max_lt_iff, lt_min_iff, lt_min_iff]
  omega

/-- The estimate for `&&` counts the buckets that have an integer in common with the
constant, and it is zero for a constant before or behind all of them. -/
def CountsHalfOpen (A : CInt) (R : CFloat) (freqValues : List FloatQ) (min1 max1 : ℤ)
    (lower upper : RangeBound Datum) : Prop :=
  ∃ length, restIntervalLength A freqValues.length min1 max1 = .ok length ∧
    (∀ i < freqValues.length,
      i ∈ countedBuckets A min1 length (A.wrap lower.val.toInt) (A.wrap upper.val.toInt)
          freqValues.length ↔
        MeetsHalfOpen min1 length (A.wrap lower.val.toInt) (A.wrap upper.val.toInt) i) ∧
    (A.wrap upper.val.toInt ≤ min1 ∨
        bucketStart min1 length freqValues.length ≤ A.wrap lower.val.toInt →
      ∀ rows, 1 ≤ rows →
        rangerestselInner A R freqValues rows min1 max1 lower upper .overlap = .ok (.fin 0))

/-- No bucket only touches the constant, and none is met or missed because its end has wrapped
around: one whose end is too large for an `int` and that has integers in common with the
constant is the last one and still passes with the wrapped end, and one that has none, and that
no bucket before it has stopped the loop for, fails. -/
structure CountsExactly (nb : ℕ) (min1 length a b : ℤ) : Prop where
  inside : ∀ i < nb, bucketStart min1 length (i + 1) ≤ int4Max →
    a ≠ bucketStart min1 length (i + 1) ∧ b ≠ bucketStart min1 length i
  across : ∀ i < nb, int4Max < bucketStart min1 length (i + 1) → bucketStart min1 length i < b →
    i + 1 = nb ∧ a ≤ bucketStart min1 length (i + 1) - 4294967296
  beyond : ∀ i < nb, int4Max < bucketStart min1 length (i + 1) →
    b = bucketStart min1 length i ∨ b ≤ min1 → restInRange .int32 min1 length a b i = false

section Wraps

variable {nb : ℕ} {min1 length a b : ℤ} (hlength : 0 < length) (hmin : FitsInt32 min1)

include hlength

theorem wrap_bucketStart_of_lt (hend : bucketStart min1 length nb ≤ 4294967295) {i : ℕ}
    (hi : i ≤ nb) (hlt : int4Max < bucketStart min1 length i) :
    CInt.int32.wrap (bucketStart min1 length i) = bucketStart min1 length i - 4294967296 := by
  have hle := (bucketStart_le min1 hlength hi).trans hend
  unfold int4Max at hlt
  rw [CInt.int32_wrap, CInt.wrap32]
  omega

omit hlength in
/-- A value in the column is reached by a bucket. -/
theorem exists_bucket_across {i : ℕ} (hlow : min1 < b) (hupp : b ≤ bucketStart min1 length i) :
    ∃ j < i, bucketStart min1 length j < b ∧ b ≤ bucketStart min1 length (j + 1) := by
  induction i with
  | zero =>
    rw [bucketStart_zero] at hupp
    omega
  | succ i ih =>
    rcases lt_or_ge (bucketStart min1 length i) b with hlt | hge
    · exact ⟨i, Nat.lt_succ_self i, hlt, hupp⟩
    · obtain ⟨j, hj, hreach⟩ := ih hge
      exact ⟨j, Nat.lt_succ_of_lt hj, hreach⟩

include hmin

theorem wrap_bucketStart_of_le {i : ℕ} (hle : bucketStart min1 length i ≤ int4Max) :
    CInt.int32.wrap (bucketStart min1 length i) = bucketStart min1 length i := by
  have hge := bucketStart_le min1 hlength (Nat.zero_le i)
  rw [bucketStart_zero] at hge
  exact CInt.int32.wrap_of_fits ⟨hmin.1.trans hge, hle⟩

/-- The test of a bucket whose end is an `int`. -/
theorem restInRange_iff_of_le {i : ℕ} (hle : bucketStart min1 length (i + 1) ≤ int4Max) :
    restInRange .int32 min1 length a b i = true ↔
      a ≤ bucketStart min1 length (i + 1) ∧ bucketStart min1 length i ≤ b := by
  have hstep := bucketStart_le min1 hlength (Nat.le_add_right i 1)
  rw [restInRange_eq_true_iff, wrap_bucketStart_of_le hlength hmin hle,
    wrap_bucketStart_of_le hlength hmin (hstep.trans hle)]

/-- The test of a bucket of which only the start is one. -/
theorem restInRange_iff_across (hend : bucketStart min1 length nb ≤ 4294967295) {i : ℕ}
    (hi : i < nb) (hlt : int4Max < bucketStart min1 length (i + 1))
    (hle : bucketStart min1 length i ≤ int4Max) :
    restInRange .int32 min1 length a b i = true ↔
      a ≤ bucketStart min1 length (i + 1) - 4294967296 ∧ bucketStart min1 length i ≤ b := by
  rw [restInRange_eq_true_iff, wrap_bucketStart_of_lt hlength hend hi hlt,
    wrap_bucketStart_of_le hlength hmin hle]

variable (hb : FitsInt32 b)

include hb

/-- Before a bucket that starts at or below the upper bound of the constant, no failure is behind
a success. -/
theorem restInRange_of_lt {i k m : ℕ} (hstart : bucketStart min1 length i ≤ b) (hk : k < i)
    (hm : m < k) (htest : restInRange .int32 min1 length a b m = true) :
    restInRange .int32 min1 length a b k = true := by
  have hle : b ≤ int4Max := hb.2
  have hki := bucketStart_le min1 hlength (show k + 1 ≤ i from hk)
  have hkk := bucketStart_le min1 hlength (show k ≤ i from hk.le)
  have hmk := bucketStart_le min1 hlength (show m + 1 ≤ k + 1 by omega)
  rw [restInRange_iff_of_le hlength hmin (by omega)] at htest ⊢
  exact ⟨htest.1.trans hmk, hkk.trans hstart⟩

/-- So it is counted if it passes. -/
theorem mem_countedBuckets_of_le {i : ℕ} (hi : i < nb) (hstart : bucketStart min1 length i ≤ b)
    (htest : restInRange .int32 min1 length a b i = true) :
    i ∈ countedBuckets .int32 min1 length a b nb :=
  mem_firstRun_range.mpr
    ⟨hi, htest, fun _ hk _ hm => restInRange_of_lt hlength hmin hb hstart hk hm⟩

variable (hend : bucketStart min1 length nb ≤ 4294967295) (ha : FitsInt32 a) (hab : a < b)

include hend ha hab

omit hb ha hab in
/-- The bucket after the one that wraps around has wrapped around altogether, and passes if it
does. -/
theorem restInRange_succ_of_across {i : ℕ} (hi : i + 1 < nb)
    (hlt : int4Max < bucketStart min1 length (i + 1))
    (hlow : a ≤ bucketStart min1 length (i + 1) - 4294967296)
    (hstart : bucketStart min1 length i < b) :
    restInRange .int32 min1 length a b (i + 1) = true := by
  have hfirst := bucketStart_le min1 hlength (Nat.zero_le i)
  have hlast := (bucketStart_le min1 hlength (show i + 1 + 1 ≤ nb from hi)).trans hend
  have hsucc := bucketStart_succ min1 length i
  have hsucc' := bucketStart_succ min1 length (i + 1)
  have hmin' := hmin.1
  rw [bucketStart_zero] at hfirst
  rw [restInRange_eq_true_iff, wrap_bucketStart_of_lt hlength hend
    (show i + 1 + 1 ≤ nb from hi) (by omega), wrap_bucketStart_of_lt hlength hend hi.le hlt]
  omega

/-- If the buckets that are counted are those that have an integer in common with the constant,
then none only touches it, or has wrapped around. -/
theorem countsExactly_of_counts (hcounts : ∀ i < nb, i ∈ countedBuckets .int32 min1 length a b nb ↔
      a < bucketStart min1 length (i + 1) ∧ bucketStart min1 length i < b) :
    CountsExactly nb min1 length a b := by
  have hamax : a ≤ int4Max := ha.2
  have hbmax : b ≤ int4Max := hb.2
  have hstep : ∀ i, bucketStart min1 length i < bucketStart min1 length (i + 1) := fun i =>
    bucketStart_strictMono min1 hlength (Nat.lt_succ_self i)
  -- a bucket that passes, and starts within the constant, has an integer in common with it
  have hmeets : ∀ {i}, i < nb → bucketStart min1 length i ≤ b →
      restInRange .int32 min1 length a b i = true → _ := fun hi hstart htest =>
    (hcounts _ hi).mp (mem_countedBuckets_of_le hlength hmin hb hi hstart htest)
  refine ⟨fun i hi hle => ⟨?_, ?_⟩, fun i hi hlt hstart => ?_, fun i hi hlt hstart => ?_⟩
  · rintro rfl
    have hwithin : bucketStart min1 length i ≤ b := ((hstep i).trans hab).le
    exact lt_irrefl _ (hmeets hi hwithin
      ((restInRange_iff_of_le hlength hmin hle).mpr ⟨le_rfl, hwithin⟩)).1
  · rintro rfl
    exact lt_irrefl _ (hmeets hi le_rfl
      ((restInRange_iff_of_le hlength hmin hle).mpr ⟨(hab.trans (hstep i)).le, le_rfl⟩)).2
  · have htest := (mem_firstRun_range.mp ((hcounts i hi).mpr ⟨by omega, hstart⟩)).2.1
    have hacross := (restInRange_iff_across hlength hmin hend hi hlt (by omega)).mp htest
    refine ⟨?_, hacross.1⟩
    by_contra hlast
    have hi' : i + 1 < nb := by omega
    have hnext := restInRange_succ_of_across hlength hmin hend hi' hlt hacross.1 hstart
    have hcounted : i + 1 ∈ countedBuckets .int32 min1 length a b nb := by
      refine mem_firstRun_range.mpr ⟨hi', hnext, fun k hk m hm hm' => ?_⟩
      rcases Nat.lt_or_eq_of_le (Nat.lt_succ_iff.mp hk) with hki | rfl
      · exact restInRange_of_lt hlength hmin hb hstart.le hki hm hm'
      · exact htest
    have := ((hcounts _ hi').mp hcounted).2
    omega
  · by_contra htest
    rw [Bool.not_eq_false] at htest
    rcases hstart with rfl | hbefore
    · exact lt_irrefl _ (hmeets hi le_rfl htest).2
    · -- a bucket is counted, and starts behind the constant
      obtain ⟨j, hj⟩ := exists_mem_firstRun_range hi htest
      have hlt := ((hcounts j (mem_firstRun_range.mp hj).1).mp hj).2
      have hge := bucketStart_le min1 hlength (Nat.zero_le j)
      rw [bucketStart_zero] at hge
      omega

/-- And the other way around. -/
theorem counts_of_countsExactly (h : CountsExactly nb min1 length a b) {i : ℕ} (hi : i < nb) :
    i ∈ countedBuckets .int32 min1 length a b nb ↔
      a < bucketStart min1 length (i + 1) ∧ bucketStart min1 length i < b := by
  have hamax : a ≤ int4Max := ha.2
  have hbmax : b ≤ int4Max := hb.2
  constructor
  · intro hcounted
    obtain ⟨-, htest, hrun⟩ := mem_firstRun_range.mp hcounted
    rcases le_or_gt (bucketStart min1 length (i + 1)) int4Max with hle | hlt
    · rw [restInRange_iff_of_le hlength hmin hle] at htest
      obtain ⟨hne, hne'⟩ := h.inside i hi hle
      omega
    · refine ⟨by omega, ?_⟩
      by_contra hge
      rw [not_lt] at hge
      by_cases hstart : b = bucketStart min1 length i ∨ b ≤ min1
      · rw [h.beyond i hi hlt hstart] at htest
        cases htest
      rw [not_or, not_le] at hstart
      -- the last bucket that starts below the upper bound is met, and the next one is not
      obtain ⟨j, hji, hj, hj'⟩ := exists_bucket_across hstart.2 hge
      have hle : bucketStart min1 length (j + 1) ≤ int4Max := by
        by_contra hlt
        have hlast := (h.across j (hji.trans hi) (not_le.mp hlt) hj).1
        omega
      have hmet := (restInRange_iff_of_le (a := a) hlength hmin hle).mpr ⟨by omega, hj.le⟩
      rcases Nat.lt_or_eq_of_le (show j + 1 ≤ i from hji) with hnext | rfl
      · have hpass := hrun (j + 1) hnext j (Nat.lt_succ_self j) hmet
        rcases le_or_gt (bucketStart min1 length (j + 1 + 1)) int4Max with hle' | hlt'
        · have hne := (h.inside (j + 1) (hnext.trans hi) hle').2
          have hreach := ((restInRange_iff_of_le hlength hmin hle').mp hpass).2
          omega
        · have hreach :=
            ((restInRange_iff_across hlength hmin hend (hnext.trans hi) hlt' hle).mp hpass).2
          rw [h.beyond (j + 1) (hnext.trans hi) hlt' (Or.inl (by omega))] at hpass
          cases hpass
      · have hreach := ((restInRange_iff_across hlength hmin hend hi hlt hle).mp htest).2
        omega
  · rintro ⟨hlow, hupp⟩
    refine mem_countedBuckets_of_le hlength hmin hb hi hupp.le ?_
    rcases le_or_gt (bucketStart min1 length (i + 1)) int4Max with hle | hlt
    · exact (restInRange_iff_of_le hlength hmin hle).mpr ⟨hlow.le, hupp.le⟩
    · exact (restInRange_iff_across hlength hmin hend hi hlt (by omega)).mpr
        ⟨(h.across i hi hlt hupp).2, hupp.le⟩

end Wraps

/-- The buckets do not reach further than that. -/
theorem bucketStart_restLength_le {nb : ℕ} {min1 max1 : ℤ} (hnb : nb ≤ 2147483647)
    (hmin : FitsInt32 min1) (hmax : FitsInt32 max1) (hlt : min1 < max1) :
    bucketStart min1 (restLength .int32 nb min1 max1) nb ≤ 4294967295 := by
  obtain ⟨hmin, hmin'⟩ := hmin
  obtain ⟨hmax, hmax'⟩ := hmax
  set d := CInt.int32.wrap (max1 - min1) with hd
  have hdle : d ≤ max1 - min1 := by
    rw [hd, CInt.int32_wrap, CInt.wrap32]
    omega
  have hquot : (nb : ℤ) * d.tdiv nb ≤ max d 0 := by
    rcases le_total 0 d with hd0 | hd0
    · have hsplit := Int.tmod_add_mul_tdiv d nb
      have hrem := Int.tmod_nonneg nb hd0
      omega
    · have hneg := Int.tdiv_nonneg (neg_nonneg.mpr hd0) (Int.natCast_nonneg nb)
      rw [Int.neg_tdiv] at hneg
      exact (mul_nonpos_of_nonneg_of_nonpos (Int.natCast_nonneg nb) (by omega)).trans
        (le_max_right _ _)
  have hlength : (nb : ℤ) * restLength .int32 nb min1 max1 ≤ max d 0 + nb := by
    rw [restLength, ← hd, mul_add]
    split_ifs <;> omega
  have hmax0 : min1 + max d 0 ≤ 2147483647 := by omega
  rw [bucketStart]
  omega

/-- The buckets that are counted are those that have an integer in common with the constant. -/
theorem counts_iff {nb : ℕ} {min1 length a b : ℤ} (hmin : FitsInt32 min1)
    (hend : bucketStart min1 length nb ≤ 4294967295) (ha : FitsInt32 a) (hb : FitsInt32 b)
    (hab : a < b) :
    (∀ i < nb, i ∈ countedBuckets .int32 min1 length a b nb ↔ MeetsHalfOpen min1 length a b i) ↔
      (0 < length → CountsExactly nb min1 length a b) ∧
        (length ≤ 0 → ∀ i < nb, restInRange .int32 min1 length a b i = false) := by
  simp only [meetsHalfOpen_iff hab]
  rcases lt_or_ge 0 length with hpos | hneg
  · simp only [hpos, true_and, forall_const, hpos.not_ge, false_imp_iff, and_true]
    exact ⟨countsExactly_of_counts hpos hmin hb hend ha hab,
      fun h i hi => counts_of_countsExactly hpos hmin hb hend ha hab h hi⟩
  · simp only [hneg.not_gt, false_and, iff_false, false_imp_iff, true_and, hneg, forall_const]
    constructor
    · intro hnone i hi
      by_contra htest
      rw [Bool.not_eq_false] at htest
      obtain ⟨j, hj⟩ := exists_mem_firstRun_range hi htest
      exact hnone j (mem_firstRun_range.mp hj).1 hj
    · intro hfails i hi hcounted
      have htest := (mem_firstRun_range.mp hcounted).2.1
      rw [hfails i hi] at htest
      cases htest

/-- A constant before or behind all buckets has an integer in common with none, so the estimate
is then zero if the right buckets are counted. -/
theorem countsHalfOpen_iff (A : CInt) (R : CFloat) {freqValues : List FloatQ}
    (hne : freqValues ≠ []) (min1 max1 : ℤ) {lower upper : RangeBound Datum}
    (hab : A.wrap lower.val.toInt < A.wrap upper.val.toInt) :
    CountsHalfOpen A R freqValues min1 max1 lower upper ↔
      ∀ i < freqValues.length,
        i ∈ countedBuckets A min1 (restLength A freqValues.length min1 max1)
            (A.wrap lower.val.toInt) (A.wrap upper.val.toInt) freqValues.length ↔
          MeetsHalfOpen min1 (restLength A freqValues.length min1 max1) (A.wrap lower.val.toInt)
            (A.wrap upper.val.toInt) i := by
  have hlength := restIntervalLength_eq A min1 max1 (by simpa using hne : freqValues.length ≠ 0)
  constructor
  · rintro ⟨length, hrun, hcounts, -⟩
    rw [hlength, Except.ok.injEq] at hrun
    exact hrun ▸ hcounts
  · intro hcounts
    refine ⟨_, hlength, hcounts, fun houtside rows hrows => ?_⟩
    have hnone : countedBuckets A min1 (restLength A freqValues.length min1 max1)
        (A.wrap lower.val.toInt) (A.wrap upper.val.toInt) freqValues.length = [] := by
      refine List.eq_nil_iff_forall_not_mem.mpr fun i hi => ?_
      have hlt := (mem_firstRun_range.mp hi).1
      obtain ⟨hpos, hlow, hupp⟩ := (meetsHalfOpen_iff hab i).mp ((hcounts i hlt).mp hi)
      have hfirst := bucketStart_le min1 hpos (Nat.zero_le i)
      have hlast := bucketStart_le min1 hpos (show i + 1 ≤ freqValues.length from hlt)
      rw [bucketStart_zero] at hfirst
      omega
    have hzero : (rows : ℚ) ≠ 0 := Nat.cast_ne_zero.mpr (Nat.one_le_iff_ne_zero.mp hrows)
    rw [rangerestselInner_eq A R min1 max1 hne, restSum, overlapSum_eq_addFrequencies, hnone]
    exact congrArg Except.ok (CFloat.zero_div_fin hzero)

/-- The buckets that are counted are those that have an integer in common with the constant if
and only if there are buckets, and none only touches the constant or is met or missed because an
end has wrapped around. If the distance of the ends of the column is not an `int`, the buckets
may have no length, and then none may pass the test. -/
theorem rangerestselInner_halfOpen_iff {R : CFloat} {freqValues : List FloatQ} {min1 max1 : ℤ}
    (hnb : freqValues.length ≤ 2147483647) (hmin : FitsInt32 min1) (hmax : FitsInt32 max1)
    (hlt : min1 < max1) {lower upper : RangeBound Datum}
    (hab : CInt.int32.wrap lower.val.toInt < CInt.int32.wrap upper.val.toInt) :
    let nb := freqValues.length
    let length := restLength .int32 nb min1 max1
    let a := CInt.int32.wrap lower.val.toInt
    let b := CInt.int32.wrap upper.val.toInt
    CountsHalfOpen .int32 R freqValues min1 max1 lower upper ↔
      freqValues ≠ [] ∧ (0 < length → CountsExactly nb min1 length a b) ∧
        (length ≤ 0 → ∀ i < nb, restInRange .int32 min1 length a b i = false) := by
  intro nb length a b
  rcases eq_or_ne freqValues [] with rfl | hne
  · refine iff_of_false ?_ fun hcond => hcond.1 rfl
    rintro ⟨length, hlength, -⟩
    cases hlength
  rw [countsHalfOpen_iff .int32 R hne min1 max1 hab, and_iff_right hne]
  exact counts_iff hmin (bucketStart_restLength_le hnb hmin hmax hlt) (CInt.wrap32_fits _)
    (CInt.wrap32_fits _) hab

/-- Two buckets of five integers, and the constant `[1,4)` in the first one. -/
theorem rangerestselInner_halfOpen_iff_inside :
    CountsHalfOpen .int32 .float8 [.fin 1, .fin 1] 0 10 (int4Lower 1) (int4Upper 4) :=
  (rangerestselInner_halfOpen_iff (by decide) (by decide) (by decide) (by decide)
    (by decide)).mpr ⟨by decide, fun _ => ⟨by decide, by decide, by decide⟩, by decide⟩

/-- Two rows `[100,108)`. The constant `[90,100)` lies before them, but it ends where the
first bucket starts, and that bucket is counted. -/
theorem rangerestselInner_overlap_touching :
    rangerestselInner .int32 .float8 (eightQuarters.map .fin) 2 100 108 (int4Lower 90)
      (int4Upper 100) .overlap = .ok (.fin (1 / 8)) := by
  decide +kernel

end PgRange.Selectivity
