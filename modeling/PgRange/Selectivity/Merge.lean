import Mathlib.Algebra.Order.Field.Basic
import PgRange.Math.Staircase
import PgRange.Selectivity.Join

/-!
# Which pairs of buckets a join estimate adds up

`computeSelectivity` walks along the buckets of two columns, and adds the product of the
frequencies in every round. It moves the cursor at the bucket that starts first. Buckets
of equal length end in the order in which they start, but for different lengths the
bucket that starts first may well be the one that ends last, and what it still overlaps
is passed by.

## Main results

* `computeSelectivity_eq_stairs` — the estimate is the sum over the pairs of a staircase
* `computeSelectivity_probability` — it exceeds the product of the row counts by rounding only
* `computeSelectivity_exact_iff` — when the staircase holds exactly the pairs of buckets
  that intersect
-/

set_option autoImplicit false

namespace PgRange.Selectivity

open Math Stats

/-! ### The pairs that are added -/

/-- The value at a cursor after `i` moves. -/
def cursorAt (A : CInt) (min intervalLength : ℤ) (i : ℕ) : ℤ :=
  (fun v => A.wrap (v + intervalLength))^[i] min

theorem cursorAt_succ (A : CInt) (min intervalLength : ℤ) (i : ℕ) :
    cursorAt A min intervalLength (i + 1) =
      A.wrap (cursorAt A min intervalLength i + intervalLength) :=
  Function.iterate_succ_apply' _ _ _

/-- The start of bucket `i`. -/
def bucketStart (min intervalLength : ℤ) (i : ℕ) : ℤ := min + i * intervalLength

@[simp]
theorem bucketStart_zero (min intervalLength : ℤ) : bucketStart min intervalLength 0 = min := by
  simp [bucketStart]

theorem bucketStart_succ (min intervalLength : ℤ) (i : ℕ) :
    bucketStart min intervalLength (i + 1) = bucketStart min intervalLength i + intervalLength := by
  unfold bucketStart
  push_cast
  ring

theorem bucketStart_strictMono (min : ℤ) {intervalLength : ℤ} (h : 1 ≤ intervalLength) :
    StrictMono (bucketStart min intervalLength) :=
  strictMono_nat_of_lt_succ fun i => by
    rw [bucketStart_succ]
    omega

theorem bucketStart_le (min : ℤ) {intervalLength : ℤ} (h : 1 ≤ intervalLength) {i j : ℕ}
    (hij : i ≤ j) : bucketStart min intervalLength i ≤ bucketStart min intervalLength j :=
  (bucketStart_strictMono min h).monotone hij

/-- As long as nothing is lost, the cursor is at the start of a bucket. -/
theorem cursorAt_eq_bucketStart {A : CInt} {min intervalLength : ℤ} {n : ℕ}
    (hkeep : ∀ i < n, A.wrap (bucketStart min intervalLength i) = bucketStart min intervalLength i) :
    ∀ i < n, cursorAt A min intervalLength i = bucketStart min intervalLength i := by
  intro i hi
  induction i with
  | zero => simp [cursorAt, bucketStart]
  | succ i ih => rw [cursorAt_succ, ih (by omega), ← bucketStart_succ, hkeep _ hi]

/-- The arguments of `computeSelectivity`. -/
structure MergeCall where
  truncFreq1 : List FloatQ
  truncFreq2 : List FloatQ
  size1 : ℤ
  size2 : ℤ
  intervalLength1 : ℤ
  intervalLength2 : ℤ
  min1 : ℤ
  min2 : ℤ

namespace MergeCall

variable (A : CInt) (R : CFloat) (c : MergeCall)

/-- The loop of the call. -/
def loop : Loop Fault Merge :=
  mergeLoop A R c.truncFreq1 c.truncFreq2 c.size1 c.size2 c.intervalLength1 c.intervalLength2

/-- The result of the call. -/
def run : Except Fault FloatQ :=
  computeSelectivity A R c.truncFreq1 c.truncFreq2 c.size1 c.size2 c.intervalLength1
    c.intervalLength2 c.min1 c.min2

/-- The pairs of buckets whose frequencies are multiplied: the indexes at the start of
each round. -/
def pairs : List (ℕ × ℕ) :=
  (((c.loop A R).trace (c.size1.toNat + c.size2.toNat) ⟨0, 0, c.min1, c.min2, .fin 0⟩).filter
    fun r => (c.loop A R).cond r.1).map fun r => (r.1.idx1, r.1.idx2)

/-- The product that is added for a pair of buckets. -/
def product (p : ℕ × ℕ) : FloatQ :=
  R.mul (c.truncFreq1.getD p.1 (.fin 0)) (c.truncFreq2.getD p.2 (.fin 0))

/-- The values at the two cursors. -/
def cursor1 : ℕ → ℤ := cursorAt A c.min1 c.intervalLength1

@[inherit_doc cursor1]
def cursor2 : ℕ → ℤ := cursorAt A c.min2 c.intervalLength2

/-- The pairs of positions from `p` on. -/
def path (p : ℕ × ℕ) : List (ℕ × ℕ) :=
  mergePath (c.cursor1 A) (c.cursor2 A) c.size1.toNat c.size2.toNat p

/-- The locals with the cursors at a pair of positions. -/
def stateAt (p : ℕ × ℕ) (total : FloatQ) : Merge :=
  ⟨p.1, p.2, c.cursor1 A p.1, c.cursor2 A p.2, total⟩

theorem loop_cond (p : ℕ × ℕ) (total : FloatQ) :
    (c.loop A R).cond (c.stateAt A p total) =
      decide (p.1 < c.size1.toNat ∧ p.2 < c.size2.toNat) := by
  simp only [loop, mergeLoop, stateAt, Int.lt_toNat, Bool.decide_and]

/-- A round adds the product at the cursors, and moves them on. -/
theorem loop_round {p : ℕ × ℕ} (hp : p.1 < c.size1.toNat ∧ p.2 < c.size2.toNat)
    (total : FloatQ) :
    (c.loop A R).Round (c.stateAt A p total)
      (c.stateAt A (mergeNext (c.cursor1 A) (c.cursor2 A) p) (R.add total (c.product R p))) := by
  refine ⟨(c.loop_cond A R p total).trans (decide_eq_true hp), ?_, rfl⟩
  have hmove1 : c.cursor1 A (p.1 + 1) = _ := cursorAt_succ A c.min1 c.intervalLength1 p.1
  have hmove2 : c.cursor2 A (p.2 + 1) = _ := cursorAt_succ A c.min2 c.intervalLength2 p.2
  rcases lt_trichotomy (c.cursor1 A p.1) (c.cursor2 A p.2) with hlt | heq | hgt
  · rw [mergeNext, if_pos hlt]
    simp only [stateAt, hmove1]
    exact if_pos hlt
  · rw [mergeNext, if_neg heq.not_lt, if_neg heq.not_gt]
    simp only [stateAt, hmove1, hmove2]
    exact (if_neg heq.not_lt).trans (if_neg heq.not_gt)
  · rw [mergeNext, if_neg hgt.not_gt, if_pos hgt]
    simp only [stateAt, hmove2]
    exact (if_neg hgt.not_gt).trans (if_pos hgt)

/-- At the end of a column nothing is added. -/
theorem loop_run_done {p : ℕ × ℕ} (hp : ¬ (p.1 < c.size1.toNat ∧ p.2 < c.size2.toNat))
    (total : FloatQ) (fuel : ℕ) :
    ((c.loop A R).run .outOfFuel fuel (c.stateAt A p total)).map Merge.total =
        .ok ((c.path A p).foldl (fun t q => R.add t (c.product R q)) total) ∧
      (((c.loop A R).trace fuel (c.stateAt A p total)).filter fun r => (c.loop A R).cond r.1).map
        (fun r => (r.1.idx1, r.1.idx2)) = c.path A p := by
  have hcond := (c.loop_cond A R p total).trans (decide_eq_false hp)
  rw [Loop.run_done hcond, Loop.trace_done hcond, path, mergePath_nil hp]
  exact ⟨rfl, by simp [hcond]⟩

/-- The loop goes through the pairs of the path, and its total grows by their products. -/
theorem loop_run (p : ℕ × ℕ) (total : FloatQ) {fuel : ℕ}
    (hfuel : (c.size1.toNat - p.1) + (c.size2.toNat - p.2) ≤ fuel) :
    ((c.loop A R).run .outOfFuel fuel (c.stateAt A p total)).map Merge.total =
        .ok ((c.path A p).foldl (fun t q => R.add t (c.product R q)) total) ∧
      (((c.loop A R).trace fuel (c.stateAt A p total)).filter fun r => (c.loop A R).cond r.1).map
        (fun r => (r.1.idx1, r.1.idx2)) = c.path A p := by
  induction fuel generalizing p total with
  | zero =>
    have hp : ¬ (p.1 < c.size1.toNat ∧ p.2 < c.size2.toNat) := by omega
    exact c.loop_run_done A R hp total 0
  | succ fuel ih =>
    by_cases hp : p.1 < c.size1.toNat ∧ p.2 < c.size2.toNat
    · have hnext := le_mergeNext (c.cursor1 A) (c.cursor2 A) p
      obtain ⟨hrun, htrace⟩ := ih (mergeNext (c.cursor1 A) (c.cursor2 A) p)
        (R.add total (c.product R p))
        (by omega)
      have hround := c.loop_round A R hp total
      rw [Loop.run_round hround, Loop.trace_round hround, path, mergePath_cons hp]
      refine ⟨hrun, ?_⟩
      rw [List.filter_cons_of_pos (by exact hround.1), List.map_cons, htrace]
      rfl
    · exact c.loop_run_done A R hp total (fuel + 1)

theorem pairs_eq : c.pairs A R = c.path A (0, 0) :=
  (c.loop_run A R (0, 0) (.fin 0) (by simp)).2

theorem run_eq_map :
    c.run A R = ((c.loop A R).run .outOfFuel (c.size1.toNat + c.size2.toNat)
      (c.stateAt A (0, 0) (.fin 0))).map Merge.total := by
  change (c.loop A R).run _ _ (c.stateAt A (0, 0) (.fin 0)) >>= _ = _
  cases (c.loop A R).run .outOfFuel (c.size1.toNat + c.size2.toNat)
    (c.stateAt A (0, 0) (.fin 0)) with
  | error e => rfl
  | ok s => rfl

/-- The estimate adds up the products over the pairs. -/
theorem run_eq : c.run A R =
    .ok ((c.pairs A R).foldl (fun t q => R.add t (c.product R q)) (.fin 0)) := by
  rw [pairs_eq, run_eq_map]
  exact (c.loop_run A R (0, 0) (.fin 0) (by simp)).1

/-- The estimate of finite frequencies rounds each product before it is added. -/
theorem run_eq_foldl (qs1 qs2 : List ℚ) (h1 : c.truncFreq1 = qs1.map .fin)
    (h2 : c.truncFreq2 = qs2.map .fin) :
    c.run A R = .ok (((c.path A (0, 0)).map fun p => qs1.getD p.1 0 * qs2.getD p.2 0).foldl
      (fun t q => R.add t (R.round q)) (.fin 0)) := by
  have hproduct : ∀ p, c.product R p = R.round (qs1.getD p.1 0 * qs2.getD p.2 0) := by
    intro p
    rw [product, h1, h2, List.getD_map, List.getD_map, CFloat.mul, FloatQ.fin_mul_fin]
    rfl
  rw [run_eq, pairs_eq, List.foldl_map]
  simp only [hproduct]

/-- The estimate of finite frequencies, as an exact sum. -/
theorem run_exact (qs1 qs2 : List ℚ) (h1 : c.truncFreq1 = qs1.map .fin)
    (h2 : c.truncFreq2 = qs2.map .fin) :
    c.run A .exact =
      .ok (.fin ((c.path A (0, 0)).map fun p => qs1.getD p.1 0 * qs2.getD p.2 0).sum) := by
  rw [c.run_eq_foldl A .exact qs1 qs2 h1 h2, ← CFloat.exact_sum, CFloat.sum, List.foldl_map,
    List.foldl_map, List.foldl_map]
  rfl

end MergeCall

/-! ### The estimate is a probability, but for rounding -/

/-- The pairs that are added are distinct and lie in the two arrays, so that frequencies
which do not add up to more than the rows of each column do not give more than the pairs
of rows, whose number is an `int` for the most rows that are sampled. What `float8` makes of that
is not negative, and exceeds one by the errors of so many operations at most. -/
theorem computeSelectivity_probability (A : CInt) (qs1 qs2 : List ℚ)
    (hq1 : ∀ q ∈ qs1, 0 ≤ q) (hq2 : ∀ q ∈ qs2, 0 ≤ q) (rows1 rows2 : ℕ)
    (hrows1 : 1 ≤ rows1 ∧ rows1 ≤ 10001) (hrows2 : 1 ≤ rows2 ∧ rows2 ≤ 10001)
    (hsum1 : qs1.sum ≤ rows1) (hsum2 : qs2.sum ≤ rows2) (size1 size2 : ℤ)
    (hsize1 : size1 ≤ qs1.length ∧ size1 ≤ 2147483647)
    (hsize2 : size2 ≤ qs2.length ∧ size2 ≤ 2147483647)
    (intervalLength1 intervalLength2 min1 min2 : ℤ) :
    ∃ pairs : List (ℕ × ℕ),
      (∀ R, pairs = MergeCall.pairs A R ⟨qs1.map .fin, qs2.map .fin, size1, size2,
        intervalLength1, intervalLength2, min1, min2⟩) ∧
      pairs.Nodup ∧ (∀ p ∈ pairs, (p.1 : ℤ) < size1 ∧ (p.2 : ℤ) < size2) ∧
      CInt.int32.wrap (rows1 * rows2) = rows1 * rows2 ∧
      (∃ total : ℚ,
        computeSelectivity A .exact (qs1.map .fin) (qs2.map .fin) size1 size2 intervalLength1
          intervalLength2 min1 min2 = .ok (.fin total) ∧
        total = (pairs.map fun p => qs1.getD p.1 0 * qs2.getD p.2 0).sum ∧
        0 ≤ total / (rows1 * rows2 : ℕ) ∧ total / (rows1 * rows2 : ℕ) ≤ 1) ∧
      ∃ total r : ℚ,
        computeSelectivity A .float8 (qs1.map .fin) (qs2.map .fin) size1 size2 intervalLength1
          intervalLength2 min1 min2 = .ok (.fin total) ∧
        CFloat.float8.div (.fin total) (.fin (rows1 * rows2 : ℕ)) = .fin r ∧
        0 ≤ r ∧ r ≤ 1 + (size1.toNat + size2.toNat + 3) * 2 ^ (-52 : ℤ) := by
  let c : MergeCall := ⟨qs1.map .fin, qs2.map .fin, size1, size2, intervalLength1,
    intervalLength2, min1, min2⟩
  have hnonneg1 := fun i (_ : i < size1.toNat) => getD_nonneg hq1 i
  have hnonneg2 := fun i (_ : i < size2.toNat) => getD_nonneg hq2 i
  have hprod : rows1 * rows2 ≤ 100020001 := Nat.mul_le_mul hrows1.2 hrows2.2
  have hpos : 1 ≤ rows1 * rows2 := Nat.mul_pos (by omega) (by omega)
  have hcast : (1 : ℚ) ≤ (rows1 * rows2 : ℕ) := by exact_mod_cast hpos
  have hcast' : ((rows1 * rows2 : ℕ) : ℚ) ≤ 2 ^ (64 : ℤ) := by
    refine le_trans (b := (100020001 : ℚ)) (by exact_mod_cast hprod) (by norm_num)
  set products := (c.path A (0, 0)).map fun p => qs1.getD p.1 0 * qs2.getD p.2 0 with hproducts
  have hsum0 : 0 ≤ products.sum :=
    sum_mergePath_nonneg (f := (qs1.getD · 0)) (g := (qs2.getD · 0)) _ hnonneg1 hnonneg2
  have hsum : products.sum ≤ (rows1 * rows2 : ℕ) := by
    refine (sum_mergePath_le _ hnonneg1 hnonneg2).trans ?_
    obtain ⟨-, hle1⟩ := sum_range_le_sum (Int.toNat_le.mpr hsize1.1) hq1
    obtain ⟨hnonneg, hle2⟩ := sum_range_le_sum (Int.toNat_le.mpr hsize2.1) hq2
    rw [Nat.cast_mul]
    exact mul_le_mul (hle1.trans hsum1) (hle2.trans hsum2) hnonneg (Nat.cast_nonneg _)
  have hlength : products.length ≤ size1.toNat + size2.toNat := by
    rw [hproducts, List.length_map]
    exact length_mergePath_le _
  have hnonneg : ∀ q ∈ products, 0 ≤ q := by
    intro q hq
    obtain ⟨p, -, rfl⟩ := List.mem_map.mp hq
    exact mul_nonneg (getD_nonneg hq1 _) (getD_nonneg hq2 _)
  refine ⟨c.path A (0, 0), fun R => (c.pairs_eq A R).symm, mergePath_nodup _, fun p hp => ?_, ?_,
    ⟨_, c.run_exact A qs1 qs2 rfl rfl, rfl, ?_, ?_⟩, ?_⟩
  · have hbounds := (bounds_of_mem_mergePath hp).1
    simp only [c, Int.lt_toNat] at hbounds
    exact hbounds
  · have hint : (rows1 * rows2 : ℤ) ≤ 100020001 := by exact_mod_cast hprod
    have hint0 : (1 : ℤ) ≤ rows1 * rows2 := by exact_mod_cast hpos
    exact CInt.int32.wrap_of_fits ⟨by omega, by omega⟩
  · exact div_nonneg hsum0 (by linarith)
  · exact (div_le_one (by linarith)).mpr hsum
  · obtain ⟨t, r, hfold, hdiv, hr0, hr⟩ := CFloat.float8_foldl_div_le hnonneg hcast hcast' hsum
      (by omega)
    refine ⟨t, r, ?_, hdiv, hr0, hr.trans ?_⟩
    · rw [← hfold]
      exact c.run_eq_foldl A .float8 qs1 qs2 rfl rfl
    · have hle : (products.length : ℚ) ≤ size1.toNat + size2.toNat := by exact_mod_cast hlength
      gcongr

/-- Two columns of two rows each, with two buckets. -/
theorem computeSelectivity_probability_two :
    ∃ total r : ℚ,
      computeSelectivity .int32 .float8 ([1, 1].map .fin) ([2, 0].map .fin) 2 2 5 5 0 0 =
        .ok (.fin total) ∧
      CFloat.float8.div (.fin total) (.fin (2 * 2 : ℕ)) = .fin r ∧ 0 ≤ r ∧
      r ≤ 1 + ((2 : ℤ).toNat + (2 : ℤ).toNat + 3) * 2 ^ (-52 : ℤ) :=
  (computeSelectivity_probability .int32 [1, 1] [2, 0] (by decide) (by decide) 2 2 (by decide)
    (by decide) (by decide +kernel) (by decide +kernel) 2 2 (by decide) (by decide) 5 5 0
    0).choose_spec.2.2.2.2.2

/-- Four frequencies that add up to two rows, almost: the doubles `0.76`, `0.72`, `0.44` and
`0.08`. -/
def fourParts : List ℚ :=
  [76 / 100, 72 / 100, 44 / 100, 8 / 100].map BinaryFormat.double.nearest

/-- One bucket with three rows, which meets all of them. The sum is rounded up, and with it the
estimate, to the least double above one. -/
theorem computeSelectivity_above_one :
    fourParts.sum ≤ 2 ∧
    computeSelectivity .int32 .float8 ([3].map .fin) (fourParts.map .fin) 1 4 10 1 3 0 =
      .ok (.fin (6 + 2 ^ (-50 : ℤ))) ∧
    CFloat.float8.div (.fin (6 + 2 ^ (-50 : ℤ))) (.fin (3 * 2 : ℕ)) =
      .fin (1 + 2 ^ (-52 : ℤ)) := by
  decide +kernel

/-! ### Which pairs intersect -/

section Exact

variable (intervalLength1 intervalLength2 min1 min2 : ℤ)

/-- The value intervals of the two buckets have a value in common. -/
def BucketsIntersect (p : ℕ × ℕ) : Prop :=
  (Set.Ico (bucketStart min1 intervalLength1 p.1) (bucketStart min1 intervalLength1 (p.1 + 1)) ∩
    Set.Ico (bucketStart min2 intervalLength2 p.2)
      (bucketStart min2 intervalLength2 (p.2 + 1))).Nonempty

theorem bucketsIntersect_iff (p : ℕ × ℕ) :
    BucketsIntersect intervalLength1 intervalLength2 min1 min2 p ↔
      max (bucketStart min1 intervalLength1 p.1) (bucketStart min2 intervalLength2 p.2) <
        min (bucketStart min1 intervalLength1 (p.1 + 1))
          (bucketStart min2 intervalLength2 (p.2 + 1)) := by
  rw [BucketsIntersect, Set.Ico_inter_Ico, Set.nonempty_Ico]

instance : DecidablePred (BucketsIntersect intervalLength1 intervalLength2 min1 min2) := fun p =>
  decidable_of_iff' _ (bucketsIntersect_iff intervalLength1 intervalLength2 min1 min2 p)

/-- Each bucket starts behind all that the other cursor has left behind. -/
abbrev BucketStair : ℕ × ℕ → Prop :=
  Stair (bucketStart min1 intervalLength1) (bucketStart min2 intervalLength2)

/-- The products over the pairs of buckets that intersect. -/
def exactSelectivity (qs1 qs2 : List ℚ) : ℚ :=
  ∑ p ∈ Finset.range qs1.length ×ˢ Finset.range qs2.length with
    BucketsIntersect intervalLength1 intervalLength2 min1 min2 p,
      qs1.getD p.1 0 * qs2.getD p.2 0

/-- Buckets of one length end in the order in which they start: then the stairs are the
pairs that intersect, if the first two do. -/
theorem bucketStair_iff_of_eq {intervalLength : ℤ} (hlength : 1 ≤ intervalLength)
    (hfirst : BucketsIntersect intervalLength intervalLength min1 min2 (0, 0)) (p : ℕ × ℕ) :
    BucketStair intervalLength intervalLength min1 min2 p ↔
      BucketsIntersect intervalLength intervalLength min1 min2 p := by
  have hmono1 := (bucketStart_strictMono min1 hlength).monotone
  have hmono2 := (bucketStart_strictMono min2 hlength).monotone
  rw [bucketsIntersect_iff, lt_min_iff, max_lt_iff, max_lt_iff] at hfirst ⊢
  obtain ⟨i, j⟩ := p
  simp only [bucketStart_succ, lt_add_iff_pos_right] at hfirst ⊢
  constructor
  · rintro ⟨hbehind1, hbehind2⟩
    refine ⟨⟨hlength, ?_⟩, ?_, hlength⟩
    · cases j with
      | zero => exact hfirst.1.2.trans_le (add_le_add_left (hmono1 (Nat.zero_le i)) _)
      | succ j =>
        rw [bucketStart_succ]
        exact add_lt_add_left (hbehind2 j (Nat.lt_succ_self j)) _
    · cases i with
      | zero => exact hfirst.2.1.trans_le (add_le_add_left (hmono2 (Nat.zero_le j)) _)
      | succ i =>
        rw [bucketStart_succ]
        exact add_lt_add_left (hbehind1 i (Nat.lt_succ_self i)) _
  · rintro ⟨⟨-, hlt2⟩, hlt1, -⟩
    refine ⟨fun k hk => ?_, fun k hk => ?_⟩
    · have hle := hmono1 (Nat.succ_le_of_lt hk)
      rw [Nat.succ_eq_add_one, bucketStart_succ] at hle
      exact lt_of_add_lt_add_right (hle.trans_lt hlt1)
    · have hle := hmono2 (Nat.succ_le_of_lt hk)
      rw [Nat.succ_eq_add_one, bucketStart_succ] at hle
      exact lt_of_add_lt_add_right (hle.trans_lt hlt2)

theorem sum_pairs_congr {P Q : ℕ × ℕ → Prop} [DecidablePred P] [DecidablePred Q]
    {size1 size2 : ℕ} (h : ∀ i < size1, ∀ j < size2, P (i, j) ↔ Q (i, j)) (F : ℕ × ℕ → ℚ) :
    ∑ p ∈ Finset.range size1 ×ˢ Finset.range size2 with P p, F p =
      ∑ p ∈ Finset.range size1 ×ˢ Finset.range size2 with Q p, F p := by
  refine Finset.sum_congr (Finset.filter_congr fun p hp => ?_) fun _ _ => rfl
  rw [Finset.mem_product, Finset.mem_range, Finset.mem_range] at hp
  exact h p.1 hp.1 p.2 hp.2

/-- A frequency array with all rows in one bucket. -/
def oneBucket (size k : ℕ) : List ℚ := (List.range size).map fun i => if i = k then 1 else 0

theorem length_oneBucket (size k : ℕ) : (oneBucket size k).length = size := by
  rw [oneBucket, List.length_map, List.length_range]

theorem oneBucket_nonneg {size k : ℕ} : ∀ q ∈ oneBucket size k, 0 ≤ q := by
  intro q hq
  obtain ⟨i, -, rfl⟩ := List.mem_map.mp hq
  split_ifs <;> decide

theorem getD_oneBucket {size k i : ℕ} (hi : i < size) :
    (oneBucket size k).getD i 0 = if i = k then 1 else 0 := by
  simp [oneBucket, hi]

/-- With all rows of each column in one bucket, a sum over pairs tells whether that pair
is among them. -/
theorem sum_oneBucket (P : ℕ × ℕ → Prop) [DecidablePred P] {size1 size2 i j : ℕ}
    (hi : i < size1) (hj : j < size2) :
    ∑ p ∈ Finset.range size1 ×ˢ Finset.range size2 with P p,
        (oneBucket size1 i).getD p.1 0 * (oneBucket size2 j).getD p.2 0 =
      if P (i, j) then 1 else 0 := by
  have hterm : ∀ p ∈ Finset.range size1 ×ˢ Finset.range size2,
      (if P p then (oneBucket size1 i).getD p.1 0 * (oneBucket size2 j).getD p.2 0 else 0) =
        if p = (i, j) then if P (i, j) then (1 : ℚ) else 0 else 0 := by
    intro p hp
    rw [Finset.mem_product, Finset.mem_range, Finset.mem_range] at hp
    rw [getD_oneBucket hp.1, getD_oneBucket hp.2]
    by_cases hpair : p = (i, j)
    · simp [hpair]
    · have hne : ¬ (p.1 = i ∧ p.2 = j) := fun h => hpair (Prod.ext h.1 h.2)
      rw [ite_zero_mul_ite_zero, if_neg hne, ite_self, if_neg hpair]
  rw [Finset.sum_filter, Finset.sum_congr rfl hterm, Finset.sum_ite_eq', if_pos]
  exact Finset.mem_product.mpr ⟨Finset.mem_range.mpr hi, Finset.mem_range.mpr hj⟩

variable {intervalLength1 intervalLength2 min1 min2}

/-- The estimate adds up the products over the stairs. -/
theorem computeSelectivity_eq_stairs {A : CInt} (hlength1 : 1 ≤ intervalLength1)
    (hlength2 : 1 ≤ intervalLength2) {size1 size2 : ℕ}
    (hkeep1 : ∀ i < size1, A.wrap (bucketStart min1 intervalLength1 i) =
      bucketStart min1 intervalLength1 i)
    (hkeep2 : ∀ j < size2, A.wrap (bucketStart min2 intervalLength2 j) =
      bucketStart min2 intervalLength2 j)
    (qs1 qs2 : List ℚ) :
    computeSelectivity A .exact (qs1.map .fin) (qs2.map .fin) size1 size2 intervalLength1
        intervalLength2 min1 min2 =
      .ok (.fin (∑ p ∈ Finset.range size1 ×ˢ Finset.range size2 with
        BucketStair intervalLength1 intervalLength2 min1 min2 p,
          qs1.getD p.1 0 * qs2.getD p.2 0)) := by
  let c : MergeCall := ⟨qs1.map .fin, qs2.map .fin, size1, size2, intervalLength1,
    intervalLength2, min1, min2⟩
  have hpath : c.path A (0, 0) = mergePath (bucketStart min1 intervalLength1)
      (bucketStart min2 intervalLength2) size1 size2 (0, 0) :=
    mergePath_congr (cursorAt_eq_bucketStart hkeep1) (cursorAt_eq_bucketStart hkeep2) (0, 0)
  have hrun := c.run_exact A qs1 qs2 rfl rfl
  rw [hpath, sum_mergePath] at hrun
  refine hrun.trans (congrArg (Except.ok ∘ FloatQ.fin) (sum_pairs_congr (fun i hi j hj => ?_) _))
  rw [mem_mergePath_iff (bucketStart_strictMono min1 hlength1)
    (bucketStart_strictMono min2 hlength2)]
  exact and_iff_right ⟨hi, hj⟩

/-- The estimate is the exact one if both add up to the same. -/
theorem computeSelectivity_eq_exact_iff {A : CInt} (hlength1 : 1 ≤ intervalLength1)
    (hlength2 : 1 ≤ intervalLength2) {size1 size2 : ℕ}
    (hkeep1 : ∀ i < size1, A.wrap (bucketStart min1 intervalLength1 i) =
      bucketStart min1 intervalLength1 i)
    (hkeep2 : ∀ j < size2, A.wrap (bucketStart min2 intervalLength2 j) =
      bucketStart min2 intervalLength2 j)
    {qs1 qs2 : List ℚ} (hsize1 : qs1.length = size1) (hsize2 : qs2.length = size2) :
    computeSelectivity A .exact (qs1.map .fin) (qs2.map .fin) size1 size2 intervalLength1
          intervalLength2 min1 min2 =
        .ok (.fin (exactSelectivity intervalLength1 intervalLength2 min1 min2 qs1 qs2)) ↔
      ∑ p ∈ Finset.range size1 ×ˢ Finset.range size2 with
          BucketStair intervalLength1 intervalLength2 min1 min2 p,
            qs1.getD p.1 0 * qs2.getD p.2 0 =
        ∑ p ∈ Finset.range size1 ×ˢ Finset.range size2 with
          BucketsIntersect intervalLength1 intervalLength2 min1 min2 p,
            qs1.getD p.1 0 * qs2.getD p.2 0 := by
  rw [computeSelectivity_eq_stairs hlength1 hlength2 hkeep1 hkeep2, exactSelectivity, hsize1,
    hsize2, Except.ok.injEq, FloatQ.fin.injEq]

/-- The estimate is the exact one if and only if the pairs that are added without
intersecting make up for those that intersect without being added. It is so whatever the
frequencies are if and only if the stairs are the pairs of buckets that intersect. -/
theorem computeSelectivity_exact_iff (A : CInt) (hlength1 : 1 ≤ intervalLength1)
    (hlength2 : 1 ≤ intervalLength2) {size1 size2 : ℕ}
    (hkeep1 : ∀ i < size1, A.wrap (bucketStart min1 intervalLength1 i) =
      bucketStart min1 intervalLength1 i)
    (hkeep2 : ∀ j < size2, A.wrap (bucketStart min2 intervalLength2 j) =
      bucketStart min2 intervalLength2 j) :
    let added := BucketStair intervalLength1 intervalLength2 min1 min2
    let meeting := BucketsIntersect intervalLength1 intervalLength2 min1 min2
    let Exact (qs1 qs2 : List ℚ) :=
      computeSelectivity A .exact (qs1.map .fin) (qs2.map .fin) size1 size2 intervalLength1
          intervalLength2 min1 min2 =
        .ok (.fin (exactSelectivity intervalLength1 intervalLength2 min1 min2 qs1 qs2))
    (∀ qs1 qs2 : List ℚ, qs1.length = size1 → qs2.length = size2 →
      (Exact qs1 qs2 ↔
        ∑ p ∈ Finset.range size1 ×ˢ Finset.range size2 with added p ∧ ¬ meeting p,
            qs1.getD p.1 0 * qs2.getD p.2 0 =
          ∑ p ∈ Finset.range size1 ×ˢ Finset.range size2 with meeting p ∧ ¬ added p,
            qs1.getD p.1 0 * qs2.getD p.2 0)) ∧
    ((∀ qs1 qs2 : List ℚ, qs1.length = size1 → qs2.length = size2 → (∀ q ∈ qs1, 0 ≤ q) →
        (∀ q ∈ qs2, 0 ≤ q) → Exact qs1 qs2) ↔
      ∀ i < size1, ∀ j < size2, added (i, j) ↔ meeting (i, j)) := by
  intro added meeting Exact
  have hinput {qs1 qs2 : List ℚ} (hsize1 : qs1.length = size1) (hsize2 : qs2.length = size2) :=
    computeSelectivity_eq_exact_iff hlength1 hlength2 hkeep1 hkeep2 hsize1 hsize2
  refine ⟨fun qs1 qs2 hsize1 hsize2 => ?_, ?_, ?_⟩
  · rw [Finset.filter_and_not, Finset.filter_and_not, Finset.sum_sdiff_eq_sum_sdiff_iff]
    exact hinput hsize1 hsize2
  · intro hexact i hi j hj
    -- all rows of each column in one bucket
    have h := (hinput (length_oneBucket size1 i) (length_oneBucket size2 j)).mp
      (hexact _ _ (length_oneBucket _ _) (length_oneBucket _ _) oneBucket_nonneg oneBucket_nonneg)
    rw [sum_oneBucket _ hi hj, sum_oneBucket _ hi hj] at h
    by_cases hadded : added (i, j)
    · refine iff_of_true hadded ?_
      by_contra hnot
      rw [if_pos hadded, if_neg hnot] at h
      exact one_ne_zero h
    · refine iff_of_false hadded fun hmeet => ?_
      rw [if_neg hadded, if_pos hmeet] at h
      exact zero_ne_one h
  · intro hiff qs1 qs2 hsize1 hsize2 _ _
    exact (hinput hsize1 hsize2).mpr (sum_pairs_congr hiff _)

/-- Two columns with buckets of one length. -/
theorem computeSelectivity_exact_iff_equal :
    computeSelectivity .int32 .exact ([1, 1].map .fin) ([1, 1].map .fin) 2 2 10 10 0 5 =
      .ok (.fin (exactSelectivity 10 10 0 5 [1, 1] [1, 1])) :=
  (computeSelectivity_exact_iff .int32 (by decide) (by decide) (by decide)
    (by decide)).2.mpr (fun i _ j _ => bucketStair_iff_of_eq 0 5 (by decide) (by decide) (i, j))
    [1, 1] [1, 1] rfl rfl (by decide) (by decide)

/-- A bucket `[0,2)` and two buckets `[0,1)` and `[1,2)`, with a row in each. The first
bucket meets both others, but the cursors leave it at once. -/
theorem computeSelectivity_halves :
    computeSelectivity .int32 .exact ([1].map .fin) ([1, 1].map .fin) 1 2 2 1 0 0 = .ok (.fin 1) ∧
    exactSelectivity 2 1 0 0 [1] [1, 1] = 2 := by
  decide +kernel

end Exact

end PgRange.Selectivity
