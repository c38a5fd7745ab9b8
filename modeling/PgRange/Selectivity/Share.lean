import PgRange.Selectivity.Restriction

/-!
# Null and empty rows in a restriction estimate

The histograms of a column cover the rows that are neither null nor empty, so an estimate from them
has to be scaled to the share of those rows. `rangerestsel` does not do it. The statistics of a
column keep all its estimates within the share only if the frequencies are small enough already,
and if the value that replaces a sum below one is, too.

## Main results

* `rangerestsel_le_iff` — the columns whose estimates leave room for null and empty rows
-/

set_option autoImplicit false

namespace PgRange.Selectivity

open Math Stats

/-- The least and the greatest `int`. -/
def int4Min : ℤ := -2147483648

@[inherit_doc int4Min]
def int4Max : ℤ := 2147483647

/-- The lower bound of a constant, as an `int`. -/
def constLow (c : RangeType Datum) : ℤ := CInt.int32.wrap (rangeDeserialize c).lower.val.toInt

/-- The upper bound of a constant, as an `int`. -/
def constUp (c : RangeType Datum) : ℤ := CInt.int32.wrap (rangeDeserialize c).upper.val.toInt

/-- The statistics of a range column as `ANALYZE` stores them: fractions, a bounds
histogram of non-empty ranges, and frequencies that do not exceed its size. -/
structure HistogramStats where
  nullFrac : ℚ
  emptyFrac : ℚ
  nullFrac_mem : 0 ≤ nullFrac ∧ nullFrac ≤ 1
  emptyFrac_mem : 0 ≤ emptyFrac ∧ emptyFrac ≤ 1
  bounds : List (RangeType Datum)
  bounds_ne_nil : bounds ≠ []
  nonEmpty : ∀ r ∈ bounds, r.flags.empty = false
  frequencies : List ℚ
  frequencies_ne_nil : frequencies ≠ []
  nonneg : ∀ q ∈ frequencies, 0 ≤ q
  sum_le : frequencies.sum ≤ bounds.length

/-- Non-empty constants with finite bounds, whose lower bounds take all values up to `top`, also
with the greatest upper bound. -/
structure ConstantsUpTo (top : ℤ) (constants : Set (RangeType Datum)) : Prop where
  top_nonneg : 0 ≤ top
  nonEmpty : ∀ c ∈ constants, c.flags.empty = false
  low_le : ∀ c ∈ constants, constLow c ≤ top
  exists_low : ∀ a, int4Min ≤ a → a ≤ top → ∃ c ∈ constants, constLow c = a ∧ constUp c = int4Max

/-- The `int4range` constants `[a,b)`. -/
def int4Constants : Set (RangeType Datum) :=
  {c | ∃ a b, FitsInt32 a ∧ FitsInt32 b ∧ a < b ∧ c = int4Stored a b}

theorem constLow_int4Stored {a b : ℤ} (ha : FitsInt32 a) : constLow (int4Stored a b) = a := by
  change CInt.int32.wrap (int4Word a).toInt = a
  rw [toInt_int4Word ha, CInt.int32.wrap_of_fits ha]

theorem constUp_int4Stored {a b : ℤ} (hb : FitsInt32 b) : constUp (int4Stored a b) = b := by
  change CInt.int32.wrap (int4Word b).toInt = b
  rw [toInt_int4Word hb, CInt.int32.wrap_of_fits hb]

theorem constantsUpTo_int4Constants : ConstantsUpTo (int4Max - 1) int4Constants where
  top_nonneg := by decide
  nonEmpty := by
    rintro _ ⟨a, b, -, -, -, rfl⟩
    rfl
  low_le := by
    rintro _ ⟨a, b, ha, hb, hab, rfl⟩
    rw [constLow_int4Stored ha]
    have hle : b ≤ int4Max := hb.2
    omega
  exists_low a hlow hle := by
    have ha : FitsInt32 a := ⟨hlow, by unfold int4Max at hle; omega⟩
    have hb : FitsInt32 int4Max := by decide
    exact ⟨_, ⟨a, int4Max, ha, hb, by omega, rfl⟩, constLow_int4Stored ha, constUp_int4Stored hb⟩

namespace HistogramStats

variable (s : HistogramStats) (R : CFloat)

/-- The row of `pg_statistic`. -/
def tuple : StatsTuple where
  stanullfrac := s.nullFrac
  lengthNumbers := some [s.emptyFrac]
  bounds := some s.bounds
  frequencies := some (s.frequencies.map .fin)

/-- The clause `column operator constant`, with statistics that may be read. -/
def clause (operator : RangeOp) (constrange : RangeType Datum) : RestrictionClause where
  operator := operator
  restrictionVariable := some (.const false true constrange, true)
  securityCheck := true
  statsTuple := some s.tuple

/-- The fraction of the rows that are neither null nor empty. -/
def share : ℚ := (1 - s.nullFrac) * (1 - s.emptyFrac)

/-- The estimate stays within the share. -/
def Within (operator : RangeOp) (c : RangeType Datum) : Prop :=
  ∃ r, rangerestsel .int32 R (s.clause operator c) = .ok r ∧ r.le (.fin s.share) = true

/-- The first lower bound of the histogram, as an `int`. -/
def min1 : ℤ :=
  CInt.int32.wrap (rangeDeserialize (s.bounds.head s.bounds_ne_nil)).lower.val.toInt

/-- The last upper bound of the histogram, as an `int`. -/
def max1 : ℤ :=
  CInt.int32.wrap (rangeDeserialize (s.bounds.getLast s.bounds_ne_nil)).upper.val.toInt

/-- The interval length. -/
def length : ℤ := restLength .int32 s.frequencies.length s.min1 s.max1

/-- The frequencies as the statistics hold them. -/
def freqs : List FloatQ := s.frequencies.map .fin

/-- The end of interval `i`. -/
def endOf (i : ℕ) : ℤ := (restInterval .int32 s.min1 s.length i).2

/-- A number that is within the share, or is clamped to it. -/
def Small (v : FloatQ) : Prop := v ≠ .nan ∧ (s.share = 1 ∨ v.le (.fin s.share) = true)

instance (v : FloatQ) : Decidable (s.Small v) := inferInstanceAs (Decidable (_ ∧ _))

/-- A sum as a fraction of the rows. -/
def ofRows (v : FloatQ) : FloatQ := R.div v (.fin s.bounds.length)

/-- The value that replaces a sum below one, for a constant that starts at `v`. -/
def scaled (v : ℤ) : FloatQ := s.ofRows R (leftScaled R s.length v s.freqs)

/-- The statistics are within the share: so are all frequencies together, and the value that
replaces a sum below one, for the constants that start furthest to the right, if the length of the
intervals is positive; it is negative or zero only if their span is not that of an `int`. -/
structure WithinShare (top : ℤ) : Prop where
  total : s.Small (s.ofRows R (R.sum s.freqs))
  ends : 0 < s.length → ∀ i < s.frequencies.length,
    (R.sum (s.freqs.take i)).lt (.fin 1) = true → s.Small (s.scaled R (min (s.endOf i) top))
  last : 0 < s.length → (R.sum s.freqs).lt (.fin 1) = true → s.Small (s.scaled R top)
  overflow : s.length < 0 → s.Small (s.scaled R int4Min)
  point : s.length = 0 →
    s.frequencies.headD 0 ≠ 0 ∧ s.min1 < 0 ∧ (R.sum s.freqs).lt (.fin 1) = false

variable {s R}

/-! ### The estimate in terms of the statistics -/

theorem share_mem (s : HistogramStats) : 0 ≤ s.share ∧ s.share ≤ 1 := by
  obtain ⟨hn0, hn1⟩ := s.nullFrac_mem
  obtain ⟨he0, he1⟩ := s.emptyFrac_mem
  exact ⟨mul_nonneg (by linarith) (by linarith),
    mul_le_one₀ (by linarith) (by linarith) (by linarith)⟩

theorem rows_pos (s : HistogramStats) : (0 : ℚ) < s.bounds.length := by
  exact_mod_cast List.length_pos_iff.mpr s.bounds_ne_nil

theorem freqs_ne_nil (s : HistogramStats) : s.freqs ≠ [] := by
  simpa [freqs] using s.frequencies_ne_nil

theorem length_freqs (s : HistogramStats) : s.freqs.length = s.frequencies.length :=
  List.length_map _

theorem freqs_nonneg (s : HistogramStats) : ∀ f ∈ s.freqs, (FloatQ.fin 0).le f = true := by
  intro f hf
  obtain ⟨q, hq, rfl⟩ := List.mem_map.mp hf
  exact decide_eq_true (s.nonneg q hq)

theorem restSpan_eq (s : HistogramStats) : restSpan .int32 s.bounds = .ok (s.min1, s.max1) := by
  unfold restSpan
  rw [List.head?_eq_some_head s.bounds_ne_nil, List.getLast?_eq_some_getLast s.bounds_ne_nil]
  simp only [s.nonEmpty _ (List.head_mem _), s.nonEmpty _ (List.getLast_mem _), Bool.or_self,
    Bool.false_eq_true, ↓reduceIte]
  rfl

/-- A clamped value stays below a bound in the unit interval if it is a number and
either the bound is one or the value was below it already. -/
theorem clampFloat_le_iff {bound : ℚ} (h0 : 0 ≤ bound) (h1 : bound ≤ 1) (v : FloatQ) :
    (clampFloat v).le (.fin bound) = true ↔
      v ≠ .nan ∧ (bound = 1 ∨ v.le (.fin bound) = true) := by
  cases v with
  | nan => simp [clampFloat, FloatQ.lt, FloatQ.le]
  | negInf => simp [clampFloat, FloatQ.lt, FloatQ.le, h0]
  | posInf =>
    simp only [clampFloat, FloatQ.lt, FloatQ.le, Bool.false_eq_true, ↓reduceIte,
      decide_eq_true_eq, ne_eq, reduceCtorEq, not_false_eq_true, or_false, true_and]
    exact ⟨fun h => le_antisymm h1 h, fun h => h.ge⟩
  | fin q =>
    simp only [clampFloat, FloatQ.fin_lt_fin, decide_eq_true_eq, ne_eq, reduceCtorEq,
      not_false_eq_true, true_and, FloatQ.fin_le_fin]
    split_ifs with hneg hbig
    · simp only [FloatQ.fin_le_fin, decide_eq_true_eq, h0, true_iff]
      exact Or.inr (by linarith)
    · simp only [FloatQ.fin_le_fin, decide_eq_true_eq]
      constructor
      · intro h
        exact Or.inl (le_antisymm h1 h)
      · rintro (h | h) <;> linarith
    · simp only [FloatQ.fin_le_fin, decide_eq_true_eq]
      constructor
      · exact Or.inr
      · rintro (h | h) <;> linarith

/-- With both histograms at hand, `rangerestsel` divides the sum of its loop by the
number of bounds and clamps it. -/
theorem within_iff {op : RangeOp} (hop : op = .left ∨ op = .overlap) {c : RangeType Datum}
    (hc : c.flags.empty = false) :
    s.Within R op c ↔
      s.Small
        (s.ofRows R (restSum .int32 R s.min1 s.length (constLow c) (constUp c) s.freqs op)) := by
  have hknown : ¬ (op ≠ .left ∧ op ≠ .overlap) := by tauto
  have hhist : rangerestselHist .int32 R op c s.bounds s.freqs =
      .ok (clampFloat (s.ofRows R
        (restSum .int32 R s.min1 s.length (constLow c) (constUp c) s.freqs op))) := by
    unfold rangerestselHist
    rw [s.restSpan_eq]
    change (rangerestselInner .int32 R s.freqs _ _ _ _ _ op >>= _) = _
    rw [rangerestselInner_eq .int32 R s.min1 s.max1 s.freqs_ne_nil, length_freqs]
    rfl
  have hrun : rangerestsel .int32 R (s.clause op c) =
      rangerestselHist .int32 R op c s.bounds s.freqs := by
    simp [rangerestsel, clause, tuple, hknown, rangeIsEmpty, hc, freqs]
  rw [Within, hrun, hhist, Small, ← clampFloat_le_iff s.share_mem.1 s.share_mem.2]
  simp

/-! ### Larger and smaller values -/

theorem Small.mono {v w : FloatQ} (h : s.Small w) (hle : v.le w = true) : s.Small v := by
  refine ⟨?_, h.2.imp id fun hw => FloatQ.le_trans hle hw⟩
  rintro rfl
  cases hle

theorem ofRows_mono {v w : FloatQ} (hle : v.le w = true) :
    (s.ofRows R v).le (s.ofRows R w) = true :=
  CFloat.div_le_div hle s.rows_pos

/-- The value that replaces a sum is in the order of the quotients. -/
theorem scaled_mono (hne : s.length ≠ 0) {v w : ℤ} (hv : FitsInt32 v) (hw : FitsInt32 w)
    (hle : (v : ℚ) / s.length ≤ w / s.length) : (s.scaled R v).le (s.scaled R w) = true :=
  ofRows_mono (leftScaled_mono s.nonneg hne (abs_le_of_fits hv) (abs_le_of_fits hw) hle)

theorem scaled_of_length_eq_zero (hzero : s.length = 0) (v : ℤ) :
    s.scaled R v =
      s.ofRows R (R.rounded (.fin (s.frequencies.headD 0) * FloatQ.infOfSign v)) := by
  have hinf : R.rounded (FloatQ.infOfSign v) = FloatQ.infOfSign v := by
    unfold FloatQ.infOfSign
    split_ifs <;> rfl
  rw [scaled, leftScaled, freqs, headD_map_fin, hzero, CFloat.div, Int.cast_zero,
    FloatQ.fin_div_zero, hinf]
  rfl

/-- In intervals without a length there is no such value for a constant that starts at zero, nor
without a first frequency. -/
theorem ne_zero_of_small_scaled (hzero : s.length = 0) {v : ℤ} (h : s.Small (s.scaled R v)) :
    v ≠ 0 ∧ s.frequencies.headD 0 ≠ 0 := by
  rw [scaled_of_length_eq_zero hzero] at h
  constructor
  · rintro rfl
    rw [Int.cast_zero, FloatQ.infOfSign_zero] at h
    exact h.1 rfl
  · intro hnone
    rw [hnone] at h
    unfold FloatQ.infOfSign at h
    split_ifs at h <;> exact h.1 rfl

theorem small_scaled_of_neg (hzero : s.length = 0) (hhead : s.frequencies.headD 0 ≠ 0) {v : ℤ}
    (hv : v < 0) : s.Small (s.scaled R v) := by
  have hpos := (headD_nonneg s.nonneg).lt_of_ne' hhead
  have hinf : s.scaled R v = .negInf := by
    rw [scaled_of_length_eq_zero hzero, FloatQ.infOfSign_of_neg (by exact_mod_cast hv),
      FloatQ.fin_mul_negInf, FloatQ.infOfSign_of_neg (by linarith)]
    change R.rounded (.negInf / .fin _) = .negInf
    rw [FloatQ.negInf_div_fin s.rows_pos.le]
    rfl
  rw [hinf]
  exact ⟨by simp, .inr rfl⟩

/-! ### The constants that matter -/

/-- Interval `i` meets the integers from `a` to `b`. -/
theorem restInRange_iff (s : HistogramStats) (a b : ℤ) (i : ℕ) :
    restInRange .int32 s.min1 s.length a b i = true ↔
      a ≤ s.endOf i ∧ (restInterval .int32 s.min1 s.length i).1 ≤ b :=
  isInRange_eq_true_iff

theorem endOf_fits (s : HistogramStats) (i : ℕ) : FitsInt32 (s.endOf i) := CInt.wrap32_fits _

theorem endOf_of_length_eq_zero (hzero : s.length = 0) (i : ℕ) : s.endOf i = s.min1 := by
  rw [endOf, restInterval, hzero]
  simp only [mul_zero, CInt.wrap_add_wrap, add_zero]
  exact CInt.wrap_wrap _ _

/-- With the greatest upper bound, only the lower bound matters. -/
theorem restInRange_int4Max (s : HistogramStats) (a : ℤ) (i : ℕ) :
    restInRange .int32 s.min1 s.length a int4Max i = true ↔ a ≤ s.endOf i := by
  rw [restInRange_iff, and_iff_left]
  exact (CInt.wrap32_fits _).2

/-- The constant that starts and ends last is met by all intervals. -/
theorem overlapSum_whole (s : HistogramStats) :
    overlapSum .int32 R s.min1 s.length int4Min int4Max s.freqs = R.sum s.freqs := by
  have hall : restInRange .int32 s.min1 s.length int4Min int4Max = fun _ => true := by
    funext i
    exact (s.restInRange_int4Max int4Min i).mpr (s.endOf_fits i).1
  have hrun : ∀ xs : List FloatQ, initialRun (fun _ => true) xs = xs := by
    intro xs
    induction xs with
    | nil => rfl
    | cons x xs ih => simp [initialRun, ih]
  have hfirst : firstRun (fun _ => true) s.freqs = s.freqs := by
    cases s.freqs with
    | nil => rfl
    | cons x xs => simp [firstRun, hrun]
  rw [overlapSum, hall, hfirst]

/-- The frequencies before a constant are the first ones. -/
theorem exists_leftSum_eq (s : HistogramStats) (R : CFloat) (a b : ℤ) :
    ∃ n ≤ s.frequencies.length,
      leftSum .int32 R s.min1 s.length a b s.freqs = R.sum (s.freqs.take n) ∧
      (∀ k < n, restInRange .int32 s.min1 s.length a b k = false) ∧
      (n < s.frequencies.length → restInRange .int32 s.min1 s.length a b n = true) := by
  obtain ⟨n, hn, htake, hbefore, hnext⟩ := exists_initialRun_eq_take
    (fun i => !restInRange .int32 s.min1 s.length a b i) s.freqs
  rw [length_freqs] at hn hnext
  refine ⟨n, hn, by rw [leftSum, htake], fun k hk => by simpa using hbefore k hk, fun hlt => ?_⟩
  simpa using hnext hlt

/-- Fewer of the first frequencies have a smaller sum. -/
theorem sum_take_lt {n m : ℕ} (hnm : n ≤ m) (h : (R.sum (s.freqs.take m)).lt (.fin 1) = true) :
    (R.sum (s.freqs.take n)).lt (.fin 1) = true :=
  FloatQ.lt_of_le_of_lt (CFloat.sum_le_sum (List.take_sublist_take_left hnm)
    fun f hf => s.freqs_nonneg f (List.mem_of_mem_take hf)) h

theorem take_length (s : HistogramStats) : s.freqs.take s.frequencies.length = s.freqs := by
  rw [← length_freqs, List.take_length]

/-- A constant with a small sum is given the value that replaces it. -/
theorem small_scaled_of_within {c : RangeType Datum} (hc : c.flags.empty = false)
    (h : s.Within R .left c)
    (hsum : (leftSum .int32 R s.min1 s.length (constLow c) (constUp c) s.freqs).lt (.fin 1) =
      true) : s.Small (s.scaled R (constLow c)) := by
  have hsmall := (within_iff (.inl rfl) hc).mp h
  rwa [restSum, leftValue, if_pos hsum] at hsmall

variable {top : ℤ} {constants : Set (RangeType Datum)}

/-- The constants that the condition names are among those that are estimated. -/
theorem withinShare_of_forall (hK : ConstantsUpTo top constants)
    (h : ∀ c ∈ constants, s.Within R .overlap c ∧ s.Within R .left c) : s.WithinShare R top := by
  have htop := hK.top_nonneg
  have hlow : int4Min ≤ top := le_trans (by decide) htop
  have hnb : 0 < s.frequencies.length := List.length_pos_iff.mpr s.frequencies_ne_nil
  -- a constant with the greatest upper bound, and an interval that it meets
  have hmeets : ∀ {a : ℤ} {i : ℕ}, int4Min ≤ a → a ≤ top → i < s.frequencies.length →
      a ≤ s.endOf i → (R.sum (s.freqs.take i)).lt (.fin 1) = true → s.Small (s.scaled R a) := by
    intro a i ha hle hi hend hsum
    obtain ⟨c, hc, rfl, hup⟩ := hK.exists_low a ha hle
    refine small_scaled_of_within (hK.nonEmpty c hc) (h c hc).2 ?_
    obtain ⟨n, -, heq, hbefore, -⟩ := s.exists_leftSum_eq R (constLow c) (constUp c)
    rw [heq]
    refine sum_take_lt (not_lt.mp fun hlt => ?_) hsum
    have hfalse := hbefore i hlt
    rw [hup, (s.restInRange_int4Max _ i).mpr hend] at hfalse
    cases hfalse
  have hzero : (R.sum (s.freqs.take 0)).lt (.fin 1) = true := rfl
  have hfirst := hmeets (i := 0) le_rfl hlow hnb (s.endOf_fits 0).1 hzero
  constructor
  case total =>
    obtain ⟨c, hc, hcl, hcu⟩ := hK.exists_low int4Min le_rfl hlow
    have hsmall := (within_iff (.inr rfl) (hK.nonEmpty c hc)).mp (h c hc).1
    rwa [restSum, hcl, hcu, overlapSum_whole] at hsmall
  case ends =>
    intro _ i hi hsum
    exact hmeets (le_min (s.endOf_fits i).1 hlow) (min_le_right _ _) hi (min_le_left _ _) hsum
  case last =>
    intro _ hsum
    obtain ⟨c, hc, rfl, -⟩ := hK.exists_low top hlow le_rfl
    refine small_scaled_of_within (hK.nonEmpty c hc) (h c hc).2 ?_
    obtain ⟨n, hn, heq, -⟩ := s.exists_leftSum_eq R (constLow c) (constUp c)
    rw [heq]
    exact sum_take_lt hn (by rwa [take_length])
  case overflow => exact fun _ => hfirst
  case point =>
    intro hlength
    have hneg : s.min1 < 0 := by
      by_contra hge
      have hend : 0 ≤ s.endOf 0 := by
        rw [endOf_of_length_eq_zero hlength]
        omega
      exact (ne_zero_of_small_scaled hlength (hmeets (by decide) htop hnb hend hzero)).1 rfl
    refine ⟨(ne_zero_of_small_scaled hlength hfirst).2, hneg, ?_⟩
    by_contra hsum
    rw [Bool.not_eq_false] at hsum
    obtain ⟨c, hc, hcl, -⟩ := hK.exists_low 0 (by decide) htop
    have hsmall := small_scaled_of_within (hK.nonEmpty c hc) (h c hc).2 (by
      obtain ⟨n, hn, heq, -⟩ := s.exists_leftSum_eq R (constLow c) (constUp c)
      rw [heq]
      exact sum_take_lt hn (by rwa [take_length]))
    rw [hcl] at hsmall
    exact (ne_zero_of_small_scaled hlength hsmall).1 rfl

theorem constLow_fits (c : RangeType Datum) : FitsInt32 (constLow c) := CInt.wrap32_fits _

/-- The value that replaces a sum is within the share for all constants that have it. -/
theorem WithinShare.small_scaled (h : s.WithinShare R top) (hK : ConstantsUpTo top constants)
    (htop : FitsInt32 top) {c : RangeType Datum} (hc : c ∈ constants)
    (hsum : (leftSum .int32 R s.min1 s.length (constLow c) (constUp c) s.freqs).lt (.fin 1) =
      true) : s.Small (s.scaled R (constLow c)) := by
  obtain ⟨n, hn, heq, hbefore, hnext⟩ := s.exists_leftSum_eq R (constLow c) (constUp c)
  rw [heq] at hsum
  have hle := hK.low_le c hc
  rcases lt_trichotomy s.length 0 with hneg | hzero | hpos
  · refine (h.overflow hneg).mono (scaled_mono hneg.ne (constLow_fits c) (by decide) ?_)
    exact div_le_div_of_nonpos_of_le (by exact_mod_cast hneg.le)
      (by exact_mod_cast (constLow_fits c).1)
  · obtain ⟨hhead, hmin, htotal⟩ := h.point hzero
    rcases hn.lt_or_eq with hlt | rfl
    · -- the first bound is negative, and the constant starts before it
      have hmeets := ((s.restInRange_iff _ _ n).mp (hnext hlt)).1
      rw [endOf_of_length_eq_zero hzero] at hmeets
      exact small_scaled_of_neg hzero hhead (by omega)
    · rw [take_length, htotal] at hsum
      cases hsum
  · have hmono : ∀ {v : ℤ}, FitsInt32 v → constLow c ≤ v → s.Small (s.scaled R v) →
        s.Small (s.scaled R (constLow c)) := by
      intro v hv hlv hsmall
      refine hsmall.mono (scaled_mono hpos.ne' (constLow_fits c) hv ?_)
      exact div_le_div_of_nonneg_right (by exact_mod_cast hlv) (by exact_mod_cast hpos.le)
    rcases hn.lt_or_eq with hlt | rfl
    · have hmeets := ((s.restInRange_iff _ _ n).mp (hnext hlt)).1
      refine hmono ?_ (le_min hmeets hle) (h.ends hpos n hlt hsum)
      rcases min_choice (s.endOf n) top with heq | heq <;> rw [heq]
      · exact s.endOf_fits n
      · exact htop
    · rw [take_length] at hsum
      exact hmono htop hle (h.last hpos hsum)

end HistogramStats

/-- Neither operator scales its estimate to the rows that are neither null nor empty. All
estimates stay within that share exactly when the frequencies do, and the value that `<<` puts in
the place of a small sum does for the constants that start furthest to the right. -/
theorem rangerestsel_le_iff (R : CFloat) (s : HistogramStats) {top : ℤ} (htop : FitsInt32 top)
    {constants : Set (RangeType Datum)} (hK : ConstantsUpTo top constants) :
    (∀ c ∈ constants, s.Within R .overlap c ∧ s.Within R .left c) ↔ s.WithinShare R top := by
  refine ⟨HistogramStats.withinShare_of_forall hK, fun h c hc => ⟨?_, ?_⟩⟩
  · refine (HistogramStats.within_iff (.inr rfl) (hK.nonEmpty c hc)).mpr (h.total.mono ?_)
    exact HistogramStats.ofRows_mono (CFloat.sum_le_sum (firstRun_sublist _ _) s.freqs_nonneg)
  · refine (HistogramStats.within_iff (.inl rfl) (hK.nonEmpty c hc)).mpr ?_
    rw [restSum, leftValue]
    split_ifs with hsum
    · exact h.small_scaled hK htop hc hsum
    · refine h.total.mono (HistogramStats.ofRows_mono ?_)
      exact CFloat.sum_le_sum (initialRun_sublist _ _) s.freqs_nonneg

/-- A column half of whose rows are null. All others are `[0,10)`. -/
def halfNullStats (frequencies : List ℚ) (hne : frequencies ≠ [])
    (hnonneg : ∀ q ∈ frequencies, 0 ≤ q) (hsum : frequencies.sum ≤ 2) : HistogramStats where
  nullFrac := 1 / 2
  emptyFrac := 0
  nullFrac_mem := by norm_num
  emptyFrac_mem := by norm_num
  bounds := [int4Stored 0 10, int4Stored 0 10]
  bounds_ne_nil := by simp
  nonEmpty := by decide
  frequencies := frequencies
  frequencies_ne_nil := hne
  nonneg := hnonneg
  sum_le := by simpa using hsum

/-- Half of the rows are null, and yet all rows are estimated to overlap `[0,5)`, and
all to be left of `[20,30)`. -/
theorem rangerestsel_halfNull :
    let s := halfNullStats [2] (by decide) (by decide +kernel) (by decide +kernel)
    s.share = 1 / 2 ∧
      rangerestsel .int32 .float8 (s.clause .overlap (int4Stored 0 5)) = .ok (.fin 1) ∧
      rangerestsel .int32 .float8 (s.clause .left (int4Stored 20 30)) = .ok (.fin 1) := by
  decide +kernel

/-- With half of the frequencies, none of them in the first interval, all estimates stay within the
half that is not null. -/
theorem rangerestsel_le_iff_halfNull :
    let s := halfNullStats [0, 1] (by decide) (by decide +kernel) (by decide +kernel)
    ∀ c ∈ int4Constants, s.Within .float8 .overlap c ∧ s.Within .float8 .left c :=
  (rangerestsel_le_iff .float8 _ (by decide) constantsUpTo_int4Constants).mpr
    { total := by decide +kernel
      ends := by decide +kernel
      last := by decide +kernel
      overflow := by decide +kernel
      point := by decide +kernel }

end PgRange.Selectivity
