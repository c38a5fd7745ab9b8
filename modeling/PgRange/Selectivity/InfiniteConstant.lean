import PgRange.Selectivity.RestEstimate

/-!
# Constants with an infinite bound

`range_deserialize` leaves a zero in the place of an infinite bound, and
`rangerestsel_inner` reads no more of a bound than that. So the constant `(,b)` is
estimated like `[0,b)`. This file compares it with the constants that have a finite bound
beyond all buckets instead, and determines which columns hide the difference.

## Main results

* `rangerestselInner_infinite_iff` — for either operator and either bound
-/

set_option autoImplicit false

namespace PgRange.Selectivity

open Math Stats

/-- A value below all buckets that can stand in for the infinite lower bound of a
constant. -/
def FarBelow (min1 : ℤ) (upper : RangeBound Datum) (v : ℤ) : Prop :=
  FitsInt32 v ∧ v < min1 ∧ (upper.infinite = false → v < upper.val.toInt)

/-- A value above all buckets that can stand in for the infinite upper bound of a
constant. -/
def FarAbove (end1 : ℤ) (lower : RangeBound Datum) (v : ℤ) : Prop :=
  FitsInt32 v ∧ end1 < v ∧ (lower.infinite = false → lower.val.toInt < v)

/-- If any value is far below, then the least one is. -/
theorem FarBelow.least {min1 : ℤ} {upper : RangeBound Datum} {v : ℤ} (h : FarBelow min1 upper v) :
    FarBelow min1 upper int4Min := by
  obtain ⟨hfits, hlt, hbelow⟩ := h
  have hle : int4Min ≤ v := hfits.1
  exact ⟨by decide, hle.trans_lt hlt, fun hfin => hle.trans_lt (hbelow hfin)⟩

/-- Where all values that satisfy `p` give the same answer, it is given for all of them or
there are none. -/
theorem forall_imp_iff_of_const {p R : ℤ → Prop} {C : Prop} (h : ∀ v, p v → (R v ↔ C)) :
    (∀ v, p v → R v) ↔ (∀ v, ¬ p v) ∨ C := by
  by_cases hnone : ∀ v, ¬ p v
  · exact iff_of_true (fun v hv => absurd hv (hnone v)) (Or.inl hnone)
  · obtain ⟨v, hv⟩ := not_forall_not.mp hnone
    rw [or_iff_right hnone]
    exact ⟨fun hall => (h v hv).mp (hall v hv), fun hC w hw => (h w hw).mpr hC⟩

section Property

variable (A : CInt) (R : CFloat) (qs : List ℚ) (rows : ℕ) (min1 max1 : ℤ) (c : RangeType Datum)
  (operator : RangeOp)

/-- The infinite lower bound of the constant gives the estimate of every finite one that
lies below all buckets. -/
def LowerMeansInfinity : Prop :=
  ∀ v, FarBelow min1 (rangeDeserialize c).upper v →
    rangerestselInner A R (qs.map .fin) rows min1 max1 (rangeDeserialize c).lower
        (rangeDeserialize c).upper operator =
      rangerestselInner A R (qs.map .fin) rows min1 max1 (int4Lower v) (rangeDeserialize c).upper
        operator

/-- The infinite upper bound of the constant gives the estimate of every finite one that
lies above all buckets. -/
def UpperMeansInfinity : Prop :=
  ∀ v, FarAbove (bucketStart min1 (restLength A qs.length min1 max1) qs.length)
      (rangeDeserialize c).lower v →
    rangerestselInner A R (qs.map .fin) rows min1 max1 (rangeDeserialize c).lower
        (rangeDeserialize c).upper operator =
      rangerestselInner A R (qs.map .fin) rows min1 max1 (rangeDeserialize c).lower (int4Upper v)
        operator

end Property

/-! ### The buckets that zero cuts off -/

/-- The frequencies of the buckets that start at or below `b`. -/
def massStarting (R : CFloat) (freqs : List FloatQ) (min1 length b : ℤ) : FloatQ :=
  addFrequencies R freqs
    ((List.range freqs.length).filter fun i => bucketStart min1 length i ≤ b)

/-- The frequencies of the buckets that end at or above `a`. -/
def massEnding (R : CFloat) (freqs : List FloatQ) (min1 length a : ℤ) : FloatQ :=
  addFrequencies R freqs
    ((List.range freqs.length).filter fun i => a ≤ bucketStart min1 length (i + 1))

/-- The buckets that start at or below `b` and end below zero have no frequency. -/
def NoneCutBelow (qs : List ℚ) (min1 length b : ℤ) : Prop :=
  ∀ i < qs.length, bucketStart min1 length i ≤ b → bucketStart min1 length (i + 1) < 0 →
    qs.getD i 0 = 0

/-- The buckets that end at or above `a` and start above zero have no frequency. -/
def NoneCutAbove (qs : List ℚ) (min1 length a : ℤ) : Prop :=
  ∀ i < qs.length, a ≤ bucketStart min1 length (i + 1) → 0 < bucketStart min1 length i →
    qs.getD i 0 = 0

/-- Leaving out the buckets that end below zero does not change the part of the rows in those
that start at or below `b`. -/
def SameFromZero (R : CFloat) (qs : List ℚ) (rows : ℕ) (min1 length b : ℤ) : Prop :=
  R.div (massMeeting R (qs.map .fin) min1 length 0 b) (.fin rows) =
    R.div (massStarting R (qs.map .fin) min1 length b) (.fin rows)

/-- Leaving out the buckets that start above zero does not change the part of the rows in those
that end at or above `a`. -/
def SameToZero (R : CFloat) (qs : List ℚ) (rows : ℕ) (min1 length a : ℤ) : Prop :=
  R.div (massMeeting R (qs.map .fin) min1 length a 0) (.fin rows) =
    R.div (massEnding R (qs.map .fin) min1 length a) (.fin rows)

section Sums

variable {R : CFloat} {freqs : List FloatQ} {qs : List ℚ} {min1 length : ℤ}

/-- From far below, the constant meets all buckets that start at or below its upper bound. -/
theorem massMeeting_farBelow (hlength : 0 < length) {v : ℤ} (hv : v < min1) (b : ℤ) :
    massMeeting R freqs min1 length v b = massStarting R freqs min1 length b := by
  rw [massMeeting, massStarting]
  congr 1
  refine List.filter_congr fun i _ => decide_eq_decide.mpr (and_iff_right ?_)
  have hend := bucketStart_strictMono min1 hlength (Nat.succ_pos i)
  rw [bucketStart_zero] at hend
  exact (hv.trans hend).le

/-- To far above, it meets all buckets that end at or above its lower bound. -/
theorem massMeeting_farAbove (hlength : 0 < length) {v : ℤ}
    (hv : bucketStart min1 length freqs.length < v) (a : ℤ) :
    massMeeting R freqs min1 length a v = massEnding R freqs min1 length a := by
  rw [massMeeting, massEnding]
  congr 1
  refine List.filter_congr fun i hi => decide_eq_decide.mpr (and_iff_left ?_)
  exact ((bucketStart_strictMono min1 hlength (List.mem_range.mp hi)).trans hv).le

/-- Buckets without a frequency can be left out. -/
theorem addFrequencies_filter_congr {p q : ℕ → Bool}
    (h : ∀ i < qs.length, p i ≠ q i → qs.getD i 0 = 0) :
    addFrequencies R (qs.map .fin) ((List.range (qs.map FloatQ.fin).length).filter p) =
      addFrequencies R (qs.map .fin) ((List.range (qs.map FloatQ.fin).length).filter q) := by
  refine CFloat.sum_filter_congr fun i hi hdiffer => ?_
  rw [List.mem_range, List.length_map] at hi
  rw [List.getD_map, h i hi hdiffer]

theorem exact_addFrequencies (qs : List ℚ) (buckets : List ℕ) :
    addFrequencies .exact (qs.map .fin) buckets = .fin (buckets.map fun i => qs.getD i 0).sum := by
  rw [← CFloat.exact_sum, List.map_map, addFrequencies]
  simp only [List.getD_map]
  rfl

/-- If nothing is rounded, no others can. -/
theorem getD_eq_zero_of_addFrequencies_eq (hq : ∀ q ∈ qs, 0 ≤ q) {p q : ℕ → Bool}
    (hpq : ∀ i, p i = true → q i = true)
    (heq : addFrequencies .exact (qs.map .fin) ((List.range (qs.map FloatQ.fin).length).filter p) =
      addFrequencies .exact (qs.map .fin) ((List.range (qs.map FloatQ.fin).length).filter q))
    {i : ℕ} (hi : i < qs.length) (hqi : q i = true) (hpi : p i = false) : qs.getD i 0 = 0 := by
  rw [exact_addFrequencies, exact_addFrequencies, FloatQ.fin.injEq, List.length_map] at heq
  have hsplit := ((List.filter_append_perm p ((List.range qs.length).filter q)).map
    fun i => qs.getD i 0).sum_eq
  have hsub : ((List.range qs.length).filter q).filter p = (List.range qs.length).filter p := by
    rw [List.filter_filter]
    refine List.filter_congr fun j _ => ?_
    rw [Bool.and_eq_left_iff_imp]
    exact hpq j
  rw [List.map_append, List.sum_append, hsub, heq, add_eq_left] at hsplit
  refine List.all_zero_of_le_zero_le_of_sum_eq_zero (fun x hx => ?_) hsplit ?_
  · obtain ⟨j, -, rfl⟩ := List.mem_map.mp hx
    exact getD_nonneg hq j
  · exact List.mem_map.mpr ⟨i, by simp [hi, hqi, hpi], rfl⟩

theorem exact_div_rows_inj {rows : ℕ} (hrows : 1 ≤ rows) {buckets buckets' : List ℕ}
    (heq : CFloat.exact.div (addFrequencies .exact (qs.map .fin) buckets) (.fin rows) =
      CFloat.exact.div (addFrequencies .exact (qs.map .fin) buckets') (.fin rows)) :
    addFrequencies .exact (qs.map .fin) buckets = addFrequencies .exact (qs.map .fin) buckets' := by
  have hne : (rows : ℚ) ≠ 0 := Nat.cast_ne_zero.mpr (Nat.one_le_iff_ne_zero.mp hrows)
  rw [exact_addFrequencies, exact_addFrequencies] at heq ⊢
  rw [CFloat.exact_div, CFloat.exact_div, FloatQ.fin_div_fin hne, FloatQ.fin_div_fin hne,
    FloatQ.fin.injEq, div_left_inj' hne] at heq
  rw [heq]

/-- Zero cuts off nothing from below if the buckets there have no frequency, and only then if
nothing is rounded. -/
theorem sameFromZero_of_noneCutBelow {rows : ℕ} {b : ℤ} (hnone : NoneCutBelow qs min1 length b) :
    SameFromZero R qs rows min1 length b := by
  refine congrArg (R.div · _) (addFrequencies_filter_congr fun i hi hdiffer => ?_)
  by_contra hne
  refine hdiffer (decide_eq_decide.mpr (and_iff_right_of_imp fun hstart => ?_))
  exact not_lt.mp fun hend => hne (hnone i hi hstart hend)

@[inherit_doc sameFromZero_of_noneCutBelow]
theorem noneCutBelow_of_sameFromZero (hq : ∀ q ∈ qs, 0 ≤ q) {rows : ℕ} (hrows : 1 ≤ rows) {b : ℤ}
    (heq : SameFromZero .exact qs rows min1 length b) : NoneCutBelow qs min1 length b := by
  intro i hi hstart hend
  refine getD_eq_zero_of_addFrequencies_eq hq (fun j hj => ?_) (exact_div_rows_inj hrows heq) hi
    (decide_eq_true hstart) (decide_eq_false fun hmeets => absurd hmeets.1 (not_le.mpr hend))
  exact decide_eq_true (of_decide_eq_true hj).2

/-- The same from above. -/
theorem sameToZero_of_noneCutAbove {rows : ℕ} {a : ℤ} (hnone : NoneCutAbove qs min1 length a) :
    SameToZero R qs rows min1 length a := by
  refine congrArg (R.div · _) (addFrequencies_filter_congr fun i hi hdiffer => ?_)
  by_contra hne
  refine hdiffer (decide_eq_decide.mpr (and_iff_left_of_imp fun hend => ?_))
  exact not_lt.mp fun hstart => hne (hnone i hi hend hstart)

@[inherit_doc sameToZero_of_noneCutAbove]
theorem noneCutAbove_of_sameToZero (hq : ∀ q ∈ qs, 0 ≤ q) {rows : ℕ} (hrows : 1 ≤ rows) {a : ℤ}
    (heq : SameToZero .exact qs rows min1 length a) : NoneCutAbove qs min1 length a := by
  intro i hi hend hstart
  refine getD_eq_zero_of_addFrequencies_eq hq (fun j hj => ?_) (exact_div_rows_inj hrows heq) hi
    (decide_eq_true hend) (decide_eq_false fun hmeets => absurd hmeets.2 (not_le.mpr hstart))
  exact decide_eq_true (of_decide_eq_true hj).1

end Sums

/-! ### Infinite bounds -/

theorem wrap_lower_of_lbInf (A : CInt) {c : RangeType Datum} (hc : c.flags.lbInf = true) :
    A.wrap (rangeDeserialize c).lower.val.toInt = 0 := by
  have hval : (rangeDeserialize c).lower.val = default := by
    simp [rangeDeserialize, RangeFlags.hasLbound, hc]
  rw [hval]
  exact A.wrap_zero

theorem wrap_upper_of_ubInf (A : CInt) {c : RangeType Datum} (hc : c.flags.ubInf = true) :
    A.wrap (rangeDeserialize c).upper.val.toInt = 0 := by
  have hval : (rangeDeserialize c).upper.val = default := by
    simp [rangeDeserialize, RangeFlags.hasUbound, hc]
  rw [hval]
  exact A.wrap_zero

section Infinite

variable {A : CInt} {R : CFloat} {qs : List ℚ} {min1 max1 : ℤ} {rows : ℕ}

variable (h : RestColumn A qs.length min1 max1) (hne : qs ≠ []) {c : RangeType Datum}

include h hne

/-- An infinite lower bound and `&&`. -/
theorem lowerMeansInfinity_overlap_iff (hc : c.flags.lbInf = true) :
    LowerMeansInfinity A R qs rows min1 max1 c .overlap ↔
      (∀ v, ¬ FarBelow min1 (rangeDeserialize c).upper v) ∨
        SameFromZero R qs rows min1 (restLength A qs.length min1 max1)
          (A.wrap (rangeDeserialize c).upper.val.toInt) := by
  have hn : (qs.map FloatQ.fin).length = qs.length := List.length_map _
  refine forall_imp_iff_of_const fun v hv => ?_
  rw [rangerestselInner_map_eq A R min1 max1 hne, rangerestselInner_map_eq A R min1 max1 hne,
    restSum, restSum,
    h.overlapSum_eq hn, h.overlapSum_eq hn, wrap_lower_of_lbInf A hc, wrap_int4Lower A hv.1,
    massMeeting_farBelow (h.restLength_pos (List.length_pos_iff.mpr hne)) hv.2.1, Except.ok.injEq]
  rfl

/-- An infinite upper bound and `&&`. -/
theorem upperMeansInfinity_overlap_iff (hc : c.flags.ubInf = true) :
    UpperMeansInfinity A R qs rows min1 max1 c .overlap ↔
      (∀ v, ¬ FarAbove (bucketStart min1 (restLength A qs.length min1 max1) qs.length)
        (rangeDeserialize c).lower v) ∨
        SameToZero R qs rows min1 (restLength A qs.length min1 max1)
          (A.wrap (rangeDeserialize c).lower.val.toInt) := by
  have hn : (qs.map FloatQ.fin).length = qs.length := List.length_map _
  refine forall_imp_iff_of_const fun v hv => ?_
  rw [rangerestselInner_map_eq A R min1 max1 hne, rangerestselInner_map_eq A R min1 max1 hne,
    restSum, restSum,
    h.overlapSum_eq hn, h.overlapSum_eq hn, wrap_upper_of_ubInf A hc, wrap_int4Upper A hv.1,
    massMeeting_farAbove (v := v) (h.restLength_pos (List.length_pos_iff.mpr hne))
      (by rw [hn]; exact hv.2.1), Except.ok.injEq]
  rfl

/-- An infinite upper bound and `<<`. Up to far above, what is on the left is below the lower
bound. -/
theorem upperMeansInfinity_left_iff (hq : ∀ q ∈ qs, 0 ≤ q) (hc : c.flags.ubInf = true) :
    let length := restLength A qs.length min1 max1
    let a := A.wrap (rangeDeserialize c).lower.val.toInt
    UpperMeansInfinity A R qs rows min1 max1 c .left ↔
      (∀ v, ¬ FarAbove (bucketStart min1 length qs.length) (rangeDeserialize c).lower v) ∨
        (∃ i < qs.length, MeetsConst min1 length a 0 i) ∨
        (R.sum (qs.map .fin)).lt (.fin 1) = true ∨
        R.div (leftValue R length a (qs.map .fin) (massBelow R (qs.map .fin) min1 length a))
          (.fin rows) = R.div (R.sum (qs.map .fin)) (.fin rows) := by
  intro length a
  have hn : (qs.map FloatQ.fin).length = qs.length := List.length_map _
  refine forall_imp_iff_of_const fun v hv => ?_
  have habove : leftSum A R min1 length a v (qs.map .fin) =
      massBelow R (qs.map .fin) min1 length a := by
    rw [h.leftSum_eq hn]
    split_ifs with hmeets
    · rfl
    · refine (massBelow_eq_sum fun i hi => ?_).symm
      rw [hn] at hi
      have hstart := bucketStart_strictMono min1 (h.restLength_pos (Nat.one_le_of_lt hi)) hi
      by_contra hge
      exact hmeets ⟨i, hi, not_lt.mp hge, (hstart.trans hv.2.1).le⟩
  rw [rangerestselInner_map_eq A R min1 max1 hne, rangerestselInner_map_eq A R min1 max1 hne,
    restSum, restSum,
    wrap_upper_of_ubInf A hc, wrap_int4Upper A hv.1, habove, h.leftSum_eq hn, Except.ok.injEq]
  split_ifs with hmeets
  · exact iff_of_true rfl (Or.inl hmeets)
  · rw [or_iff_right hmeets]
    by_cases hsmall : (R.sum (qs.map .fin)).lt (.fin 1) = true
    · have hpart : (massBelow R (qs.map .fin) min1 length a).lt (.fin 1) = true :=
        FloatQ.lt_of_le_of_lt (massBelow_le_sum (zero_le_of_mem_map_fin hq) a) hsmall
      refine iff_of_true ?_ (Or.inl hsmall)
      rw [leftValue, leftValue, if_pos hsmall, if_pos hpart]
    · rw [or_iff_right hsmall, leftValue, if_neg hsmall, eq_comm]

omit h hne in
/-- If the least value has a small sum and the estimate that zero has, then neither estimate
comes from the first frequency. -/
theorem headVanishes_of_leftValue_eq (hq : ∀ q ∈ qs, 0 ≤ q) {length : ℤ} (hlength : 0 < length)
    (hrows : 1 ≤ rows) (hrows' : rows ≤ 2147483647) {m m' : FloatQ}
    (hm : (FloatQ.fin 0).le m = true) (hm' : m'.lt (.fin 1) = true)
    (heq : R.div (leftValue R length 0 (qs.map .fin) m) (.fin rows) =
      R.div (leftValue R length int4Min (qs.map .fin) m') (.fin rows)) :
    HeadVanishes R qs rows length ∧ m.lt (.fin 1) = true := by
  have hzero : R.div (leftScaled R length 0 (qs.map .fin)) (.fin rows) = .fin 0 :=
    div_leftScaled_zero hlength.ne' hrows
  rw [leftValue, leftValue, if_pos hm'] at heq
  have hsmall : m.lt (.fin 1) = true := by
    -- a sum that is not replaced gives a positive estimate, and the least value does not
    by_contra hlarge
    rw [Bool.not_eq_true] at hlarge
    rw [hlarge] at heq
    have hle := div_leftScaled_mono (R := R) hq hlength hrows (v := int4Min) (w := 0) (by decide)
      (by decide) (by decide)
    rw [hzero, ← heq] at hle
    exact div_rows_ne_zero hm hlarge hrows hrows' (FloatQ.le_antisymm hle
      (CFloat.zero_le_div (by exact_mod_cast hrows) hm))
  rw [if_pos hsmall, hzero] at heq
  exact ⟨heq.symm, hsmall⟩

omit hne in
/-- When the sum for `<<` is small. -/
theorem RestColumn.leftSum_lt_one_iff (hq : ∀ q ∈ qs, 0 ≤ q) (a b : ℤ) :
    (leftSum A R min1 (restLength A qs.length min1 max1) a b (qs.map .fin)).lt (.fin 1) = true ↔
      (R.sum (qs.map .fin)).lt (.fin 1) = true ∨
        ((∃ i < qs.length, MeetsConst min1 (restLength A qs.length min1 max1) a b i) ∧
          (massBelow R (qs.map .fin) min1 (restLength A qs.length min1 max1) a).lt (.fin 1) =
            true) := by
  rw [h.leftSum_eq (List.length_map _)]
  split_ifs with hmeets
  · rw [and_iff_right hmeets]
    exact ⟨Or.inr, fun hsmall => hsmall.elim
      (FloatQ.lt_of_le_of_lt (massBelow_le_sum (zero_le_of_mem_map_fin hq) a)) id⟩
  · rw [or_iff_left fun hsmall => hmeets hsmall.1]

omit h in
/-- The infinite lower bound is estimated like zero. -/
theorem rangerestselInner_left_eq_iff (hc : c.flags.lbInf = true) {v : ℤ} (hv : FitsInt32 v) :
    let length := restLength A qs.length min1 max1
    let b := A.wrap (rangeDeserialize c).upper.val.toInt
    rangerestselInner A R (qs.map .fin) rows min1 max1 (rangeDeserialize c).lower
        (rangeDeserialize c).upper .left =
      rangerestselInner A R (qs.map .fin) rows min1 max1 (int4Lower v)
        (rangeDeserialize c).upper .left ↔
    R.div (leftValue R length 0 (qs.map .fin) (leftSum A R min1 length 0 b (qs.map .fin)))
        (.fin rows) =
      R.div (leftValue R length v (qs.map .fin) (leftSum A R min1 length v b (qs.map .fin)))
        (.fin rows) := by
  intro length b
  rw [rangerestselInner_map_eq A R min1 max1 hne, rangerestselInner_map_eq A R min1 max1 hne,
    wrap_lower_of_lbInf A hc, wrap_int4Lower A hv, Except.ok.injEq]
  rfl

/-- An infinite lower bound and `<<`. The value that replaces a small sum grows with the
distance of a finite bound, so the first frequency must vanish wherever it comes in. -/
theorem lowerMeansInfinity_left_iff (hq : ∀ q ∈ qs, 0 ≤ q) (hrows : 1 ≤ rows)
    (hrows' : rows ≤ 2147483647) (hc : c.flags.lbInf = true) :
    let length := restLength A qs.length min1 max1
    let b := A.wrap (rangeDeserialize c).upper.val.toInt
    LowerMeansInfinity A R qs rows min1 max1 c .left ↔
      (∀ v, ¬ FarBelow min1 (rangeDeserialize c).upper v) ∨
        (b < min1 ∧ (R.sum (qs.map .fin)).lt (.fin 1) = false) ∨
        (HeadVanishes R qs rows length ∧
          (b < min1 ∨ (R.sum (qs.map .fin)).lt (.fin 1) = true ∨
            ((∃ i < qs.length, MeetsConst min1 length 0 b i) ∧
              (massBelow R (qs.map .fin) min1 length 0).lt (.fin 1) = true))) := by
  intro length b
  rw [← h.leftSum_lt_one_iff hq]
  have hn : (qs.map FloatQ.fin).length = qs.length := List.length_map _
  have hlength := h.restLength_pos (List.length_pos_iff.mpr hne)
  constructor
  · intro hall
    refine or_iff_not_imp_left.mpr fun hsome => ?_
    obtain ⟨w, hw⟩ := not_forall_not.mp hsome
    -- the least value is the one that gives the condition
    have heq := (rangerestselInner_left_eq_iff hne hc hw.least.1).mp (hall int4Min hw.least)
    have hnonneg : (FloatQ.fin 0).le (leftSum A R min1 length 0 b (qs.map .fin)) = true :=
      CFloat.zero_le_sum fun f hf =>
        zero_le_of_mem_map_fin hq f ((initialRun_sublist _ _).subset hf)
    rcases lt_or_ge b min1 with hbefore | hin
    · cases hsum : (R.sum (qs.map .fin)).lt (.fin 1) with
      | false => exact Or.inl ⟨hbefore, rfl⟩
      | true =>
        rw [h.leftSum_of_lt hn (a := int4Min) hbefore] at heq
        have hzero := headVanishes_of_leftValue_eq hq hlength hrows hrows' hnonneg hsum heq
        exact Or.inr ⟨hzero.1, Or.inl hbefore⟩
    · rw [h.leftSum_eq_zero hn hlength hw.least.2.1.le hin] at heq
      have hzero := headVanishes_of_leftValue_eq hq hlength hrows hrows' hnonneg rfl heq
      exact Or.inr ⟨hzero.1, Or.inr hzero.2⟩
  · rintro hcond v hv
    refine (rangerestselInner_left_eq_iff hne hc hv.1).mpr ?_
    rcases hcond with hnone | ⟨hbefore, hsum⟩ | ⟨hhead, hsmall⟩
    · exact absurd hv (hnone v)
    · rw [h.leftSum_of_lt hn hbefore, h.leftSum_of_lt hn hbefore, leftValue, leftValue, hsum]
      rfl
    · have hscaled : ∀ {u : ℤ}, FitsInt32 u →
          R.div (leftScaled R length u (qs.map .fin)) (.fin rows) = .fin 0 := fun hu =>
        hhead.scaled_eq_zero hq hlength hrows hu
      rcases lt_or_ge b min1 with hbefore | hin
      · rw [h.leftSum_of_lt hn hbefore, h.leftSum_of_lt hn hbefore, leftValue, leftValue]
        split_ifs
        · rw [hscaled (by decide), hscaled hv.1]
        · rfl
      · have hlt := hsmall.resolve_left hin.not_gt
        rw [h.leftSum_eq_zero hn hlength hv.2.1.le hin, leftValue, leftValue, if_pos hlt,
          hscaled (by decide)]
        exact (hscaled hv.1).symm

end Infinite

theorem RestColumn.restLength_nil_ne {A : CInt} {min1 max1 : ℤ} (h : RestColumn A 0 min1 max1) :
    restLength A 0 min1 max1 ≠ 0 := by
  have hlt := h.lt
  rw [restLength, h.keepsDistance, Nat.cast_zero, Int.tdiv_zero, Int.tmod_zero, if_neg (by omega)]
  decide

end PgRange.Selectivity
