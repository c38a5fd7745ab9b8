import PgRange.Selectivity.Restriction

/-!
# The two operand orders of an overlap clause

`&&` is declared its own commutator, so `column && constant` and `constant && column`
are the same condition. `rangerestsel` answers the second with the default of another
operator before it looks at the constant or at the statistics. No column has statistics
with which the two estimates agree for all constants; for a single one they may, by
coincidence.

## Main results

* `rangerestsel_commute_iff` — the estimates never agree for all constants of a column, and for
  one exactly when its intervals hold a third of the rows
-/

set_option autoImplicit false

namespace PgRange.Selectivity

open Math Stats

/-- The clause `column && constant` if the column is on the left, else
`constant && column`. -/
def overlapClause (securityCheck : Bool) (statsTuple : Option StatsTuple)
    (constrange : RangeType Datum) (varonleft : Bool) : RestrictionClause where
  operator := .overlap
  restrictionVariable := some (.const false true constrange, varonleft)
  securityCheck := securityCheck
  statsTuple := statsTuple

/-- Both operand orders have the same estimate. -/
def Commutes (R : CFloat) (securityCheck : Bool) (stats : Option StatsTuple)
    (c : RangeType Datum) : Prop :=
  rangerestsel .int32 R (overlapClause securityCheck stats c false) =
    rangerestsel .int32 R (overlapClause securityCheck stats c true)

/-- The intervals of a column from the first one that meets `c` to the last one in a row hold
the default fraction of `<<` of the rows, which is a third. -/
def HoldsThird (R : CFloat) (hist : List (RangeType Datum)) (freqs : List FloatQ)
    (c : RangeType Datum) : Prop :=
  ∃ first last, hist.head? = some first ∧ hist.getLast? = some last ∧
    first.flags.empty = false ∧ last.flags.empty = false ∧ freqs ≠ [] ∧
    let min1 := CInt.int32.wrap (rangeDeserialize first).lower.val.toInt
    let max1 := CInt.int32.wrap (rangeDeserialize last).upper.val.toInt
    R.div (overlapSum .int32 R min1 (restLength .int32 freqs.length min1 max1)
        (CInt.int32.wrap (rangeDeserialize c).lower.val.toInt)
        (CInt.int32.wrap (rangeDeserialize c).upper.val.toInt) freqs) (.fin hist.length) =
      .fin (defaultRangeSelectivity .left)

/-! ### The histogram path -/

theorem defaultRangeSelectivity_left_mem :
    0 < defaultRangeSelectivity .left ∧ defaultRangeSelectivity .left < 1 := by
  decide +kernel

/-- A value strictly inside the unit interval survives the clamp, and nothing else is
clamped to it. -/
theorem clampFloat_eq_fin_iff {p : ℚ} (h0 : 0 < p) (h1 : p < 1) (v : FloatQ) :
    clampFloat v = .fin p ↔ v = .fin p := by
  cases v with
  | nan => simp [clampFloat, FloatQ.lt]
  | negInf => simp [clampFloat, FloatQ.lt, h0.ne]
  | posInf => simp [clampFloat, FloatQ.lt, h1.ne']
  | fin q =>
    simp only [clampFloat, FloatQ.fin_lt_fin, decide_eq_true_eq]
    split_ifs with hneg hbig
    · simp only [FloatQ.fin.injEq]
      constructor <;> intro h <;> linarith
    · simp only [FloatQ.fin.injEq]
      constructor <;> intro h <;> linarith
    · rfl

theorem restSpan_eq_ok_iff {A : CInt} {hist : List (RangeType Datum)} {span : ℤ × ℤ} :
    restSpan A hist = .ok span ↔
      ∃ first last, hist.head? = some first ∧ hist.getLast? = some last ∧
        first.flags.empty = false ∧ last.flags.empty = false ∧
        (A.wrap (rangeDeserialize first).lower.val.toInt,
          A.wrap (rangeDeserialize last).upper.val.toInt) = span := by
  unfold restSpan
  cases hist.head? with
  | none => simp
  | some first =>
    cases hist.getLast? with
    | none => simp
    | some last =>
      cases h1 : first.flags.empty <;> cases h2 : last.flags.empty <;> simp [h1, h2]

/-- With both histograms at hand, the estimate is the default of `<<` exactly if the
frequencies say so. -/
theorem rangerestselHist_eq_default_iff (R : CFloat) (c : RangeType Datum)
    (hist : List (RangeType Datum)) (freqs : List FloatQ) :
    rangerestselHist .int32 R .overlap c hist freqs = .ok (.fin (defaultRangeSelectivity .left)) ↔
      HoldsThird R hist freqs c := by
  obtain ⟨h0, h1⟩ := defaultRangeSelectivity_left_mem
  simp only [rangerestselHist, bind_eq_ok_iff, restSpan_eq_ok_iff, pure, Except.pure,
    Except.ok.injEq, clampFloat_eq_fin_iff h0 h1]
  constructor
  · rintro ⟨_, ⟨first, last, hfirst, hlast, hne1, hne2, rfl⟩, _, hrun, rfl⟩
    have hne : freqs ≠ [] := by
      rintro rfl
      cases hrun
    rw [rangerestselInner_eq _ _ _ _ hne] at hrun
    exact ⟨first, last, hfirst, hlast, hne1, hne2, hne, Except.ok.inj hrun⟩
  · rintro ⟨first, last, hfirst, hlast, hne1, hne2, hne, hthird⟩
    refine ⟨_, ⟨first, last, hfirst, hlast, hne1, hne2, rfl⟩, _, ?_, rfl⟩
    rw [rangerestselInner_eq _ _ _ _ hne]
    exact congrArg Except.ok hthird

/-! ### Agreement -/

/-- The clause `constant && column` is always given the default of `<<`. The clause
`column && constant` is given the same value only by the histogram path, and only if
the frequencies that the constant meets add up to it. -/
theorem commutes_iff (R : CFloat) (securityCheck : Bool) (stats : Option StatsTuple)
    (c : RangeType Datum) :
    Commutes R securityCheck stats c ↔
      c.flags.empty = false ∧ securityCheck = true ∧
        ∃ tuple hist freqs, stats = some tuple ∧ tuple.bounds = some hist ∧
          tuple.frequencies = some freqs ∧ HoldsThird R hist freqs c := by
  have hleft : rangerestsel .int32 R (overlapClause securityCheck stats c false) =
      .ok (.fin (defaultRangeSelectivity .left)) := rfl
  have hzero : (0 : ℚ) ≠ defaultRangeSelectivity .left :=
    defaultRangeSelectivity_left_mem.1.ne
  have hfixed : defaultSelec ≠ defaultRangeSelectivity .left := by decide +kernel
  rw [Commutes, hleft, eq_comm]
  -- every earlier return is a constant other than the default of `<<`
  cases hc : c.flags.empty with
  | true => simp [rangerestsel, overlapClause, rangeIsEmpty, hc, hzero]
  | false =>
    cases securityCheck with
    | false => simp [rangerestsel, overlapClause, rangeIsEmpty, hc, hfixed]
    | true =>
      cases stats with
      | none => simp [rangerestsel, overlapClause, rangeIsEmpty, hc, hfixed]
      | some tuple =>
        obtain ⟨fractions, bounds, frequencies⟩ := tuple
        cases bounds with
        | none => simp [rangerestsel, overlapClause, rangeIsEmpty, hc, hfixed]
        | some hist =>
          cases frequencies with
          | none => simp [rangerestsel, overlapClause, rangeIsEmpty, hc, hfixed]
          | some freqs =>
            simp [rangerestsel, overlapClause, rangeIsEmpty, hc, rangerestselHist_eq_default_iff]

/-- Whatever the statistics of a column are, the operand orders do not have the same estimate for
all constants, since an empty one is noticed only on the right. For a single constant they agree
exactly if the intervals that it meets hold a third of the rows. -/
theorem rangerestsel_commute_iff (R : CFloat) (securityCheck : Bool) (stats : Option StatsTuple) :
    ¬ (∀ c, Commutes R securityCheck stats c) ∧
      ∀ c, Commutes R securityCheck stats c ↔
        c.flags.empty = false ∧ securityCheck = true ∧
          ∃ tuple hist freqs, stats = some tuple ∧ tuple.bounds = some hist ∧
            tuple.frequencies = some freqs ∧ HoldsThird R hist freqs c := by
  refine ⟨fun hall => ?_, commutes_iff R securityCheck stats⟩
  have hempty := ((commutes_iff R securityCheck stats emptyRange).mp (hall emptyRange)).1
  cases hempty

/-- The statistics of a column of two rows `[0,10)`: each integer from 0 to 9 is a tenth of
both, in single precision, and the last of the 11 intervals is `[10,11)`. -/
def tensTuple : StatsTuple where
  stanullfrac := 0
  lengthNumbers := some [0]
  bounds := some [int4Stored 0 10, int4Stored 0 10]
  frequencies := some (List.replicate 10 (float4 (1 / 5)) ++ [.fin 0])

/-- Over a column of which no row meets `[20,30)`, `column && '[20,30)'` is estimated at
zero and `'[20,30)' && column` at a third. -/
theorem rangerestsel_commute_disjoint :
    rangerestsel .int32 .float8 (overlapClause true (some tensTuple) (int4Stored 20 30) true) =
        .ok (.fin 0) ∧
      rangerestsel .int32 .float8 (overlapClause true (some tensTuple) (int4Stored 20 30) false) =
        .ok (.fin (6004799503160661 / 18014398509481984)) := by
  decide +kernel

end PgRange.Selectivity
