import PgRange.Math.Loop
import PgRange.Selectivity.HistScalar

/-!
# Estimates of operators from the bounds histogram

What `calc_hist_selectivity` makes of the fractions of lower and of upper bounds.

`<` and `>=` negate each other, and so do `<=` and `>`. The estimates for `<` and `<=` leave
out and count the lower bounds equal to that of the constant, but `>` is computed as the
complement of `<`, and `>=` as that of `<=`. The four estimates fit together only if the
constant has the same fraction of lower bounds before it as up to it.

For `range @> element` the estimate is the difference of two fractions: of the lower bounds
up to the element and of the upper bounds below it. It is never negative, for a range that
ends before the element has also started before it.

## Main results

* `calcHistSelectivity_negators_iff` — when the estimates of negators add up to one
* `calcHistSelectivity_containsElem_mem` — the estimate for an element is a probability
-/

set_option autoImplicit false

namespace PgRange.Selectivity

open Math

/-! ### The histogram at hand -/

section Histogram

variable {α : Type} [Inhabited α]

/-- The lower bounds of a histogram of ranges. -/
def lowerBounds (hist : List (RangeType α)) : List (RangeBound α) :=
  hist.map fun range => (rangeDeserialize range).lower

/-- The upper bounds of a histogram of ranges. -/
def upperBounds (hist : List (RangeType α)) : List (RangeBound α) :=
  hist.map fun range => (rangeDeserialize range).upper

@[simp] theorem length_lowerBounds (hist : List (RangeType α)) :
    (lowerBounds hist).length = hist.length := List.length_map _

@[simp] theorem length_upperBounds (hist : List (RangeType α)) :
    (upperBounds hist).length = hist.length := List.length_map _

/-- The estimates may use a bounds histogram of at least two ranges, none of them empty. -/
structure HasBoundsHistogram (typcache : TypeCacheEntry α) (vardata : HistVariable α)
    (hist : List (RangeType α)) : Prop where
  cmpSecure : vardata.cmpSecure = true
  subdiffSecure : typcache.rngSubdiff.isSome = true → vardata.subdiffSecure = true
  slot : ∃ lengths, vardata.statsTuple = some (some hist, lengths)
  two_le : 2 ≤ hist.length
  nonEmpty : ∀ range ∈ hist, range.flags.empty = false

/-- Then the estimates are those of the `switch`, for operators that need no lengths. -/
theorem HasBoundsHistogram.calcHistSelectivity_eq {typcache : TypeCacheEntry α}
    {vardata : HistVariable α} {hist : List (RangeType α)}
    (h : HasBoundsHistogram typcache vardata hist) {constval : RangeType α}
    (hconst : constval.flags.empty = false) {operator : RangeOp} (hcontains : operator ≠ .contains)
    (hcontained : operator ≠ .contained) :
    calcHistSelectivity typcache vardata constval operator =
      histSwitch typcache (rangeDeserialize constval).lower (rangeDeserialize constval).upper
        (lowerBounds hist) (upperBounds hist) [] operator := by
  obtain ⟨lengths, hslot⟩ := h.slot
  have hsecure : (typcache.rngSubdiff.isSome && !vardata.subdiffSecure) = false := by
    cases hsome : typcache.rngSubdiff.isSome with
    | false => rfl
    | true => rw [h.subdiffSecure hsome]; rfl
  have hparts : hist.mapM histBounds = .ok (hist.map rangeDeserialize) :=
    mapM_eq_ok fun range hrange => by
      rw [histBounds, rangeDeserialize_empty, h.nonEmpty range hrange]
      rfl
  rw [calcHistSelectivity, h.cmpSecure, hsecure, hslot]
  simp only [Bool.not_true, Bool.false_eq_true, ↓reduceIte, not_lt.mpr h.two_le, hparts, bind,
    Except.bind, hcontains, hcontained, or_self, histEstimate, rangeDeserialize_empty, hconst,
    List.map_map]
  rfl

end Histogram

/-! ### Operators that negate each other -/

section Negators

variable {α : Type} {typcache : TypeCacheEntry α} {value hist1 hist2 : RangeBound α}

/-- The value is taken to lie at the end of the bin: the bin starts at infinity, or the
difference of the subtype says so. -/
def AtBinEnd (typcache : TypeCacheEntry α) (value hist1 hist2 : RangeBound α) : Prop :=
  hist1.infinite = true ∨ ∃ subdiff, typcache.rngSubdiff = some subdiff ∧
    0 < subdiff hist2.val hist1.val ∧ subdiff hist2.val hist1.val ≤ subdiff value.val hist1.val

/-- The value is taken to lie at the start of the bin. -/
def AtBinStart (typcache : TypeCacheEntry α) (value hist1 hist2 : RangeBound α) : Prop :=
  hist1.infinite = true ∨ ∃ subdiff, typcache.rngSubdiff = some subdiff ∧
    0 < subdiff hist2.val hist1.val ∧ subdiff value.val hist1.val ≤ 0

/-- Behind another lower bound there is only a finite one. -/
theorem finite_of_lt_lower (hlow1 : hist1.lower = true) (hlow2 : hist2.lower = true)
    (h : rangeCmpBounds typcache.cmp hist1 hist2 = .lt) : hist2.infinite = false := by
  by_contra hinf
  cases hinf1 : hist1.infinite <;> simp_all [rangeCmpBounds]

theorem infinite_eq_of_eq (h : rangeCmpBounds typcache.cmp hist1 hist2 = .eq) :
    hist1.infinite = hist2.infinite := by
  cases hinf1 : hist1.infinite <;> cases hinf2 : hist2.infinite
  · rfl
  · simp only [rangeCmpBounds, hinf1, hinf2, Bool.false_and, Bool.false_eq_true, ↓reduceIte] at h
    split_ifs at h
  · simp only [rangeCmpBounds, hinf1, hinf2, Bool.and_false, Bool.false_eq_true, ↓reduceIte] at h
    split_ifs at h
  · rfl

/-- The value of a bin at its end. -/
theorem binPosition_eq_one_iff (hfin : hist2.infinite = false) (hvalue : value.infinite = false) :
    binPosition typcache value hist1 hist2 = 1 ↔ AtBinEnd typcache value hist1 hist2 := by
  unfold binPosition AtBinEnd
  cases hist1.infinite with
  | true => simp [hfin, hvalue]
  | false =>
    simp only [hfin, hvalue, Bool.not_false, Bool.and_self, ↓reduceIte, Bool.false_eq_true,
      false_or]
    cases typcache.rngSubdiff with
    | none => exact iff_of_false (by norm_num) (by rintro ⟨subdiff, hsome, -⟩; cases hsome)
    | some subdiff =>
      simp only [Option.some.injEq, exists_eq_left']
      split_ifs with hwidth
      · exact iff_of_false (by norm_num) fun h => absurd h.1 (not_lt.mpr hwidth)
      · have hpos := not_le.mp hwidth
        rw [min_eq_right_iff, le_max_iff, or_iff_left (by norm_num), one_le_div hpos]
        exact (and_iff_right hpos).symm

/-- The value of a bin at its start. -/
theorem binPosition_eq_zero_iff (hfin : hist2.infinite = false)
    (hvalue : value.infinite = hist1.infinite) (hlow : value.lower = true) :
    binPosition typcache value hist1 hist2 = 0 ↔ AtBinStart typcache value hist1 hist2 := by
  unfold binPosition AtBinStart
  rw [hvalue]
  cases hist1.infinite with
  | true => simp [hfin, hlow]
  | false =>
    simp only [hfin, Bool.not_false, Bool.and_self, ↓reduceIte, Bool.false_eq_true, false_or]
    cases typcache.rngSubdiff with
    | none => exact iff_of_false (by norm_num) (by rintro ⟨subdiff, hsome, -⟩; cases hsome)
    | some subdiff =>
      simp only [Option.some.injEq, exists_eq_left']
      split_ifs with hwidth
      · exact iff_of_false (by norm_num) fun h => absurd h.1 (not_lt.mpr hwidth)
      · have hpos := not_le.mp hwidth
        constructor
        · intro hzero
          refine ⟨hpos, ?_⟩
          by_contra hlt
          have hquot := div_pos (not_le.mp hlt) hpos
          exact (lt_min (lt_max_of_lt_left hquot) one_pos).ne' hzero
        · rintro ⟨-, hle⟩
          rw [max_eq_right (div_nonpos_of_nonpos_of_nonneg hle hpos.le), min_eq_left zero_le_one]

variable [Inhabited α] {hist : List (RangeBound α)}

/-- At most one bound of the histogram equals the value, and the value is at the adjoining
ends of the bins beside that one. -/
def OneAtEnds (typcache : TypeCacheEntry α) (value : RangeBound α) (hist : List (RangeBound α)) :
    Prop :=
  (∀ k < hist.length, rangeCmpBounds typcache.cmp (hist.getD k default) value ≠ .eq) ∨
  ∃ i < hist.length,
    (∀ k < hist.length, rangeCmpBounds typcache.cmp (hist.getD k default) value = .eq ↔ k = i) ∧
    (i = 0 ∨ AtBinEnd typcache value (hist.getD (i - 1) default) (hist.getD i default)) ∧
    (i = hist.length - 1 ∨
      AtBinStart typcache value (hist.getD i default) (hist.getD (i + 1) default))

variable [Std.TransCmp typcache.cmp]

theorem lower_getD {k : ℕ} (hlow : ∀ b ∈ hist, b.lower = true) (hk : k < hist.length) :
    (hist.getD k default).lower = true := by
  rw [List.getD_eq_getElem _ _ hk]
  exact hlow _ (List.getElem_mem hk)

/-- If one bound equals the value, the value is found in the bin before it and, with the
equal ones counted, in the bin behind it. -/
theorem histPosition_end_iff (hsorted : HistSorted typcache.cmp hist)
    (hlow : ∀ b ∈ hist, b.lower = true) (hvalue : value.lower = true) {i : ℕ} (hpos : 0 < i)
    (hi : i < hist.length) (hfalse : rboundBsearch typcache value hist false = i - 1)
    (heq : rangeCmpBounds typcache.cmp (hist.getD i default) value = .eq) :
    histPosition typcache value hist false = 1 ↔
      AtBinEnd typcache value (hist.getD (i - 1) default) (hist.getD i default) := by
  have hlt : rangeCmpBounds typcache.cmp (hist.getD (i - 1) default) value = .lt :=
    (hsorted.le_false_iff value (by omega)).mp (by omega)
  have hfin := finite_of_lt_lower (lower_getD hlow (by omega)) hvalue hlt
  have hindex : (i - 1 : ℤ).toNat = i - 1 := by omega
  rw [histPosition, hfalse, hindex, Nat.sub_add_cancel hpos,
    binPosition_eq_one_iff ((infinite_eq_of_eq heq).trans hfin) hfin]

@[inherit_doc histPosition_end_iff]
theorem histPosition_start_iff (hsorted : HistSorted typcache.cmp hist)
    (hlow : ∀ b ∈ hist, b.lower = true) (hvalue : value.lower = true) {i : ℕ}
    (hi : i < hist.length - 1) (htrue : rboundBsearch typcache value hist true = i)
    (heq : rangeCmpBounds typcache.cmp (hist.getD i default) value = .eq) :
    histPosition typcache value hist true = 0 ↔
      AtBinStart typcache value (hist.getD i default) (hist.getD (i + 1) default) := by
  have hlt : rangeCmpBounds typcache.cmp value (hist.getD (i + 1) default) = .lt := by
    rw [lt_iff_not_isLE, ← hsorted.le_true_iff value (by omega)]
    omega
  have hfin := finite_of_lt_lower hvalue (lower_getD hlow (by omega)) hlt
  rw [histPosition, htrue, Int.toNat_natCast,
    binPosition_eq_zero_iff hfin (infinite_eq_of_eq heq).symm hvalue]

/-- The constant has the same fraction before it as up to it. -/
theorem histFraction_eq_iff (hlen : 2 ≤ hist.length) (hsorted : HistSorted typcache.cmp hist)
    (hlow : ∀ b ∈ hist, b.lower = true) (hvalue : value.lower = true) :
    histFraction typcache value hist false = histFraction typcache value hist true ↔
      OneAtEnds typcache value hist := by
  obtain ⟨hlo, -⟩ := hsorted.rboundBsearch_mem value false
  obtain ⟨-, hhi⟩ := hsorted.rboundBsearch_mem value true
  have heq : ∀ k < hist.length, _ := fun k hk => hsorted.eq_iff value hk
  rcases (hsorted.rboundBsearch_le value).eq_or_lt with hsame | hlt
  · -- no bound equals the value
    refine iff_of_true ?_ (Or.inl fun k hk hk' => ?_)
    · unfold histFraction histPosition
      rw [hsame]
    · have := (heq k hk).mp hk'
      omega
  obtain ⟨i, hi⟩ : ∃ i : ℕ, (i : ℤ) = rboundBsearch typcache value hist true :=
    ⟨_, Int.toNat_of_nonneg (by omega)⟩
  have hi' : i < hist.length := by omega
  have heqi := (heq i hi').mpr ⟨by omega, hi.le⟩
  rw [histFraction, histFraction, binFraction_eq_iff_of_lt hlen hlo hlt hhi
    (histPosition_mem _ _ value false).2 (histPosition_mem _ _ value true).1]
  -- the search without equal ones stops at `i - 1` if only bound `i` equals the value
  have hends (hfalse : rboundBsearch typcache value hist false = i - 1) :
      (i = 0 ∨ histPosition typcache value hist false = 1 ↔
        i = 0 ∨ AtBinEnd typcache value (hist.getD (i - 1) default) (hist.getD i default)) :=
    or_congr_right' fun hpos =>
      histPosition_end_iff hsorted hlow hvalue (Nat.pos_of_ne_zero hpos) hi' hfalse heqi
  have hstarts : (i = hist.length - 1 ∨ histPosition typcache value hist true = 0 ↔
      i = hist.length - 1 ∨
        AtBinStart typcache value (hist.getD i default) (hist.getD (i + 1) default)) :=
    or_congr_right' fun hne =>
      histPosition_start_iff hsorted hlow hvalue (by omega) hi.symm heqi
  constructor
  · rintro ⟨hsucc, hend, hstart⟩
    refine Or.inr ⟨i, hi', fun k hk => ?_, ?_, ?_⟩
    · rw [heq k hk]
      omega
    · exact (hends (by omega)).mp (hend.imp_left fun _ => by omega)
    · exact hstarts.mp (hstart.imp_left fun _ => by omega)
  · rintro (hnone | ⟨j, hj, hsingle, hend, hstart⟩)
    · exact absurd heqi (hnone i hi')
    obtain rfl : i = j := (hsingle i hi').mp heqi
    have hfalse : rboundBsearch typcache value hist false = i - 1 := by
      have hnext := (hsingle (rboundBsearch typcache value hist false + 1).toNat
        (by omega)).mp ((heq _ (by omega)).mpr ⟨by omega, by omega⟩)
      omega
    refine ⟨by omega, ?_, ?_⟩
    · exact ((hends hfalse).mpr hend).imp_left fun _ => by omega
    · exact (hstarts.mpr hstart).imp_left fun _ => by omega

/-- The estimates of operators that negate each other add up to one, and `>` is estimated
no higher than `>=`. -/
def NegatorsComplementary (typcache : TypeCacheEntry α) (vardata : HistVariable α)
    (constval : RangeType α) : Prop :=
  ∃ lt le gt ge : ℚ,
    calcHistSelectivity typcache vardata constval .less = .ok (.fin lt) ∧
    calcHistSelectivity typcache vardata constval .lessEqual = .ok (.fin le) ∧
    calcHistSelectivity typcache vardata constval .greater = .ok (.fin gt) ∧
    calcHistSelectivity typcache vardata constval .greaterEqual = .ok (.fin ge) ∧
    lt + ge = 1 ∧ le + gt = 1 ∧ gt ≤ ge

/-- That is so if and only if at most one lower bound of the histogram equals that of the
constant, which the difference of the subtype must then place at the ends of the bins beside
it. -/
theorem calcHistSelectivity_negators_iff {vardata : HistVariable α} {hist : List (RangeType α)}
    (h : HasBoundsHistogram typcache vardata hist)
    (hsorted : HistSorted typcache.cmp (lowerBounds hist)) {constval : RangeType α}
    (hconst : constval.flags.empty = false) :
    NegatorsComplementary typcache vardata constval ↔
      OneAtEnds typcache (rangeDeserialize constval).lower (lowerBounds hist) := by
  have hlen : 2 ≤ (lowerBounds hist).length := by
    rw [length_lowerBounds]
    exact h.two_le
  have hlow : ∀ b ∈ lowerBounds hist, b.lower = true := by
    intro b hb
    obtain ⟨range, -, rfl⟩ := List.mem_map.mp hb
    rfl
  rw [← histFraction_eq_iff hlen hsorted hlow rfl, NegatorsComplementary,
    h.calcHistSelectivity_eq hconst (by decide) (by decide),
    h.calcHistSelectivity_eq hconst (by decide) (by decide),
    h.calcHistSelectivity_eq hconst (by decide) (by decide),
    h.calcHistSelectivity_eq hconst (by decide) (by decide)]
  simp only [histSwitch, calcHistSelectivityScalar_eq hlen, bind, Except.bind, pure, Except.pure,
    FloatQ.fin_sub_fin, Except.ok.injEq, FloatQ.fin.injEq, exists_and_left, exists_eq_left']
  constructor
  · rintro ⟨hsum, -⟩
    linarith
  · intro hfrac
    rw [hfrac]
    exact ⟨by ring, by ring, le_rfl⟩

end Negators

/-- A column with this bounds histogram and no length histogram. -/
def boundsOnly (hist : List (RangeType ℤ)) : HistVariable ℤ := ⟨true, true, some (some hist, none)⟩

/-- The lower bounds of `[0,5)` and `[10,20)` are apart, and the constant `[10,12)` equals one
of them. -/
theorem calcHistSelectivity_negators_iff_apart :
    NegatorsComplementary int4range
      (boundsOnly [⟨{ lbInc := true }, 0, 5⟩, ⟨{ lbInc := true }, 10, 20⟩])
      ⟨{ lbInc := true }, 10, 12⟩ :=
  haveI := intSubtype_int4range.transCmp
  (calcHistSelectivity_negators_iff ⟨rfl, fun _ => rfl, ⟨none, rfl⟩, by decide, by decide⟩
    (by decide +kernel) rfl).mpr
    (Or.inr ⟨1, by decide, by decide +kernel, Or.inr (Or.inr ⟨_, rfl, by decide +kernel⟩),
      Or.inl rfl⟩)

/-- Two ranges start where the constant does. None is estimated to be less, and none to be
at least it. -/
theorem calcHistSelectivity_equal_lowers :
    calcHistSelectivity int4range
        (boundsOnly [⟨{ lbInc := true }, 1, 10⟩, ⟨{ lbInc := true }, 1, 20⟩])
        ⟨{ lbInc := true }, 1, 5⟩ .less = .ok (.fin 0) ∧
      calcHistSelectivity int4range
        (boundsOnly [⟨{ lbInc := true }, 1, 10⟩, ⟨{ lbInc := true }, 1, 20⟩])
        ⟨{ lbInc := true }, 1, 5⟩ .greaterEqual = .ok (.fin 0) := by
  decide +kernel

/-! ### Elements -/

/-- The constant that `rangesel` makes of an element: the range that contains nothing else. -/
def elementRange {α : Type} [Inhabited α] (typcache : TypeCacheEntry α) (constvalue : α) :
    Except Fault (RangeType α) :=
  rangeSerialize typcache.cmp ⟨constvalue, false, true, true⟩ ⟨constvalue, false, true, false⟩ false

section Elements

variable {typcache : TypeCacheEntry ℤ} (h : IntSubtype typcache) {r : RangeType ℤ}

include h

theorem IntSubtype.elementRange_eq (e : ℤ) :
    elementRange typcache e = .ok ⟨{ lbInc := true, ubInc := true }, e, e⟩ := by
  have heq : compareInt e e = .eq := compareInt_eq_iff.mpr rfl
  simp [elementRange, rangeSerialize, rangeCmpBoundValues, h.cmp_eq, btintcmp, heq, packRange]

/-- A canonical lower bound is at or below an element if it is infinite or its value is. -/
theorem IntSubtype.lower_isLE_iff (hr : typcache.IsValue r) (hne : r.flags.empty = false) (e : ℤ) :
    (rangeCmpBounds typcache.cmp (rangeDeserialize r).lower ⟨e, false, true, false⟩).isLE ↔
      r.flags.lbInf = true ∨ (rangeDeserialize r).lower.val ≤ e := by
  have hinc := (hr.canonical h.canonical hne).1
  rw [rangeCmpBounds_eq_cut, h.cmp_eq]
  cases hinf : r.flags.lbInf with
  | true => simp [RangeBound.cut, hinf]
  | false =>
    simp only [RangeBound.cut, rangeDeserialize_lower_infinite, hinf, Bool.false_eq_true,
      ↓reduceIte, rangeDeserialize_lower_inclusive, hinc hinf, Cut.compareBy_point_point,
      Ordering.isLE_then_iff_or, compareInt_lt_iff, compareInt_eq_iff, false_or]
    simp [compareInt, le_iff_lt_or_eq]

/-- A canonical upper bound is below an element if it is finite and its value is at most the
element. -/
theorem IntSubtype.upper_lt_iff (hr : typcache.IsValue r) (hne : r.flags.empty = false) (e : ℤ) :
    rangeCmpBounds typcache.cmp (rangeDeserialize r).upper ⟨e, false, true, true⟩ = .lt ↔
      r.flags.ubInf = false ∧ (rangeDeserialize r).upper.val ≤ e := by
  have hexc := (hr.canonical h.canonical hne).2
  rw [rangeCmpBounds_eq_cut, h.cmp_eq]
  cases hinf : r.flags.ubInf with
  | true => simp [RangeBound.cut, hinf]
  | false =>
    simp only [RangeBound.cut, rangeDeserialize_upper_infinite, hinf, Bool.false_eq_true,
      ↓reduceIte, rangeDeserialize_upper_inclusive, hexc hinf, rangeDeserialize_upper_lower,
      Cut.compareBy_point_point, Ordering.then_eq_lt, compareInt_lt_iff, compareInt_eq_iff,
      true_and]
    simp [le_iff_lt_or_eq]

/-- The bounds of a range are apart. -/
theorem IntSubtype.lower_lt_upper (hr : typcache.IsValue r) (hne : r.flags.empty = false)
    (hlow : r.flags.lbInf = false) (hupp : r.flags.ubInf = false) :
    (rangeDeserialize r).lower.val < (rangeDeserialize r).upper.val := by
  have hcanon := hr.canonical h.canonical hne
  have hle := hr.ordered hne
  rw [rangeCmpBounds_eq_cut, h.cmp_eq] at hle
  simp only [RangeBound.cut, rangeDeserialize_lower_infinite, rangeDeserialize_upper_infinite, hlow,
    hupp, Bool.false_eq_true, ↓reduceIte, rangeDeserialize_lower_inclusive,
    rangeDeserialize_upper_inclusive, hcanon.1 hlow, hcanon.2 hupp, rangeDeserialize_upper_lower,
    Cut.compareBy_point_point, Ordering.isLE_then_iff_or, compareInt_lt_iff,
    compareInt_eq_iff] at hle
  rcases hle with hlt | ⟨-, hoff⟩
  · exact hlt
  · simp [compareInt] at hoff

omit h in
/-- An element has come further from the start of the one bin than from the start of the
other, if that starts and ends later. -/
theorem interpolation_le {l l' u u' e : ℚ} (hlu : l ≤ u) (hue : u ≤ e) (hel' : e < l')
    (hlu' : l' ≤ u') : (e - u) / (u' - u) ≤ (e - l) / (l' - l) := by
  have hu : 0 < u' - u := by linarith
  have hl : 0 < l' - l := by linarith
  rw [div_le_div_iff₀ hu hl]
  calc (e - u) * (l' - l)
      ≤ (e - u) * (l' - l) + (u - l) * (l' - e) :=
        le_add_of_nonneg_right (mul_nonneg (sub_nonneg.mpr hlu) (sub_nonneg.mpr hel'.le))
    _ = (e - l) * (l' - u) := by ring
    _ ≤ (e - l) * (u' - u) :=
        mul_le_mul_of_nonneg_left (by linarith) (by linarith)

/-- Where an element lies between the upper bounds of two ranges and before the lower bound of
the second one, its position among the lower bounds is further on. -/
theorem IntSubtype.binPosition_le {r r' : RangeType ℤ} (hr : typcache.IsValue r)
    (hr' : typcache.IsValue r') (hne : r.flags.empty = false) (hne' : r'.flags.empty = false)
    {e : ℤ} (hupper : r.flags.ubInf = false ∧ (rangeDeserialize r).upper.val ≤ e)
    (hlower : r'.flags.lbInf = false ∧ e < (rangeDeserialize r').lower.val) :
    binPosition typcache ⟨e, false, true, true⟩ (rangeDeserialize r).upper
        (rangeDeserialize r').upper ≤
      binPosition typcache ⟨e, false, true, false⟩ (rangeDeserialize r).lower
        (rangeDeserialize r').lower := by
  cases hlow : r.flags.lbInf with
  | true =>
    have hone : binPosition typcache ⟨e, false, true, false⟩ (rangeDeserialize r).lower
        (rangeDeserialize r').lower = 1 := by simp [binPosition, hlow, hlower.1]
    rw [hone]
    exact (binPosition_mem typcache _ _ _).2
  | false =>
  cases hupp : r'.flags.ubInf with
  | true =>
    have hzero : binPosition typcache ⟨e, false, true, true⟩ (rangeDeserialize r).upper
        (rangeDeserialize r').upper = 0 := by simp [binPosition, hupp, hupper.1]
    rw [hzero]
    exact (binPosition_mem typcache _ _ _).1
  | false =>
    -- all four bounds are finite
    have hapart := h.lower_lt_upper hr hne hlow hupper.1
    have hapart' := h.lower_lt_upper hr' hne' hlower.1 hupp
    simp only [binPosition, rangeDeserialize_upper_infinite, rangeDeserialize_lower_infinite,
      hupper.1, hupp, hlow, hlower.1, Bool.not_false, Bool.and_self, ↓reduceIte, Bool.false_eq_true,
      h.subdiff_eq]
    generalize (rangeDeserialize r).lower.val = l at *
    generalize (rangeDeserialize r).upper.val = u at *
    generalize (rangeDeserialize r').lower.val = l' at *
    generalize (rangeDeserialize r').upper.val = u' at *
    have hu : ¬ (u' : ℚ) - u ≤ 0 := by
      rw [not_le, sub_pos, Int.cast_lt]
      omega
    have hl : ¬ (l' : ℚ) - l ≤ 0 := by
      rw [not_le, sub_pos, Int.cast_lt]
      omega
    rw [if_neg hu, if_neg hl]
    refine min_le_min_right 1 (max_le_max_right 0 (interpolation_le ?_ ?_ ?_ ?_))
    · exact Int.cast_le.mpr hapart.le
    · exact Int.cast_le.mpr hupper.2
    · exact Int.cast_lt.mpr hlower.2
    · exact Int.cast_le.mpr hapart'.le

omit h in
theorem exists_range {α : Type} [Inhabited α] (hist : List (RangeType α)) {k : ℕ}
    (hk : k < hist.length) :
    ∃ range ∈ hist, (lowerBounds hist).getD k default = (rangeDeserialize range).lower ∧
      (upperBounds hist).getD k default = (rangeDeserialize range).upper := by
  refine ⟨hist[k], List.getElem_mem hk, ?_, ?_⟩
  · rw [List.getD_eq_getElem _ _ (by simpa using hk)]
    exact List.getElem_map _
  · rw [List.getD_eq_getElem _ _ (by simpa using hk)]
    exact List.getElem_map _

section Histogram

variable {hist : List (RangeType ℤ)} (hvalues : ∀ range ∈ hist, typcache.IsValue range)
  (hne : ∀ range ∈ hist, range.flags.empty = false)
  (hlowers : HistSorted typcache.cmp (lowerBounds hist))
  (huppers : HistSorted typcache.cmp (upperBounds hist))

include hvalues hne hlowers huppers

/-- As many lower bounds are up to an element as upper bounds are below it, or more. -/
theorem IntSubtype.rboundBsearch_upper_le_lower (e : ℤ) :
    rboundBsearch typcache ⟨e, false, true, true⟩ (upperBounds hist) false ≤
      rboundBsearch typcache ⟨e, false, true, false⟩ (lowerBounds hist) true := by
  have := h.transCmp
  unfold rboundBsearch
  have hdownU := huppers.passesDown ⟨e, false, true, true⟩ false
  have hdownL := hlowers.passesDown ⟨e, false, true, false⟩ true
  rw [length_upperBounds] at hdownU ⊢
  rw [length_lowerBounds] at hdownL ⊢
  refine bsearchLast_mono hdownU hdownL fun k hk hpass => ?_
  obtain ⟨range, hmem, hl, hu⟩ := exists_range hist hk
  rw [rboundTest_false_iff, hu, h.upper_lt_iff (hvalues _ hmem) (hne _ hmem)] at hpass
  rw [rboundTest_true_iff, hl, h.lower_isLE_iff (hvalues _ hmem) (hne _ hmem)]
  -- a range that ends before the element has started before it
  refine or_iff_not_imp_left.mpr fun hfin => ?_
  exact (h.lower_lt_upper (hvalues _ hmem) (hne _ hmem) (by simpa using hfin) hpass.1).le.trans
    hpass.2

/-- At every element, the fraction of upper bounds below it is at most that of lower bounds up
to it. -/
theorem IntSubtype.histFraction_upper_le_lower (hlen : 2 ≤ hist.length) (e : ℤ) :
    histFraction typcache ⟨e, false, true, true⟩ (upperBounds hist) false ≤
      histFraction typcache ⟨e, false, true, false⟩ (lowerBounds hist) true := by
  have := h.transCmp
  have hsearch := h.rboundBsearch_upper_le_lower hvalues hne hlowers huppers e
  obtain ⟨hlo, -⟩ := huppers.rboundBsearch_mem ⟨e, false, true, true⟩ false
  obtain ⟨-, hhi⟩ := hlowers.rboundBsearch_mem ⟨e, false, true, false⟩ true
  rw [length_lowerBounds] at hhi
  rw [histFraction, histFraction, length_upperBounds, length_lowerBounds]
  refine binFraction_mono hlen hlo hsearch hhi (histPosition_mem _ _ _ _).2
    (histPosition_mem _ _ _ _).1 fun heq hnonneg hlt => ?_
  obtain ⟨i, hi⟩ := Int.eq_ofNat_of_zero_le hnonneg
  obtain ⟨r, hmem, hl, hu⟩ := exists_range hist (k := i) (by omega)
  obtain ⟨r', hmem', hl', hu'⟩ := exists_range hist (k := i + 1) (by omega)
  rw [histPosition, histPosition, ← heq, hi, Int.toNat_natCast, hl, hu, hl', hu']
  refine h.binPosition_le (hvalues _ hmem) (hvalues _ hmem') (hne _ hmem) (hne _ hmem') ?_ ?_
  · rw [← h.upper_lt_iff (hvalues _ hmem) (hne _ hmem), ← hu,
      ← huppers.le_false_iff _ (by simp; omega)]
    exact hi.ge
  · have hnot := (hlowers.le_true_iff ⟨e, false, true, false⟩ (k := i + 1) (by simp; omega)).not.mp
      (by omega)
    rw [hl', h.lower_isLE_iff (hvalues _ hmem') (hne _ hmem'), not_or, Bool.not_eq_true,
      not_le] at hnot
    exact hnot

end Histogram

/-- The estimate for `range @> element` is the fraction of lower bounds up to the element
minus that of upper bounds below it. The one is never below the other, so that the estimate
is a probability. -/
theorem calcHistSelectivity_containsElem_mem {vardata : HistVariable ℤ}
    {hist : List (RangeType ℤ)} (hvar : HasBoundsHistogram typcache vardata hist)
    (hvalues : ∀ range ∈ hist, typcache.IsValue range)
    (hlowers : HistSorted typcache.cmp (lowerBounds hist))
    (huppers : HistSorted typcache.cmp (upperBounds hist)) (e : ℤ) :
    ∃ constrange below upto s,
      elementRange typcache e = .ok constrange ∧
      calcHistSelectivityScalar typcache (rangeDeserialize constrange).lower (upperBounds hist)
        false = .ok (.fin below) ∧
      calcHistSelectivityScalar typcache (rangeDeserialize constrange).upper (lowerBounds hist)
        true = .ok (.fin upto) ∧
      calcHistSelectivity typcache vardata constrange .containsElem = .ok (.fin s) ∧
      s = 1 - (below + (1 - upto)) ∧ below ≤ upto ∧ 0 ≤ s ∧ s ≤ 1 := by
  have := h.transCmp
  have hlen := hvar.two_le
  have hlenL : 2 ≤ (lowerBounds hist).length := by simpa using hlen
  have hlenU : 2 ≤ (upperBounds hist).length := by simpa using hlen
  refine ⟨_, _, _, _, h.elementRange_eq e, calcHistSelectivityScalar_eq hlenU _ _,
    calcHistSelectivityScalar_eq hlenL _ _, ?_, rfl, ?_⟩
  · rw [hvar.calcHistSelectivity_eq rfl (by decide) (by decide), histSwitch,
      calcHistSelectivityScalar_eq hlenU, calcHistSelectivityScalar_eq hlenL]
    rfl
  · have hdom := h.histFraction_upper_le_lower hvalues hvar.nonEmpty hlowers huppers hlen e
    have hbelow := (histFraction_mem hlenU huppers ⟨e, false, true, true⟩ false).1
    have hupto := (histFraction_mem hlenL hlowers ⟨e, false, true, false⟩ true).2
    refine ⟨hdom, ?_, ?_⟩
    · change 0 ≤ 1 - (histFraction typcache ⟨e, false, true, true⟩ (upperBounds hist) false +
        (1 - histFraction typcache ⟨e, false, true, false⟩ (lowerBounds hist) true))
      linarith
    · change 1 - (histFraction typcache ⟨e, false, true, true⟩ (upperBounds hist) false +
        (1 - histFraction typcache ⟨e, false, true, false⟩ (lowerBounds hist) true)) ≤ 1
      linarith

end Elements

/-- Among `[0,5)` and `[3,20)`, the ranges that contain `4`. -/
theorem calcHistSelectivity_containsElem_mem_four :
    ∃ constrange below upto s,
      elementRange int4range 4 = .ok constrange ∧
      calcHistSelectivityScalar int4range (rangeDeserialize constrange).lower
        (upperBounds [⟨{ lbInc := true }, 0, 5⟩, ⟨{ lbInc := true }, 3, 20⟩]) false =
          .ok (.fin below) ∧
      calcHistSelectivityScalar int4range (rangeDeserialize constrange).upper
        (lowerBounds [⟨{ lbInc := true }, 0, 5⟩, ⟨{ lbInc := true }, 3, 20⟩]) true =
          .ok (.fin upto) ∧
      calcHistSelectivity int4range
        (boundsOnly [⟨{ lbInc := true }, 0, 5⟩, ⟨{ lbInc := true }, 3, 20⟩]) constrange
        .containsElem = .ok (.fin s) ∧
      s = 1 - (below + (1 - upto)) ∧ below ≤ upto ∧ 0 ≤ s ∧ s ≤ 1 :=
  calcHistSelectivity_containsElem_mem intSubtype_int4range
    ⟨rfl, fun _ => rfl, ⟨none, rfl⟩, by decide, by decide⟩
    (List.forall_mem_cons.mpr ⟨int4range_isValue (by decide),
      List.forall_mem_singleton.mpr (int4range_isValue (by decide))⟩)
    (by decide +kernel) (by decide +kernel) 4

end PgRange.Selectivity
