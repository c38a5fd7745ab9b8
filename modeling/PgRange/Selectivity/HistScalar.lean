import PgRange.Math.EquiDepth
import PgRange.Selectivity.HistSelectivity
import Mathlib.Data.List.GetD

/-!
# The fraction of bounds up to a constant

`calc_hist_selectivity_scalar` looks a bound up in a sorted histogram and interpolates
within the bin where it lies.

## Main results

* `calcHistSelectivityScalar_cdf` — the result is a distribution function of the bound
-/

set_option autoImplicit false

namespace PgRange.Selectivity

open Math

theorem divide_eq {x y : FloatQ} (hy : y ≠ .fin 0) : divide x y = .ok (x / y) := if_neg hy

theorem divide_fin {p q : ℚ} (hq : q ≠ 0) : divide (.fin p) (.fin q) = .ok (.fin (p / q)) := by
  rw [divide_eq fun h => hq (FloatQ.fin.inj h), FloatQ.fin_div_fin hq]

section Position

variable {α : Type} (typcache : TypeCacheEntry α)

/-- The position of a value in a bin. -/
def binPosition (value hist1 hist2 : RangeBound α) : ℚ :=
  if !hist1.infinite && !hist2.infinite then
    if value.infinite then 1 / 2
    else
      match typcache.rngSubdiff with
      | none => 1 / 2
      | some subdiff =>
        if subdiff hist2.val hist1.val ≤ 0 then 1 / 2
        else min (max (subdiff value.val hist1.val / subdiff hist2.val hist1.val) 0) 1
  else if hist1.infinite && !hist2.infinite then
    if value.infinite && value.lower then 0 else 1
  else if !hist1.infinite && hist2.infinite then
    if value.infinite && !value.lower then 1 else 0
  else 1 / 2

theorem getPosition_eq (value hist1 hist2 : RangeBound α) :
    getPosition typcache value hist1 hist2 =
      .ok (.fin (binPosition typcache value hist1 hist2)) := by
  unfold getPosition binPosition
  split_ifs
  · rfl
  · cases typcache.rngSubdiff with
    | none => rfl
    | some subdiff =>
      dsimp only
      by_cases hwidth : subdiff hist2.val hist1.val ≤ 0
      · simp [hwidth]
        rfl
      · rw [if_neg (by simpa using hwidth), if_neg hwidth, divide_fin (not_le.mp hwidth).ne']
        change Except.ok _ = _
        simp
  all_goals rfl

theorem binPosition_mem (value hist1 hist2 : RangeBound α) :
    0 ≤ binPosition typcache value hist1 hist2 ∧ binPosition typcache value hist1 hist2 ≤ 1 := by
  unfold binPosition
  split_ifs
  · norm_num
  · cases typcache.rngSubdiff with
    | none => norm_num
    | some subdiff =>
      dsimp only
      split_ifs
      · norm_num
      · exact ⟨le_min (le_max_right _ _) zero_le_one, min_le_right _ _⟩
  all_goals norm_num

variable {typcache} {value value' hist1 hist2 : RangeBound α}

/-- What lies between two finite bounds is finite. -/
theorem finite_of_between (h1 : hist1.infinite = false) (h2 : hist2.infinite = false)
    (hle : (rangeCmpBounds typcache.cmp hist1 value).isLE)
    (hle' : (rangeCmpBounds typcache.cmp value hist2).isLE) : value.infinite = false := by
  by_contra hinf
  rw [Bool.not_eq_false] at hinf
  cases hside : value.lower with
  | true => exact absurd (infinite_of_isLE_lower hside hinf hle) (by rw [h1]; decide)
  | false => exact absurd (infinite_of_isLE_upper hside hinf hle') (by rw [h2]; decide)

/-- Nothing but an infinite upper bound lies at or above one. -/
theorem top_of_top_isLE {cmp : α → α → Ordering} (hv : value.infinite = true ∧ value.lower = false)
    (h : (rangeCmpBounds cmp value value').isLE) :
    value'.infinite = true ∧ value'.lower = false := by
  have hinf := infinite_of_isLE_upper hv.2 hv.1 h
  refine ⟨hinf, ?_⟩
  by_contra hlow
  simp [rangeCmpBounds, hv, hinf, hlow] at h

/-- Nothing but an infinite lower bound lies at or below one. -/
theorem bot_of_isLE_bot {cmp : α → α → Ordering} (hv : value'.infinite = true ∧ value'.lower = true)
    (h : (rangeCmpBounds cmp value value').isLE) : value.infinite = true ∧ value.lower = true := by
  have hinf := infinite_of_isLE_lower hv.2 hv.1 h
  refine ⟨hinf, ?_⟩
  by_contra hlow
  simp [rangeCmpBounds, hv, hinf, hlow] at h

/-- A difference that grows with its first argument, as far as the type has one. -/
def SubdiffMono (typcache : TypeCacheEntry α) : Prop :=
  ∀ subdiff, typcache.rngSubdiff = some subdiff →
    ∀ x y z, (typcache.cmp x y).isLE → subdiff x z ≤ subdiff y z

/-- Positions in a bin are in the order of the values. -/
theorem binPosition_mono [Std.TransCmp typcache.cmp] (hsub : SubdiffMono typcache)
    (h1 : (rangeCmpBounds typcache.cmp hist1 value).isLE)
    (h : (rangeCmpBounds typcache.cmp value value').isLE)
    (h2 : (rangeCmpBounds typcache.cmp value' hist2).isLE) :
    binPosition typcache value hist1 hist2 ≤ binPosition typcache value' hist1 hist2 := by
  unfold binPosition
  cases hinf1 : hist1.infinite <;> cases hinf2 : hist2.infinite
  · -- between finite ends the difference decides
    have hfin := finite_of_between hinf1 hinf2 h1 (Std.TransCmp.isLE_trans h h2)
    have hfin' := finite_of_between hinf1 hinf2 (Std.TransCmp.isLE_trans h1 h) h2
    simp only [Bool.not_false, Bool.and_self, ↓reduceIte, hfin, hfin', Bool.false_eq_true]
    cases hsubdiff : typcache.rngSubdiff with
    | none => exact le_rfl
    | some subdiff =>
      dsimp only
      split_ifs with hwidth
      · exact le_rfl
      · have hval := hsub subdiff hsubdiff _ _ hist1.val (val_isLE_of_isLE hfin hfin' h)
        exact min_le_min_right 1 (max_le_max_right 0
          (div_le_div_of_nonneg_right hval (not_le.mp hwidth).le))
  · -- only an infinite upper bound is at the end of the bin
    simp only [Bool.not_false, Bool.not_true, Bool.and_false, Bool.false_eq_true, ↓reduceIte,
      Bool.and_self]
    split_ifs with hv hv'
    · exact le_rfl
    · rw [Bool.and_eq_true, Bool.not_eq_true'] at hv hv'
      exact absurd (top_of_top_isLE hv h) hv'
    · exact zero_le_one
    · exact le_rfl
  · -- only an infinite lower bound is at the start of the bin
    simp only [Bool.not_false, Bool.not_true, Bool.false_and, Bool.false_eq_true, ↓reduceIte,
      Bool.and_self]
    split_ifs with hv hv' hv'
    · exact le_rfl
    · exact zero_le_one
    · rw [Bool.and_eq_true] at hv hv'
      exact absurd (bot_of_isLE_bot hv' h) hv
    · exact le_rfl
  · simp

end Position

/-! ### The search in a sorted histogram -/

section Search

variable {α : Type} [Inhabited α] {typcache : TypeCacheEntry α} {hist : List (RangeBound α)}
  {value value' : RangeBound α}

/-- The bounds are in ascending order. -/
def HistSorted (cmp : α → α → Ordering) (hist : List (RangeBound α)) : Prop :=
  hist.Pairwise fun b1 b2 => (rangeCmpBounds cmp b1 b2).isLE

instance (cmp : α → α → Ordering) (hist : List (RangeBound α)) : Decidable (HistSorted cmp hist) :=
  inferInstanceAs (Decidable (hist.Pairwise _))

theorem rboundTest_true_iff (i : ℕ) :
    rboundTest typcache value hist true i = true ↔
      (rangeCmpBounds typcache.cmp (hist.getD i default) value).isLE := by
  unfold rboundTest
  cases rangeCmpBounds typcache.cmp (hist.getD i default) value <;> decide

theorem rboundTest_false_iff (i : ℕ) :
    rboundTest typcache value hist false i = true ↔
      rangeCmpBounds typcache.cmp (hist.getD i default) value = .lt := by
  unfold rboundTest
  cases rangeCmpBounds typcache.cmp (hist.getD i default) value <;> decide

variable [Std.TransCmp typcache.cmp]

theorem HistSorted.getD_isLE (hsorted : HistSorted typcache.cmp hist) {i j : ℕ} (hij : i ≤ j)
    (hj : j < hist.length) :
    (rangeCmpBounds typcache.cmp (hist.getD i default) (hist.getD j default)).isLE := by
  rw [List.getD_eq_getElem _ _ hj, List.getD_eq_getElem _ _ (hij.trans_lt hj)]
  rcases hij.lt_or_eq with hlt | rfl
  · exact List.pairwise_iff_getElem.mp hsorted i j _ hj hlt
  · exact Std.ReflCmp.isLE_rfl

/-- The test passes for the bounds up to some place. -/
theorem HistSorted.passesDown (hsorted : HistSorted typcache.cmp hist) (value : RangeBound α)
    (equal : Bool) : PassesDown (rboundTest typcache value hist equal) hist.length := by
  intro j k hjk hk hpass
  have hle := hsorted.getD_isLE hjk hk
  cases equal with
  | true =>
    rw [rboundTest_true_iff] at hpass ⊢
    exact Std.TransCmp.isLE_trans hle hpass
  | false =>
    rw [rboundTest_false_iff] at hpass ⊢
    exact Std.TransCmp.lt_of_isLE_of_lt hle hpass

theorem HistSorted.le_false_iff (hsorted : HistSorted typcache.cmp hist) (value : RangeBound α)
    {k : ℕ} (hk : k < hist.length) :
    (k : ℤ) ≤ rboundBsearch typcache value hist false ↔
      rangeCmpBounds typcache.cmp (hist.getD k default) value = .lt := by
  rw [rboundBsearch, le_bsearchLast_iff (hsorted.passesDown value false) hk, rboundTest_false_iff]

theorem HistSorted.le_true_iff (hsorted : HistSorted typcache.cmp hist) (value : RangeBound α)
    {k : ℕ} (hk : k < hist.length) :
    (k : ℤ) ≤ rboundBsearch typcache value hist true ↔
      (rangeCmpBounds typcache.cmp (hist.getD k default) value).isLE := by
  rw [rboundBsearch, le_bsearchLast_iff (hsorted.passesDown value true) hk, rboundTest_true_iff]

/-- What is found lies at or below the value, -/
theorem HistSorted.isLE_of_le (hsorted : HistSorted typcache.cmp hist) {equal : Bool} {k : ℕ}
    (hk : k < hist.length) (hle : (k : ℤ) ≤ rboundBsearch typcache value hist equal) :
    (rangeCmpBounds typcache.cmp (hist.getD k default) value).isLE := by
  cases equal with
  | true => exact (hsorted.le_true_iff value hk).mp hle
  | false => exact Math.isLE_of_lt ((hsorted.le_false_iff value hk).mp hle)

/-- and what comes behind it at or above the value. -/
theorem HistSorted.isLE_of_lt (hsorted : HistSorted typcache.cmp hist) (equal : Bool) {k : ℕ}
    (hk : k < hist.length) (hlt : rboundBsearch typcache value hist equal < k) :
    (rangeCmpBounds typcache.cmp value (hist.getD k default)).isLE := by
  cases equal with
  | true =>
    have hnot := (hsorted.le_true_iff value hk).not.mp (not_le.mpr hlt)
    exact (isLE_total _ _ _).resolve_left hnot
  | false =>
    have hnot := (hsorted.le_false_iff value hk).not.mp (not_le.mpr hlt)
    rwa [lt_iff_not_isLE, not_not] at hnot

/-- Between the two searches are the bounds equal to the value. -/
theorem HistSorted.eq_iff (hsorted : HistSorted typcache.cmp hist) (value : RangeBound α) {k : ℕ}
    (hk : k < hist.length) :
    rangeCmpBounds typcache.cmp (hist.getD k default) value = .eq ↔
      rboundBsearch typcache value hist false < k ∧
        (k : ℤ) ≤ rboundBsearch typcache value hist true := by
  rw [← not_le, hsorted.le_false_iff value hk, hsorted.le_true_iff value hk]
  cases rangeCmpBounds typcache.cmp (hist.getD k default) value <;> decide

theorem HistSorted.rboundBsearch_mem (hsorted : HistSorted typcache.cmp hist)
    (value : RangeBound α) (equal : Bool) :
    -1 ≤ rboundBsearch typcache value hist equal ∧
      rboundBsearch typcache value hist equal < hist.length :=
  ⟨neg_one_le_bsearchLast (hsorted.passesDown value equal),
    bsearchLast_lt (hsorted.passesDown value equal)⟩

/-- A greater value is found no earlier. -/
theorem HistSorted.rboundBsearch_mono (hsorted : HistSorted typcache.cmp hist) (equal : Bool)
    (h : (rangeCmpBounds typcache.cmp value value').isLE) :
    rboundBsearch typcache value hist equal ≤ rboundBsearch typcache value' hist equal := by
  refine bsearchLast_mono (hsorted.passesDown value equal) (hsorted.passesDown value' equal) ?_
  intro k _ hpass
  cases equal with
  | true =>
    rw [rboundTest_true_iff] at hpass ⊢
    exact Std.TransCmp.isLE_trans hpass h
  | false =>
    rw [rboundTest_false_iff] at hpass ⊢
    exact Std.TransCmp.lt_of_lt_of_isLE hpass h

theorem HistSorted.rboundBsearch_le (hsorted : HistSorted typcache.cmp hist)
    (value : RangeBound α) :
    rboundBsearch typcache value hist false ≤ rboundBsearch typcache value hist true := by
  refine bsearchLast_mono (hsorted.passesDown value false) (hsorted.passesDown value true) ?_
  intro k _ hpass
  rw [rboundTest_false_iff] at hpass
  rw [rboundTest_true_iff]
  exact Math.isLE_of_lt hpass

end Search

/-! ### The fraction -/

section Fraction

variable {α : Type} [Inhabited α] (typcache : TypeCacheEntry α)

/-- The position of a value in the bin where it is found. -/
def histPosition (value : RangeBound α) (hist : List (RangeBound α)) (equal : Bool) : ℚ :=
  let index := (rboundBsearch typcache value hist equal).toNat
  binPosition typcache value (hist.getD index default) (hist.getD (index + 1) default)

/-- The fraction of the bounds before a value, or up to it. -/
def histFraction (value : RangeBound α) (hist : List (RangeBound α)) (equal : Bool) : ℚ :=
  binFraction hist.length (rboundBsearch typcache value hist equal)
    (histPosition typcache value hist equal)

variable {typcache} {hist : List (RangeBound α)}

theorem calcHistSelectivityScalar_eq (hlen : 2 ≤ hist.length) (value : RangeBound α)
    (equal : Bool) :
    calcHistSelectivityScalar typcache value hist equal =
      .ok (.fin (histFraction typcache value hist equal)) := by
  have hbins : ((hist.length - 1 : ℤ) : ℚ) ≠ 0 := Int.cast_ne_zero.mpr (by omega)
  unfold calcHistSelectivityScalar histFraction binFraction histPosition
  simp only [divide_fin hbins, getPosition_eq, bind, Except.bind, pure, Except.pure]
  split_ifs
  · rfl
  · rw [add_zero]

variable (typcache hist) in
theorem histPosition_mem (value : RangeBound α) (equal : Bool) :
    0 ≤ histPosition typcache value hist equal ∧ histPosition typcache value hist equal ≤ 1 :=
  binPosition_mem typcache _ _ _

variable [Std.TransCmp typcache.cmp]

theorem histFraction_mem (hlen : 2 ≤ hist.length) (hsorted : HistSorted typcache.cmp hist)
    (value : RangeBound α) (equal : Bool) :
    0 ≤ histFraction typcache value hist equal ∧ histFraction typcache value hist equal ≤ 1 := by
  obtain ⟨hlow, hhigh⟩ := hsorted.rboundBsearch_mem value equal
  obtain ⟨hp0, hp1⟩ := histPosition_mem typcache hist value equal
  exact ⟨binFraction_nonneg hlen hhigh hp0, binFraction_le_one hlen hlow hhigh hp1⟩

theorem histFraction_mono (hlen : 2 ≤ hist.length) (hsorted : HistSorted typcache.cmp hist)
    (hsub : SubdiffMono typcache) {value value' : RangeBound α} (equal : Bool)
    (h : (rangeCmpBounds typcache.cmp value value').isLE) :
    histFraction typcache value hist equal ≤ histFraction typcache value' hist equal := by
  obtain ⟨hlow, -⟩ := hsorted.rboundBsearch_mem value equal
  obtain ⟨-, hhigh⟩ := hsorted.rboundBsearch_mem value' equal
  refine binFraction_mono hlen hlow (hsorted.rboundBsearch_mono equal h) hhigh
    (histPosition_mem _ _ value equal).2 (histPosition_mem _ _ value' equal).1 ?_
  -- in the same bin, both values lie between its ends
  intro heq hnonneg hlt
  unfold histPosition
  rw [← heq]
  refine binPosition_mono hsub ?_ h ?_
  · exact hsorted.isLE_of_le (by omega) (Int.toNat_of_nonneg hnonneg).le
  · refine hsorted.isLE_of_lt equal (by omega) ?_
    rw [← heq]
    omega

/-- Bounds equal to the value are counted or not. -/
theorem histFraction_le (hlen : 2 ≤ hist.length) (hsorted : HistSorted typcache.cmp hist)
    (value : RangeBound α) :
    histFraction typcache value hist false ≤ histFraction typcache value hist true := by
  obtain ⟨hlow, -⟩ := hsorted.rboundBsearch_mem value false
  obtain ⟨-, hhigh⟩ := hsorted.rboundBsearch_mem value true
  refine binFraction_mono hlen hlow (hsorted.rboundBsearch_le value) hhigh
    (histPosition_mem _ _ value false).2 (histPosition_mem _ _ value true).1 ?_
  intro heq _ _
  unfold histPosition
  rw [heq]

/-- The result of `calc_hist_selectivity_scalar` is a fraction, it does not decrease when the
bound grows, and it does not decrease when bounds equal to the given one are counted as
well. -/
theorem calcHistSelectivityScalar_cdf (hsub : SubdiffMono typcache) (hlen : 2 ≤ hist.length)
    (hsorted : HistSorted typcache.cmp hist) :
    (∀ value equal, ∃ s, calcHistSelectivityScalar typcache value hist equal = .ok (.fin s) ∧
      0 ≤ s ∧ s ≤ 1) ∧
    (∀ value value' equal, (rangeCmpBounds typcache.cmp value value').isLE →
      ∃ s s', calcHistSelectivityScalar typcache value hist equal = .ok (.fin s) ∧
        calcHistSelectivityScalar typcache value' hist equal = .ok (.fin s') ∧ s ≤ s') ∧
    (∀ value, ∃ s s', calcHistSelectivityScalar typcache value hist false = .ok (.fin s) ∧
      calcHistSelectivityScalar typcache value hist true = .ok (.fin s') ∧ s ≤ s') := by
  simp only [calcHistSelectivityScalar_eq hlen]
  refine ⟨fun value equal => ⟨_, rfl, histFraction_mem hlen hsorted value equal⟩, ?_, ?_⟩
  · intro value value' equal h
    exact ⟨_, _, rfl, rfl, histFraction_mono hlen hsorted hsub equal h⟩
  · intro value
    exact ⟨_, _, rfl, rfl, histFraction_le hlen hsorted value⟩

end Fraction

/-! ### Integer subtypes -/

/-- A range type over integers with the built-in comparison and difference, whose values are
canonical. -/
structure IntSubtype (typcache : TypeCacheEntry ℤ) : Prop where
  cmp_eq : typcache.cmp = btintcmp
  canonical : typcache.rngCanonical.isSome = true
  subdiff_eq : typcache.rngSubdiff = some fun (v1 v2 : ℤ) => (v1 : ℚ) - v2

theorem intSubtype_int4range : IntSubtype int4range := ⟨rfl, rfl, rfl⟩

namespace IntSubtype

variable {typcache : TypeCacheEntry ℤ} (h : IntSubtype typcache)

include h

theorem transCmp : Std.TransCmp typcache.cmp := by
  rw [h.cmp_eq]
  infer_instance

theorem subdiffMono : SubdiffMono typcache := by
  intro subdiff hsome x y z hle
  rw [h.subdiff_eq, Option.some.injEq] at hsome
  subst hsome
  rw [h.cmp_eq] at hle
  exact sub_le_sub_right (Int.cast_le.mpr (compareInt_isLE_iff.mp hle)) _

end IntSubtype

/-- The lower bounds of three integer ranges, the first one infinite. -/
def threeLowers : List (RangeBound ℤ) :=
  [⟨0, true, false, true⟩, ⟨0, false, true, true⟩, ⟨10, false, true, true⟩]

/-- The fraction of those bounds below `3` is at most that below `7`. -/
theorem calcHistSelectivityScalar_cdf_int4range :
    ∃ s s', calcHistSelectivityScalar int4range ⟨3, false, true, true⟩ threeLowers false =
        .ok (.fin s) ∧
      calcHistSelectivityScalar int4range ⟨7, false, true, true⟩ threeLowers false =
        .ok (.fin s') ∧ s ≤ s' :=
  haveI := intSubtype_int4range.transCmp
  (calcHistSelectivityScalar_cdf intSubtype_int4range.subdiffMono (by decide)
    (by decide +kernel)).2.1 _ _ _ (by decide)

end PgRange.Selectivity
