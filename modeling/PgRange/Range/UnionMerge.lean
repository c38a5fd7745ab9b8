import PgRange.Range.SetMeaning

/-!
# Union and merge

Both take the smaller lower and the larger upper bound. The merge does so always; the union only
where the two ranges overlap or are adjacent, so that no element between them gets in. Adjacency
may ask the canonical function whether the range in between is empty, and its answer counts only
if it is right about elements.

## Main definitions

* `TypeCacheEntry.Coherent` — what union and merge need of the canonical function

## Main results

* `no_gap_of_allowed` — an allowed union leaves no element in between
* `rangeUnionInternal_of_allowed` — what is packed
* `rangeUnion_rangeMerge_sets` — the union and the least enclosing range
-/

set_option autoImplicit false

namespace PgRange

open Math

variable {α : Type} [Inhabited α]

/-! ### Coherent canonical functions -/

/-- What union and merge need of a canonical function: it leaves alone a range with the lower
bound of one stored value and the upper bound of another, and it finds the range between two
stored values empty only if that holds no element. -/
structure TypeCacheEntry.Coherent (typcache : TypeCacheEntry α) : Prop where
  transCmp : Std.TransCmp typcache.cmp
  recombined : ∀ {r1 r2}, typcache.IsStored r1 → typcache.IsStored r2 →
    r1.flags.empty = false → r2.flags.empty = false →
    (rangeCmpBounds typcache.cmp (lowerOf r1) (upperOf r2)).isLE →
    typcache.IsCanonical (packRange (lowerOf r1) (upperOf r2))
  gap : ∀ {r1 r2 canonical r}, typcache.IsStored r1 → typcache.IsStored r2 →
    r1.flags.empty = false → r2.flags.empty = false →
    (upperOf r1).infinite = false → (lowerOf r2).infinite = false →
    (rangeCmpBounds typcache.cmp (upperOf r1).flip (lowerOf r2).flip).isLE →
    typcache.rngCanonical = some canonical →
    canonical (packRange (upperOf r1).flip (lowerOf r2).flip) = .ok r → r.flags.empty = true →
    ∀ val, rangeContainsElemInternal typcache.cmp
      (packRange (upperOf r1).flip (lowerOf r2).flip) val = false

/-- A canonical function that looks at each bound by itself is coherent: it never changes the
range between two stored values. -/
theorem TypeCacheEntry.BoundwiseBy.coherent {typcache : TypeCacheEntry α}
    {LowerOk UpperOk : RangeBound α → Prop} (h : typcache.BoundwiseBy LowerOk UpperOk) :
    typcache.Coherent where
  transCmp := h.transCmp
  recombined := by
    intro r1 r2 h1 h2 he1 he2 hle
    exact (h.isStored_packRange (h.lowerEnd h1 he1) (h.upperEnd h2 he2) hle).canonical
  gap := by
    intro r1 r2 canonical r h1 h2 he1 he2 hfin1 hfin2 hle hcanon hr he
    have hstored := h.isStored_packRange (h.lowerEnd_flip (h.upperEnd h1 he1) hfin1)
      (h.upperEnd_flip (h.lowerEnd h2 he2) hfin2) hle
    rw [hstored.canonical canonical hcanon rfl] at hr
    obtain rfl := Except.ok.inj hr
    simp [packRange] at he

theorem TypeCacheEntry.Regular.coherent {typcache : TypeCacheEntry α} (h : typcache.Regular) :
    typcache.Coherent := by
  obtain ⟨LowerOk, UpperOk, hb⟩ := h.boundwise
  exact hb.coherent

/-! ### Union and merge -/

section Union

variable {typcache : TypeCacheEntry α} {r1 r2 : RangeType α}

/-- Where the second range starts at or before the end of the first, no element is between
them. -/
theorem no_gap_of_isLE [Std.TransCmp typcache.cmp]
    (hle : (rangeCmpBounds typcache.cmp (lowerOf r2) (upperOf r1)).isLE) (val : α) :
    (rangeCmpBounds typcache.cmp (elementBound val) (upperOf r1)).isLE ∨
      (rangeCmpBounds typcache.cmp (lowerOf r2) (elementBound val)).isLE := by
  rcases isLE_total (rangeCmpBounds typcache.cmp) (elementBound val) (upperOf r1) with hval | hval
  · exact Or.inl hval
  · exact Or.inr (Std.TransCmp.isLE_trans hle hval)

section Stored

variable (h : typcache.Coherent) (h1 : typcache.IsStored r1) (h2 : typcache.IsStored r2)
  (he1 : r1.flags.empty = false) (he2 : r2.flags.empty = false)

include h h1 h2 he1 he2

/-- No element is between adjacent bounds. -/
theorem no_gap_of_boundsAdjacent
    (hadj : boundsAdjacent typcache (upperOf r1) (lowerOf r2) = .ok true) (val : α) :
    (rangeCmpBounds typcache.cmp (elementBound val) (upperOf r1)).isLE ∨
      (rangeCmpBounds typcache.cmp (lowerOf r2) (elementBound val)).isLE := by
  have := h.transCmp
  by_contra hval
  rw [not_or] at hval
  cases hc : rangeCmpBoundValues typcache.cmp (upperOf r1) (lowerOf r2) with
  | gt => simp [boundsAdjacent, hc] at hadj
  | eq =>
    -- level values, one of them included: the element would be in between
    simp only [boundsAdjacent, hc, Except.ok.injEq, bne_iff_ne] at hadj
    have hnext := (adjacent_cut_iff rfl rfl).mp ⟨hc, hadj⟩
    rw [← lt_iff_not_isLE, rangeCmpBounds_eq_cut, rangeCmpBounds_eq_cut] at hval
    exact hval.2 (hnext.isLE_right hval.1)
  | lt =>
    obtain ⟨hfin1, hfin2, hlt⟩ := finite_of_upper_lt_lower rfl rfl hc
    have hlt' : rangeCmpBoundValues typcache.cmp (upperOf r1).flip (lowerOf r2).flip = .lt := by
      have hinf1 : r1.flags.ubInf = false := hfin1
      have hinf2 : r2.flags.lbInf = false := hfin2
      simpa [rangeCmpBoundValues, RangeBound.flip, hinf1, hinf2] using hlt
    cases hcanon : typcache.rngCanonical with
    | none => simp [boundsAdjacent, hc, hcanon] at hadj
    | some canonical =>
      simp only [boundsAdjacent, hc, hcanon, Option.isNone_some, Bool.false_eq_true,
        ↓reduceIte] at hadj
      obtain ⟨r, hr, he⟩ := bind_eq_ok_iff.mp hadj
      have hmake : makeRange typcache (upperOf r1).flip (lowerOf r2).flip false = .ok r := hr
      have hcr : canonical (packRange (upperOf r1).flip (lowerOf r2).flip) = .ok r := by
        rw [makeRange, rangeSerialize_of_lt hlt', hcanon] at hmake
        exact hmake
      have hle : (rangeCmpBounds typcache.cmp (upperOf r1).flip (lowerOf r2).flip).isLE :=
        (lower_isLE_upper_iff rfl rfl).mpr (Or.inl hlt')
      have hout := h.gap h1 h2 he1 he2 hfin1 hfin2 hle hcanon hcr (Except.ok.inj he) val
      rw [← Bool.not_eq_true, rangeContainsElemInternal_packRange rfl rfl,
        flip_isLE_iff rfl hfin1, isLE_flip_iff rfl hfin2] at hout
      exact hout hval

/-- A strict union is allowed only if no element is between the two ranges, on either side. -/
theorem no_gap_of_allowed (hallowed : unionIsAllowed typcache r1 r2 true = .ok true) (val : α) :
    ((rangeCmpBounds typcache.cmp (elementBound val) (upperOf r1)).isLE ∨
        (rangeCmpBounds typcache.cmp (lowerOf r2) (elementBound val)).isLE) ∧
      ((rangeCmpBounds typcache.cmp (elementBound val) (upperOf r2)).isLE ∨
        (rangeCmpBounds typcache.cmp (lowerOf r1) (elementBound val)).isLE) := by
  have := h.transCmp
  have ho1 := h1.wellFormed.ordered he1
  have ho2 := h2.wellFormed.ordered he2
  have hone := isLE_or_isLE ho1 ho2
  cases hov : rangeOverlapsInternal typcache.cmp r1 r2 with
  | true =>
    rw [rangeOverlapsInternal_iff he1 he2 ho1 ho2] at hov
    exact ⟨no_gap_of_isLE hov.2 val, no_gap_of_isLE hov.1 val⟩
  | false =>
    simp only [unionIsAllowed, hov, Bool.not_true, Bool.or_self, Bool.false_eq_true,
      ↓reduceIte] at hallowed
    rw [rangeAdjacentInternal_of_nonempty he1 he2] at hallowed
    obtain ⟨adj, hadj, hrest⟩ := bind_eq_ok_iff.mp hallowed
    -- the side that is not adjacent is the far one, where the ranges are in order
    cases adj with
    | true =>
      have h12 := hone.resolve_right (not_isLE_of_boundsAdjacent rfl rfl hadj)
      exact ⟨no_gap_of_boundsAdjacent h h1 h2 he1 he2 hadj val, no_gap_of_isLE h12 val⟩
    | false =>
      have h21 := hone.resolve_left (not_isLE_of_boundsAdjacent rfl rfl hrest)
      exact ⟨no_gap_of_isLE h21 val, no_gap_of_boundsAdjacent h h2 h1 he2 he1 hrest val⟩

/-- An allowed union of non-empty ranges packs the smaller lower and the larger upper bound. -/
theorem rangeUnionInternal_of_allowed {strict : Bool}
    (hallowed : unionIsAllowed typcache r1 r2 strict = .ok true) :
    ∃ lower upper, IsLowerEnd (fun _ => True) lower ∧ IsUpperEnd (fun _ => True) upper ∧
      rangeUnionInternal typcache r1 r2 strict = .ok (packRange lower upper) ∧
      (∀ b, (rangeCmpBounds typcache.cmp lower b).isLE ↔
        (rangeCmpBounds typcache.cmp (lowerOf r1) b).isLE ∨
          (rangeCmpBounds typcache.cmp (lowerOf r2) b).isLE) ∧
      (∀ b, (rangeCmpBounds typcache.cmp b upper).isLE ↔
        (rangeCmpBounds typcache.cmp b (upperOf r1)).isLE ∨
          (rangeCmpBounds typcache.cmp b (upperOf r2)).isLE) ∧
      (lower = lowerOf r1 ∨ lower = lowerOf r2) ∧ (upper = upperOf r1 ∨ upper = upperOf r2) := by
  have := h.transCmp
  -- name the operands that the two bounds come from
  obtain ⟨ra, hlower, ha, hea, hra⟩ : ∃ ra, (if (rangeCmpBounds typcache.cmp (lowerOf r1)
      (lowerOf r2)).isLT then lowerOf r1 else lowerOf r2) = lowerOf ra ∧ typcache.IsStored ra ∧
      ra.flags.empty = false ∧ (lowerOf ra = lowerOf r1 ∨ lowerOf ra = lowerOf r2) := by
    split_ifs
    · exact ⟨r1, rfl, h1, he1, Or.inl rfl⟩
    · exact ⟨r2, rfl, h2, he2, Or.inr rfl⟩
  obtain ⟨rb, hupper, hb, heb, hrb⟩ : ∃ rb, (if (rangeCmpBounds typcache.cmp (upperOf r1)
      (upperOf r2)).isGT then upperOf r1 else upperOf r2) = upperOf rb ∧ typcache.IsStored rb ∧
      rb.flags.empty = false ∧ (upperOf rb = upperOf r1 ∨ upperOf rb = upperOf r2) := by
    split_ifs
    · exact ⟨r1, rfl, h1, he1, Or.inl rfl⟩
    · exact ⟨r2, rfl, h2, he2, Or.inr rfl⟩
  have hlow (b : RangeBound α) : (rangeCmpBounds typcache.cmp (lowerOf ra) b).isLE ↔
      (rangeCmpBounds typcache.cmp (lowerOf r1) b).isLE ∨
        (rangeCmpBounds typcache.cmp (lowerOf r2) b).isLE := by
    rw [← hlower]
    exact min_isLE_iff
  have hupp (b : RangeBound α) : (rangeCmpBounds typcache.cmp b (upperOf rb)).isLE ↔
      (rangeCmpBounds typcache.cmp b (upperOf r1)).isLE ∨
        (rangeCmpBounds typcache.cmp b (upperOf r2)).isLE := by
    rw [← hupper]
    exact isLE_max_iff
  have hl : IsLowerEnd (fun _ => True) (lowerOf ra) :=
    ⟨rfl, ha.wellFormed.proper.lowerOf_normal, trivial⟩
  have hu : IsUpperEnd (fun _ => True) (upperOf rb) :=
    ⟨rfl, hb.wellFormed.proper.upperOf_normal, trivial⟩
  have hle : (rangeCmpBounds typcache.cmp (lowerOf ra) (upperOf rb)).isLE :=
    (hlow _).mpr (Or.inl ((hupp _).mpr (Or.inl (h1.wellFormed.ordered he1))))
  have hmake := makeRange_of_canonical (wellFormed_packRange rfl rfl hle)
    (h.recombined ha hb hea heb hle)
  rw [lowerOf_packRange hl hu, upperOf_packRange hl hu] at hmake
  refine ⟨lowerOf ra, upperOf rb, hl, hu, ?_, hlow, hupp, hra, hrb⟩
  simp only [rangeUnionInternal, rangeDeserialize_empty, he1, he2, Bool.false_eq_true, ↓reduceIte,
    hallowed]
  exact (congrArg₂ (makeRange typcache · · false) hlower hupper).trans hmake

end Stored

/-- A union of non-empty ranges that raises nothing was allowed. -/
theorem allowed_of_rangeUnionInternal {strict : Bool} {r : RangeType α}
    (he1 : r1.flags.empty = false) (he2 : r2.flags.empty = false)
    (hr : rangeUnionInternal typcache r1 r2 strict = .ok r) :
    unionIsAllowed typcache r1 r2 strict = .ok true := by
  simp only [rangeUnionInternal, rangeDeserialize_empty, he1, he2, Bool.false_eq_true,
    ↓reduceIte] at hr
  obtain ⟨allowed, hallowed, hr⟩ := bind_eq_ok_iff.mp hr
  cases allowed with
  | true => exact hallowed
  | false => simp at hr

theorem rangeUnionInternal_of_empty_left {strict : Bool} (he1 : r1.flags.empty = true) :
    rangeUnionInternal typcache r1 r2 strict = .ok r2 := by
  simp [rangeUnionInternal, he1]

theorem rangeUnionInternal_of_empty_right {strict : Bool} (he1 : r1.flags.empty = false)
    (he2 : r2.flags.empty = true) : rangeUnionInternal typcache r1 r2 strict = .ok r1 := by
  simp [rangeUnionInternal, he1, he2]

theorem rangeEqInternal_self [Std.TransCmp typcache.cmp] (r : RangeType α) :
    rangeEqInternal typcache.cmp r r = true := by
  rw [rangeEqInternal_iff]
  cases r.flags.empty with
  | true => exact Or.inl ⟨rfl, rfl⟩
  | false => exact Or.inr ⟨rfl, rfl, Std.ReflCmp.compare_self, Std.ReflCmp.compare_self⟩

section Theorems

variable (h : typcache.Coherent) (h1 : typcache.IsStored r1) (h2 : typcache.IsStored r2)

include h h1 h2

/-- The union, if it is raised no error, holds the elements of both ranges. -/
theorem contains_rangeUnion {r : RangeType α} (hr : rangeUnion typcache r1 r2 = .ok r) (val : α) :
    rangeContainsElemInternal typcache.cmp r val = true ↔
      rangeContainsElemInternal typcache.cmp r1 val = true ∨
        rangeContainsElemInternal typcache.cmp r2 val = true := by
  have := h.transCmp
  rw [rangeUnion] at hr
  cases he1 : r1.flags.empty with
  | true =>
    rw [rangeUnionInternal_of_empty_left he1] at hr
    obtain rfl := Except.ok.inj hr
    simp [rangeContainsElemInternal_of_empty he1]
  | false =>
    cases he2 : r2.flags.empty with
    | true =>
      rw [rangeUnionInternal_of_empty_right he1 he2] at hr
      obtain rfl := Except.ok.inj hr
      simp [rangeContainsElemInternal_of_empty he2]
    | false =>
      have hallowed := allowed_of_rangeUnionInternal he1 he2 hr
      have hgap := no_gap_of_allowed h h1 h2 he1 he2 hallowed val
      obtain ⟨lower, upper, hl, hu, hpack, hlow, hupp, -, -⟩ :=
        rangeUnionInternal_of_allowed h h1 h2 he1 he2 hallowed
      rw [hpack] at hr
      obtain rfl := Except.ok.inj hr
      rw [rangeContainsElemInternal_packRange hl.lower hu.lower, hlow, hupp,
        rangeContainsElemInternal_iff_bounds, rangeContainsElemInternal_iff_bounds]
      tauto

/-- The merge raises nothing and is the least range that contains both. -/
theorem rangeMerge_least :
    ∃ r, rangeMerge typcache r1 r2 = .ok r ∧
      rangeContainsInternal typcache.cmp r r1 = true ∧
      rangeContainsInternal typcache.cmp r r2 = true ∧
      ∀ r', rangeContainsInternal typcache.cmp r' r1 = true →
        rangeContainsInternal typcache.cmp r' r2 = true →
        rangeContainsInternal typcache.cmp r' r = true := by
  have := h.transCmp
  have hself (r : RangeType α) : rangeContainsInternal typcache.cmp r r = true := by
    cases he : r.flags.empty with
    | true => simp [rangeContainsInternal, he]
    | false => exact (rangeContainsInternal_iff he).mpr ⟨he, Std.ReflCmp.isLE_rfl, Std.ReflCmp.isLE_rfl⟩
  rw [rangeMerge]
  cases he1 : r1.flags.empty with
  | true =>
    exact ⟨r2, rangeUnionInternal_of_empty_left he1, by simp [rangeContainsInternal, he1],
      hself r2, fun _ _ hc2 => hc2⟩
  | false =>
    cases he2 : r2.flags.empty with
    | true =>
      exact ⟨r1, rangeUnionInternal_of_empty_right he1 he2, hself r1,
        by simp [rangeContainsInternal, he2], fun _ hc1 _ => hc1⟩
    | false =>
      have hallowed : unionIsAllowed typcache r1 r2 false = .ok true := rfl
      obtain ⟨lower, upper, hl, hu, hpack, hlow, hupp, hlower, hupper⟩ :=
        rangeUnionInternal_of_allowed h h1 h2 he1 he2 hallowed
      refine ⟨_, hpack, ?_, ?_, fun r' hc1 hc2 => ?_⟩
      · rw [rangeContainsInternal_iff he1, lowerOf_packRange hl hu, upperOf_packRange hl hu, hlow,
          hupp]
        exact ⟨rfl, Or.inl Std.ReflCmp.isLE_rfl, Or.inl Std.ReflCmp.isLE_rfl⟩
      · rw [rangeContainsInternal_iff he2, lowerOf_packRange hl hu, upperOf_packRange hl hu, hlow,
          hupp]
        exact ⟨rfl, Or.inr Std.ReflCmp.isLE_rfl, Or.inr Std.ReflCmp.isLE_rfl⟩
      · -- each end is a bound of one of the two
        rw [rangeContainsInternal_iff he1] at hc1
        rw [rangeContainsInternal_iff he2] at hc2
        rw [rangeContainsInternal_iff rfl, lowerOf_packRange hl hu, upperOf_packRange hl hu]
        refine ⟨hc1.1, ?_, ?_⟩
        · rcases hlower with rfl | rfl
          · exact hc1.2.1
          · exact hc2.2.1
        · rcases hupper with rfl | rfl
          · exact hc1.2.2
          · exact hc2.2.2

/-- The test of a strict union does not depend on the order of the operands. -/
theorem unionIsAllowed_comm (he1 : r1.flags.empty = false) (he2 : r2.flags.empty = false)
    (strict : Bool) :
    unionIsAllowed typcache r1 r2 strict = unionIsAllowed typcache r2 r1 strict := by
  have := h.transCmp
  have ho1 := h1.wellFormed.ordered he1
  have ho2 := h2.wellFormed.ordered he2
  have hov : rangeOverlapsInternal typcache.cmp r1 r2 = rangeOverlapsInternal typcache.cmp r2 r1 := by
    rw [Bool.eq_iff_iff, rangeOverlapsInternal_iff he1 he2 ho1 ho2,
      rangeOverlapsInternal_iff he2 he1 ho2 ho1, and_comm]
  rw [unionIsAllowed, unionIsAllowed, hov, rangeAdjacentInternal_comm he1 he2 ho1 ho2]

/-- Union and merge are commutative up to equality of ranges. -/
theorem rangeUnionInternal_comm {strict : Bool} {r : RangeType α}
    (hr : rangeUnionInternal typcache r1 r2 strict = .ok r) :
    ∃ r', rangeUnionInternal typcache r2 r1 strict = .ok r' ∧
      rangeEqInternal typcache.cmp r r' = true := by
  have := h.transCmp
  cases he1 : r1.flags.empty with
  | true =>
    rw [rangeUnionInternal_of_empty_left he1] at hr
    obtain rfl := Except.ok.inj hr
    cases he2 : r2.flags.empty with
    | true =>
      exact ⟨r1, rangeUnionInternal_of_empty_left he2, rangeEqInternal_iff.mpr (Or.inl ⟨he2, he1⟩)⟩
    | false => exact ⟨r2, rangeUnionInternal_of_empty_right he2 he1, rangeEqInternal_self r2⟩
  | false =>
    cases he2 : r2.flags.empty with
    | true =>
      rw [rangeUnionInternal_of_empty_right he1 he2] at hr
      obtain rfl := Except.ok.inj hr
      exact ⟨r1, rangeUnionInternal_of_empty_left he2, rangeEqInternal_self r1⟩
    | false =>
      have hallowed := allowed_of_rangeUnionInternal he1 he2 hr
      obtain ⟨lower, upper, hl, hu, hpack, hlow, hupp, -, -⟩ :=
        rangeUnionInternal_of_allowed h h1 h2 he1 he2 hallowed
      rw [unionIsAllowed_comm h h1 h2 he1 he2] at hallowed
      obtain ⟨lower', upper', hl', hu', hpack', hlow', hupp', -, -⟩ :=
        rangeUnionInternal_of_allowed h h2 h1 he2 he1 hallowed
      rw [hpack] at hr
      obtain rfl := Except.ok.inj hr
      refine ⟨_, hpack', rangeEqInternal_iff.mpr (Or.inr ⟨rfl, rfl, ?_, ?_⟩)⟩
      -- the two results have the same bounds above and below them
      · rw [lowerOf_packRange hl hu, lowerOf_packRange hl' hu']
        exact Std.OrientedCmp.isLE_antisymm
          ((hlow _).mpr ((hlow' _).mp Std.ReflCmp.isLE_rfl).symm)
          ((hlow' _).mpr ((hlow _).mp Std.ReflCmp.isLE_rfl).symm)
      · rw [upperOf_packRange hl hu, upperOf_packRange hl' hu']
        exact Std.OrientedCmp.isLE_antisymm
          ((hupp' _).mpr ((hupp _).mp Std.ReflCmp.isLE_rfl).symm)
          ((hupp _).mpr ((hupp' _).mp Std.ReflCmp.isLE_rfl).symm)

end Theorems

end Union

/-! ### The union of integer ranges -/

section Integer

variable {addOne : ℤ → Except Fault ℤ} {rngSubdiff : Option (ℤ → ℤ → ℚ)} {r1 r2 : RangeType ℤ}

variable (h1 : WellFormed btintcmp r1) (n1 : IntNormal r1) (h2 : WellFormed btintcmp r2)
  (n2 : IntNormal r2)

include h1 n1 h2 n2

/-- A union of non-empty integer ranges is allowed exactly if it is an interval. -/
theorem unionIsAllowed_integerRange (addOne : ℤ → Except Fault ℤ)
    (rngSubdiff : Option (ℤ → ℤ → ℚ)) (he1 : r1.flags.empty = false)
    (he2 : r2.flags.empty = false) :
    ∃ allowed, unionIsAllowed (integerRange addOne rngSubdiff) r1 r2 true = .ok allowed ∧
      (allowed = true ↔ (intElements r1 ∪ intElements r2).OrdConnected) := by
  rw [ordConnected_union_iff h1 n1 he1 h2 n2 he2, ← rangeOverlapsInternal_iff_shared h1 n1 h2 n2]
  cases hov : rangeOverlapsInternal btintcmp r1 r2 with
  | true => exact ⟨true, by simp [unionIsAllowed, integerRange, hov], by simp⟩
  | false =>
    refine ⟨decide (Touching r1 r2 ∨ Touching r2 r1), ?_, by simp⟩
    simp only [unionIsAllowed, integerRange, hov, Bool.not_true, Bool.or_self,
      Bool.false_eq_true, ↓reduceIte]
    exact rangeAdjacentInternal_integerRange h1 n1 he1 h2 n2 he2 _ _

/-- A union of integer ranges raises an error exactly if neither is empty and the elements do
not make an interval. -/
theorem rangeUnion_error_iff :
    (∃ e, rangeUnion (integerRange addOne rngSubdiff) r1 r2 = .error e) ↔
      r1.flags.empty = false ∧ r2.flags.empty = false ∧
        ¬ (intElements r1 ∪ intElements r2).OrdConnected := by
  rw [rangeUnion]
  cases he1 : r1.flags.empty with
  | true => simp [rangeUnionInternal_of_empty_left he1]
  | false =>
    cases he2 : r2.flags.empty with
    | true => simp [rangeUnionInternal_of_empty_right he1 he2]
    | false =>
      obtain ⟨allowed, hallowed, hiff⟩ :=
        unionIsAllowed_integerRange h1 n1 h2 n2 addOne rngSubdiff he1 he2
      rw [← hiff]
      cases allowed with
      | true =>
        obtain ⟨lower, upper, -, -, hpack, -⟩ := rangeUnionInternal_of_allowed
          (boundwiseBy_integerRange addOne rngSubdiff).coherent (isStored_integerRange h1 n1)
          (isStored_integerRange h2 n2) he1 he2 hallowed
        simp [hpack]
      | false =>
        simp [rangeUnionInternal, he1, he2, hallowed, bind, Except.bind]

end Integer

/-- `range_union` is the union of sets and `range_merge` the least enclosing range, and both are
commutative up to equality of ranges. Over the integers a union raises an error exactly if its
elements do not make an interval. -/
theorem rangeUnion_rangeMerge_sets :
    (∀ {α : Type} [Inhabited α] {typcache : TypeCacheEntry α} {r1 r2 : RangeType α},
      typcache.Coherent → typcache.IsStored r1 → typcache.IsStored r2 →
      (∀ r, rangeUnion typcache r1 r2 = .ok r → ∀ val,
        rangeContainsElemInternal typcache.cmp r val = true ↔
          rangeContainsElemInternal typcache.cmp r1 val = true ∨
            rangeContainsElemInternal typcache.cmp r2 val = true) ∧
      (∃ r, rangeMerge typcache r1 r2 = .ok r ∧
        rangeContainsInternal typcache.cmp r r1 = true ∧
        rangeContainsInternal typcache.cmp r r2 = true ∧
        ∀ r', rangeContainsInternal typcache.cmp r' r1 = true →
          rangeContainsInternal typcache.cmp r' r2 = true →
          rangeContainsInternal typcache.cmp r' r = true) ∧
      (∀ r, rangeUnion typcache r1 r2 = .ok r →
        ∃ r', rangeUnion typcache r2 r1 = .ok r' ∧ rangeEqInternal typcache.cmp r r' = true) ∧
      (∀ r, rangeMerge typcache r1 r2 = .ok r →
        ∃ r', rangeMerge typcache r2 r1 = .ok r' ∧ rangeEqInternal typcache.cmp r r' = true)) ∧
    (∀ (addOne : ℤ → Except Fault ℤ) (rngSubdiff : Option (ℤ → ℤ → ℚ)) {r1 r2 : RangeType ℤ},
      WellFormed btintcmp r1 → IntNormal r1 → WellFormed btintcmp r2 → IntNormal r2 →
      ((∃ e, rangeUnion (integerRange addOne rngSubdiff) r1 r2 = .error e) ↔
        r1.flags.empty = false ∧ r2.flags.empty = false ∧
          ¬ (intElements r1 ∪ intElements r2).OrdConnected)) := by
  refine ⟨?_, fun _ _ _ _ h1 n1 h2 n2 => rangeUnion_error_iff h1 n1 h2 n2⟩
  intro α _ typcache r1 r2 h h1 h2
  exact ⟨fun r hr => contains_rangeUnion h h1 h2 hr, rangeMerge_least h h1 h2,
    fun r hr => rangeUnionInternal_comm h h1 h2 hr, fun r hr => rangeUnionInternal_comm h h1 h2 hr⟩

/-- `[1,3)` and `[5,7)` leave a gap. They can be merged, in either order, but their union raises an
error. -/
theorem rangeUnion_rangeMerge_sets_apart :
    let typcache := integerRange (fun v => .ok (v + 1)) none
    (∃ r r', rangeMerge typcache (intBetween 1 3) (intBetween 5 7) = .ok r ∧
      rangeContainsInternal typcache.cmp r (intBetween 1 3) = true ∧
      rangeContainsInternal typcache.cmp r (intBetween 5 7) = true ∧
      rangeMerge typcache (intBetween 5 7) (intBetween 1 3) = .ok r' ∧
      rangeEqInternal typcache.cmp r r' = true) ∧
    ∃ e, rangeUnion typcache (intBetween 1 3) (intBetween 5 7) = .error e ∧
      ¬ (intElements (intBetween 1 3) ∪ intElements (intBetween 5 7)).OrdConnected := by
  have h1 := wellFormed_intBetween (a := 1) (b := 3) (by decide)
  have h2 := wellFormed_intBetween (a := 5) (b := 7) (by decide)
  have n1 := intNormal_intBetween (a := 1) (b := 3) (by decide)
  have n2 := intNormal_intBetween (a := 5) (b := 7) (by decide)
  refine ⟨?_, ?_⟩
  · obtain ⟨-, ⟨r, hr, hr1, hr2, -⟩, -, hcomm⟩ := rangeUnion_rangeMerge_sets.1
      (boundwiseBy_integerRange (fun v => .ok (v + 1)) none).coherent
      (isStored_integerRange h1 n1) (isStored_integerRange h2 n2)
    obtain ⟨r', hr', heq⟩ := hcomm r hr
    exact ⟨r, r', hr, hr1, hr2, hr', heq⟩
  · have herr : rangeUnion (integerRange (fun v => .ok (v + 1)) none) (intBetween 1 3)
        (intBetween 5 7) = .error .unionNotContiguous := by decide
    exact ⟨_, herr, ((rangeUnion_rangeMerge_sets.2 _ _ h1 n1 h2 n2).mp ⟨_, herr⟩).2.2⟩

end PgRange
