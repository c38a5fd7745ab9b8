import PgRange.Range.IntSets

/-!
# Difference and intersection

Difference and intersection combine bounds of their operands, and the difference flips one. A
canonical function that looks at each bound by itself, as those of the built-in types do, leaves
such combinations alone. So `make_range` packs them as they are, and what the result holds is
read off the order of bounds.

## Main definitions

* `TypeCacheEntry.IsStored` — a well-formed value that the canonical function leaves alone
* `TypeCacheEntry.BoundwiseBy` — a canonical function that looks at each bound by itself

## Main results

* `rangeMinus_difference` — the difference, or the one error it can raise
* `rangeIntersect_greatest` — the intersection
-/

set_option autoImplicit false

namespace PgRange

open Math

variable {α : Type} [Inhabited α]

/-! ### Stored values -/

/-- A value of the type as it is stored: well-formed, and left alone by the canonical
function. -/
structure TypeCacheEntry.IsStored (typcache : TypeCacheEntry α) (r : RangeType α) : Prop where
  wellFormed : WellFormed typcache.cmp r
  canonical : typcache.IsCanonical r

theorem isStored_emptyRange (typcache : TypeCacheEntry α) : typcache.IsStored emptyRange :=
  ⟨wellFormed_emptyRange _, fun _ _ he => absurd he (by simp [emptyRange])⟩

theorem makeEmptyRange_eq (typcache : TypeCacheEntry α) :
    makeEmptyRange typcache = .ok emptyRange := by
  cases hc : typcache.rngCanonical <;>
    simp [makeEmptyRange, makeRange, rangeSerialize, hc, bind, Except.bind, pure, Except.pure,
      rangeIsEmpty, emptyRange]

/-- A canonical function that looks at each bound by itself. With a finite bound it accepts the
flipped bound on the other side. -/
structure TypeCacheEntry.BoundwiseBy (typcache : TypeCacheEntry α)
    (LowerOk UpperOk : RangeBound α → Prop) : Prop where
  transCmp : Std.TransCmp typcache.cmp
  isCanonical_iff : ∀ {r}, WellFormed typcache.cmp r → r.flags.empty = false →
    (typcache.IsCanonical r ↔ LowerOk (lowerOf r) ∧ UpperOk (upperOf r))
  flip_lower : ∀ {b}, b.infinite = false → LowerOk b → UpperOk b.flip
  flip_upper : ∀ {b}, b.infinite = false → UpperOk b → LowerOk b.flip

/-- The canonical functions of the built-in types look at each bound by itself. -/
theorem boundwiseBy_step {typcache : TypeCacheEntry ℤ} {skip : ℤ → Bool}
    {addOne : ℤ → Except Fault ℤ} (hcmp : typcache.cmp = btintcmp)
    (hcanon : typcache.rngCanonical = some (stepCanonical skip addOne)) :
    typcache.BoundwiseBy (LowerCanonical skip) (UpperCanonical skip) where
  transCmp := by
    rw [hcmp]
    infer_instance
  isCanonical_iff := by
    intro r hr he
    rw [hcmp] at hr
    have hself : stepCanonical skip addOne r = .ok r ↔ _ := stepCanonical_eq_self_iff hr he
    rw [← hself]
    constructor
    · intro h
      exact h _ hcanon he
    · intro h canonical hcanon' _
      obtain rfl := Option.some.inj (hcanon.symm.trans hcanon')
      exact h
  flip_lower := by
    rintro b hfin (hinf | hskip | hinc)
    · simp [hfin] at hinf
    · exact Or.inr (Or.inl hskip)
    · exact Or.inr (Or.inr (by simp [RangeBound.flip, hinc]))
  flip_upper := by
    rintro b hfin (hinf | hskip | hinc)
    · simp [hfin] at hinf
    · exact Or.inr (Or.inl hskip)
    · exact Or.inr (Or.inr (by simp [RangeBound.flip, hinc]))

theorem boundwiseBy_integerRange (addOne : ℤ → Except Fault ℤ)
    (rngSubdiff : Option (ℤ → ℤ → ℚ)) :
    (integerRange addOne rngSubdiff).BoundwiseBy (LowerCanonical fun _ => false)
      (UpperCanonical fun _ => false) :=
  boundwiseBy_step rfl (congrArg some (intRangeCanonical_eq_step addOne))

/-- The canonical integer ranges are stored values. -/
theorem isStored_integerRange {addOne : ℤ → Except Fault ℤ}
    {rngSubdiff : Option (ℤ → ℤ → ℚ)} {r : RangeType ℤ} (h : WellFormed btintcmp r) (n : IntNormal r) :
    (integerRange addOne rngSubdiff).IsStored r := by
  refine ⟨h, fun canonical hcanon he => ?_⟩
  refine ((boundwiseBy_integerRange addOne rngSubdiff).isCanonical_iff h he).mpr ⟨?_, ?_⟩
    canonical hcanon he
  · cases hinf : r.flags.lbInf with
    | true => exact Or.inl hinf
    | false => exact Or.inr (Or.inr (n.lower he hinf))
  · cases hinf : r.flags.ubInf with
    | true => exact Or.inl hinf
    | false => exact Or.inr (Or.inr (n.upper he hinf))

theorem isStored_intBetween {addOne : ℤ → Except Fault ℤ} {rngSubdiff : Option (ℤ → ℤ → ℚ)}
    {a b : ℤ} (hab : a < b) : (integerRange addOne rngSubdiff).IsStored (intBetween a b) :=
  isStored_integerRange (wellFormed_intBetween hab) (intNormal_intBetween hab)

/-- Without a canonical function every bound will do. -/
theorem boundwiseBy_continuous {typcache : TypeCacheEntry α} (htrans : Std.TransCmp typcache.cmp)
    (hnone : typcache.rngCanonical = none) :
    typcache.BoundwiseBy (fun _ => True) (fun _ => True) where
  transCmp := htrans
  isCanonical_iff := by
    intro r _ _
    refine ⟨fun _ => ⟨trivial, trivial⟩, fun _ canonical hcanon => ?_⟩
    simp [hnone] at hcanon
  flip_lower := fun _ _ => trivial
  flip_upper := fun _ _ => trivial

theorem TypeCacheEntry.Regular.boundwise {typcache : TypeCacheEntry α} (h : typcache.Regular) :
    ∃ LowerOk UpperOk, typcache.BoundwiseBy LowerOk UpperOk := by
  cases h with
  | int4range => exact ⟨_, _, boundwiseBy_integerRange _ _⟩
  | int8range => exact ⟨_, _, boundwiseBy_integerRange _ _⟩
  | daterange => exact ⟨_, _, boundwiseBy_step rfl (congrArg some daterangeCanonical_eq_step)⟩
  | continuous _ htrans hnone => exact ⟨_, _, boundwiseBy_continuous htrans hnone⟩

/-! ### Ends that `make_range` packs as they are -/

/-- A lower bound that the canonical function accepts; an infinite one holds nothing else. -/
structure IsLowerEnd (LowerOk : RangeBound α → Prop) (b : RangeBound α) : Prop where
  lower : b.lower = true
  normal : b.infinite = true → b = ⟨default, true, false, true⟩
  ok : LowerOk b

/-- An upper bound that the canonical function accepts; an infinite one holds nothing else. -/
structure IsUpperEnd (UpperOk : RangeBound α → Prop) (b : RangeBound α) : Prop where
  lower : b.lower = false
  normal : b.infinite = true → b = ⟨default, true, false, false⟩
  ok : UpperOk b

section Ends

variable {LowerOk UpperOk : RangeBound α → Prop} {lower upper : RangeBound α}

theorem lowerOf_packRange (hl : IsLowerEnd LowerOk lower) (hu : IsUpperEnd UpperOk upper) :
    lowerOf (packRange lower upper) = lower := by
  rw [lowerOf, rangeDeserialize_packRange hl.lower hu.lower hl.normal hu.normal]

theorem upperOf_packRange (hl : IsLowerEnd LowerOk lower) (hu : IsUpperEnd UpperOk upper) :
    upperOf (packRange lower upper) = upper := by
  rw [upperOf, rangeDeserialize_packRange hl.lower hu.lower hl.normal hu.normal]

end Ends

namespace TypeCacheEntry.BoundwiseBy

variable {typcache : TypeCacheEntry α} {LowerOk UpperOk : RangeBound α → Prop}
  (h : typcache.BoundwiseBy LowerOk UpperOk) {r : RangeType α} {b lower upper : RangeBound α}

include h

theorem lowerEnd (hr : typcache.IsStored r) (he : r.flags.empty = false) :
    IsLowerEnd LowerOk (lowerOf r) :=
  ⟨rfl, hr.wellFormed.proper.lowerOf_normal, ((h.isCanonical_iff hr.wellFormed he).mp hr.canonical).1⟩

theorem upperEnd (hr : typcache.IsStored r) (he : r.flags.empty = false) :
    IsUpperEnd UpperOk (upperOf r) :=
  ⟨rfl, hr.wellFormed.proper.upperOf_normal, ((h.isCanonical_iff hr.wellFormed he).mp hr.canonical).2⟩

theorem upperEnd_flip (hb : IsLowerEnd LowerOk b) (hfin : b.infinite = false) :
    IsUpperEnd UpperOk b.flip where
  lower := by simp [RangeBound.flip, hb.lower]
  normal := fun hinf => absurd (hfin.symm.trans hinf) Bool.false_ne_true
  ok := h.flip_lower hfin hb.ok

theorem lowerEnd_flip (hb : IsUpperEnd UpperOk b) (hfin : b.infinite = false) :
    IsLowerEnd LowerOk b.flip where
  lower := by simp [RangeBound.flip, hb.lower]
  normal := fun hinf => absurd (hfin.symm.trans hinf) Bool.false_ne_true
  ok := h.flip_upper hfin hb.ok

variable (hl : IsLowerEnd LowerOk lower) (hu : IsUpperEnd UpperOk upper)
  (hle : (rangeCmpBounds typcache.cmp lower upper).isLE)

include hl hu hle

theorem isStored_packRange : typcache.IsStored (packRange lower upper) := by
  have hwf : WellFormed typcache.cmp (packRange lower upper) :=
    wellFormed_packRange hl.lower hu.lower hle
  refine ⟨hwf, (h.isCanonical_iff hwf rfl).mpr ?_⟩
  rw [lowerOf_packRange hl hu, upperOf_packRange hl hu]
  exact ⟨hl.ok, hu.ok⟩

/-- `make_range` packs two such ends as they are. -/
theorem makeRange_eq : makeRange typcache lower upper false = .ok (packRange lower upper) := by
  have hstored := h.isStored_packRange hl hu hle
  have hmake := makeRange_of_canonical hstored.wellFormed hstored.canonical
  rwa [lowerOf_packRange hl hu, upperOf_packRange hl hu] at hmake

end TypeCacheEntry.BoundwiseBy

/-! ### Difference -/

section Minus

variable {typcache : TypeCacheEntry α} {r1 r2 : RangeType α}

/-- The difference of non-empty ranges, with the cases of the source in terms of one order: two
of them cut off an end, and there is no other case. -/
theorem rangeMinus_eq [Std.TransCmp typcache.cmp] (he1 : r1.flags.empty = false)
    (he2 : r2.flags.empty = false) :
    rangeMinus typcache r1 r2 =
      if (rangeCmpBounds typcache.cmp (lowerOf r2) (lowerOf r1)).isLE then
        if (rangeCmpBounds typcache.cmp (lowerOf r1) (upperOf r2)).isLE ∧
            (rangeCmpBounds typcache.cmp (lowerOf r2) (upperOf r1)).isLE then
          if (rangeCmpBounds typcache.cmp (upperOf r1) (upperOf r2)).isLE then .ok emptyRange
          else makeRange typcache (upperOf r2).flip (upperOf r1) false
        else .ok r1
      else if (rangeCmpBounds typcache.cmp (upperOf r1) (upperOf r2)).isLE then
        if (rangeCmpBounds typcache.cmp (lowerOf r1) (upperOf r2)).isLE ∧
            (rangeCmpBounds typcache.cmp (lowerOf r2) (upperOf r1)).isLE then
          makeRange typcache (lowerOf r1) (lowerOf r2).flip false
        else .ok r1
      else .error .differenceNotContiguous := by
  have hgt (a b : RangeBound α) : (rangeCmpBounds typcache.cmp a b).isGT =
      !(rangeCmpBounds typcache.cmp a b).isLE := by
    cases rangeCmpBounds typcache.cmp a b <;> rfl
  have hlow := isLE_total (rangeCmpBounds typcache.cmp) (lowerOf r1) (lowerOf r2)
  have hupp := isLE_total (rangeCmpBounds typcache.cmp) (upperOf r1) (upperOf r2)
  simp only [rangeMinus, rangeDeserialize_empty, he1, he2, Bool.or_self, Bool.false_eq_true,
    ↓reduceIte, hgt, isLT_eq_not_isLE, Std.OrientedCmp.isGE_eq_isLE, makeEmptyRange_eq]
  -- all tests are about these six truth values
  generalize (rangeCmpBounds typcache.cmp (lowerOf r1) (lowerOf r2)).isLE = l12 at hlow ⊢
  generalize (rangeCmpBounds typcache.cmp (lowerOf r2) (lowerOf r1)).isLE = l21 at hlow ⊢
  generalize (rangeCmpBounds typcache.cmp (upperOf r1) (upperOf r2)).isLE = u12 at hupp ⊢
  generalize (rangeCmpBounds typcache.cmp (upperOf r2) (upperOf r1)).isLE = u21 at hupp ⊢
  generalize (rangeCmpBounds typcache.cmp (lowerOf r1) (upperOf r2)).isLE = c12
  generalize (rangeCmpBounds typcache.cmp (lowerOf r2) (upperOf r1)).isLE = c21
  revert hlow hupp
  cases l12 <;> cases l21 <;> cases u12 <;> cases u21 <;> cases c12 <;> cases c21 <;>
    first | exact fun _ _ => rfl | simp

variable {LowerOk UpperOk : RangeBound α → Prop}

/-- Cutting off the end that the second range covers: it starts later than the first, and the
first does not outlast it. -/
theorem rangeMinus_keep_lower (h : typcache.BoundwiseBy LowerOk UpperOk)
    (h1 : typcache.IsStored r1) (h2 : typcache.IsStored r2) (he1 : r1.flags.empty = false)
    (he2 : r2.flags.empty = false)
    (hlow : ¬ (rangeCmpBounds typcache.cmp (lowerOf r2) (lowerOf r1)).isLE)
    (hupp : (rangeCmpBounds typcache.cmp (upperOf r1) (upperOf r2)).isLE)
    (hmeet : (rangeCmpBounds typcache.cmp (lowerOf r2) (upperOf r1)).isLE) :
    ∃ r, makeRange typcache (lowerOf r1) (lowerOf r2).flip false = .ok r ∧ ∀ val,
      rangeContainsElemInternal typcache.cmp r val = true ↔
        rangeContainsElemInternal typcache.cmp r1 val = true ∧
          rangeContainsElemInternal typcache.cmp r2 val = false := by
  have := h.transCmp
  -- nothing lies before an infinite lower bound
  have hfin : (lowerOf r2).infinite = false := by
    by_contra hinf
    exact hlow (isLE_of_infinite_lower rfl (by simpa using hinf) _)
  have hl := h.lowerEnd h1 he1
  have hu := h.upperEnd_flip (h.lowerEnd h2 he2) hfin
  have hle : (rangeCmpBounds typcache.cmp (lowerOf r1) (lowerOf r2).flip).isLE :=
    (isLE_flip_iff rfl hfin _).mpr hlow
  refine ⟨_, h.makeRange_eq hl hu hle, fun val => ?_⟩
  rw [rangeContainsElemInternal_packRange hl.lower hu.lower, isLE_flip_iff rfl hfin,
    ← Bool.not_eq_true, rangeContainsElemInternal_iff_bounds, rangeContainsElemInternal_iff_bounds]
  constructor
  · rintro ⟨hlval, hbefore⟩
    have hval := (isLE_total (rangeCmpBounds typcache.cmp) (lowerOf r2) (elementBound val)).resolve_left
      hbefore
    exact ⟨⟨he1, hlval, Std.TransCmp.isLE_trans hval hmeet⟩, fun hin => hbefore hin.2.1⟩
  · rintro ⟨⟨-, hlval, hvalu⟩, hout⟩
    exact ⟨hlval, fun hin => hout ⟨he2, hin, Std.TransCmp.isLE_trans hvalu hupp⟩⟩

/-- Cutting off the start: the second range starts no later than the first, and the first
outlasts it. -/
theorem rangeMinus_keep_upper (h : typcache.BoundwiseBy LowerOk UpperOk)
    (h1 : typcache.IsStored r1) (h2 : typcache.IsStored r2) (he1 : r1.flags.empty = false)
    (he2 : r2.flags.empty = false)
    (hlow : (rangeCmpBounds typcache.cmp (lowerOf r2) (lowerOf r1)).isLE)
    (hupp : ¬ (rangeCmpBounds typcache.cmp (upperOf r1) (upperOf r2)).isLE)
    (hmeet : (rangeCmpBounds typcache.cmp (lowerOf r1) (upperOf r2)).isLE) :
    ∃ r, makeRange typcache (upperOf r2).flip (upperOf r1) false = .ok r ∧ ∀ val,
      rangeContainsElemInternal typcache.cmp r val = true ↔
        rangeContainsElemInternal typcache.cmp r1 val = true ∧
          rangeContainsElemInternal typcache.cmp r2 val = false := by
  have := h.transCmp
  have hfin : (upperOf r2).infinite = false := by
    by_contra hinf
    exact hupp (isLE_of_infinite_upper rfl (by simpa using hinf) _)
  have hl := h.lowerEnd_flip (h.upperEnd h2 he2) hfin
  have hu := h.upperEnd h1 he1
  have hle : (rangeCmpBounds typcache.cmp (upperOf r2).flip (upperOf r1)).isLE :=
    (flip_isLE_iff rfl hfin _).mpr hupp
  refine ⟨_, h.makeRange_eq hl hu hle, fun val => ?_⟩
  rw [rangeContainsElemInternal_packRange hl.lower hu.lower, flip_isLE_iff rfl hfin,
    ← Bool.not_eq_true, rangeContainsElemInternal_iff_bounds, rangeContainsElemInternal_iff_bounds]
  constructor
  · rintro ⟨hbeyond, hvalu⟩
    have hval := (isLE_total (rangeCmpBounds typcache.cmp) (elementBound val) (upperOf r2)).resolve_left
      hbeyond
    exact ⟨⟨he1, Std.TransCmp.isLE_trans hmeet hval, hvalu⟩, fun hin => hbeyond hin.2.2⟩
  · rintro ⟨⟨-, hlval, hvalu⟩, hout⟩
    exact ⟨fun hin => hout ⟨he2, Std.TransCmp.isLE_trans hlow hlval, hin⟩, hvalu⟩

/-- Ranges that do not meet have no element in common. -/
theorem not_contains_of_apart [Std.TransCmp typcache.cmp]
    (hapart : ¬ ((rangeCmpBounds typcache.cmp (lowerOf r1) (upperOf r2)).isLE ∧
      (rangeCmpBounds typcache.cmp (lowerOf r2) (upperOf r1)).isLE)) {val : α}
    (hval : rangeContainsElemInternal typcache.cmp r1 val = true) :
    rangeContainsElemInternal typcache.cmp r2 val = false := by
  rw [rangeContainsElemInternal_iff_bounds] at hval
  rw [← Bool.not_eq_true, rangeContainsElemInternal_iff_bounds]
  rintro ⟨-, hlow2, hupp2⟩
  exact hapart ⟨Std.TransCmp.isLE_trans hval.2.1 hupp2, Std.TransCmp.isLE_trans hlow2 hval.2.2⟩

/-- The difference of non-empty ranges: an error if the second lies strictly inside the first,
and otherwise a range with the right elements. -/
theorem rangeMinus_of_nonempty (h : typcache.BoundwiseBy LowerOk UpperOk)
    (h1 : typcache.IsStored r1) (h2 : typcache.IsStored r2) (he1 : r1.flags.empty = false)
    (he2 : r2.flags.empty = false) :
    if rangeCmpBounds typcache.cmp (lowerOf r1) (lowerOf r2) = .lt ∧
        rangeCmpBounds typcache.cmp (upperOf r1) (upperOf r2) = .gt then
      rangeMinus typcache r1 r2 = .error .differenceNotContiguous
    else ∃ r, rangeMinus typcache r1 r2 = .ok r ∧ ∀ val,
      rangeContainsElemInternal typcache.cmp r val = true ↔
        rangeContainsElemInternal typcache.cmp r1 val = true ∧
          rangeContainsElemInternal typcache.cmp r2 val = false := by
  have := h.transCmp
  have hlt : rangeCmpBounds typcache.cmp (lowerOf r1) (lowerOf r2) = .lt ↔
      ¬ (rangeCmpBounds typcache.cmp (lowerOf r2) (lowerOf r1)).isLE := lt_iff_not_isLE
  have hgt : rangeCmpBounds typcache.cmp (upperOf r1) (upperOf r2) = .gt ↔
      ¬ (rangeCmpBounds typcache.cmp (upperOf r1) (upperOf r2)).isLE := by
    rw [Ordering.isLE_iff_ne_gt, not_not]
  rw [rangeMinus_eq he1 he2]
  by_cases hlow : (rangeCmpBounds typcache.cmp (lowerOf r2) (lowerOf r1)).isLE = true
  · rw [if_neg fun hin => hlt.mp hin.1 hlow, if_pos hlow]
    split_ifs with hmeet hupp
    · -- the second covers the first
      refine ⟨emptyRange, rfl, fun val => ?_⟩
      rw [rangeContainsElemInternal_of_empty rfl, ← Bool.not_eq_true]
      simp only [Bool.false_eq_true, false_iff, rangeContainsElemInternal_iff_bounds]
      rintro ⟨⟨-, hlval, hvalu⟩, hout⟩
      exact hout ⟨he2, Std.TransCmp.isLE_trans hlow hlval, Std.TransCmp.isLE_trans hvalu hupp⟩
    · exact rangeMinus_keep_upper h h1 h2 he1 he2 hlow hupp hmeet.1
    · exact ⟨r1, rfl, fun val => ⟨fun hval => ⟨hval, not_contains_of_apart hmeet hval⟩, And.left⟩⟩
  · rw [if_neg hlow]
    by_cases hupp : (rangeCmpBounds typcache.cmp (upperOf r1) (upperOf r2)).isLE = true
    · rw [if_neg fun hin => hgt.mp hin.2 hupp, if_pos hupp]
      split_ifs with hmeet
      · exact rangeMinus_keep_lower h h1 h2 he1 he2 hlow hupp hmeet.2
      · exact ⟨r1, rfl, fun val => ⟨fun hval => ⟨hval, not_contains_of_apart hmeet hval⟩, And.left⟩⟩
    · rw [if_pos ⟨hlt.mpr hlow, hgt.mpr hupp⟩, if_neg hupp]

/-- `range_minus` is the difference of sets. It raises an error exactly if the second range lies
strictly inside the first, and only this one. -/
theorem rangeMinus_difference (h : typcache.Regular) (h1 : typcache.IsStored r1)
    (h2 : typcache.IsStored r2) :
    (rangeMinus typcache r1 r2 = .error .differenceNotContiguous ↔
      r1.flags.empty = false ∧ r2.flags.empty = false ∧
        rangeCmpBounds typcache.cmp (lowerOf r1) (lowerOf r2) = .lt ∧
        rangeCmpBounds typcache.cmp (upperOf r1) (upperOf r2) = .gt) ∧
    (∀ e, rangeMinus typcache r1 r2 = .error e → e = .differenceNotContiguous) ∧
    ∀ r, rangeMinus typcache r1 r2 = .ok r → ∀ val,
      rangeContainsElemInternal typcache.cmp r val = true ↔
        rangeContainsElemInternal typcache.cmp r1 val = true ∧
          rangeContainsElemInternal typcache.cmp r2 val = false := by
  obtain ⟨LowerOk, UpperOk, hb⟩ := h.boundwise
  by_cases he : r1.flags.empty = false ∧ r2.flags.empty = false
  · obtain ⟨he1, he2⟩ := he
    have hminus := rangeMinus_of_nonempty hb h1 h2 he1 he2
    split_ifs at hminus with hin
    · rw [hminus]
      simp [he1, he2, hin]
    · obtain ⟨r, hr, hval⟩ := hminus
      rw [hr]
      refine ⟨?_, by simp, ?_⟩
      · simpa [he1, he2] using hin
      · rintro r' hr' val
        obtain rfl := Except.ok.inj hr'
        exact hval val
  · -- an empty operand leaves the first as it is
    have hr : rangeMinus typcache r1 r2 = .ok r1 := by
      cases he1 : r1.flags.empty <;> cases he2 : r2.flags.empty <;> simp_all [rangeMinus]
    rw [hr]
    refine ⟨by simpa using fun he1 he2 => absurd ⟨he1, he2⟩ he, by simp, ?_⟩
    rintro r' hr' val
    obtain rfl := Except.ok.inj hr'
    cases he1 : r1.flags.empty with
    | true => simp [rangeContainsElemInternal_of_empty he1]
    | false =>
      have he2 : r2.flags.empty = true := by simpa [he1] using he
      simp [rangeContainsElemInternal_of_empty he2]

end Minus

/-- `[1,5)` without `[3,9)` is `[1,3)`, and holds 2. -/
theorem rangeMinus_difference_overlapping :
    rangeContainsElemInternal int4range.cmp (intBetween 1 3) 2 = true ↔
      rangeContainsElemInternal int4range.cmp (intBetween 1 5) 2 = true ∧
        rangeContainsElemInternal int4range.cmp (intBetween 3 9) 2 = false :=
  (rangeMinus_difference .int4range (isStored_intBetween (by decide))
    (isStored_intBetween (by decide))).2.2 _ (by decide) 2

/-! ### Intersection -/

section Intersect

variable {typcache : TypeCacheEntry α} {r r1 r2 : RangeType α}
  {LowerOk UpperOk : RangeBound α → Prop} {lower upper : RangeBound α}

/-- A non-empty range inside two others, or an element of both, shows that these overlap. -/
theorem overlaps_of_common [Std.TransCmp typcache.cmp] (h1 : WellFormed typcache.cmp r1)
    (h2 : WellFormed typcache.cmp r2) (he1 : r1.flags.empty = false) (he2 : r2.flags.empty = false)
    {b c : RangeBound α} (hbc : (rangeCmpBounds typcache.cmp b c).isLE)
    (hl1 : (rangeCmpBounds typcache.cmp (lowerOf r1) b).isLE)
    (hu1 : (rangeCmpBounds typcache.cmp c (upperOf r1)).isLE)
    (hl2 : (rangeCmpBounds typcache.cmp (lowerOf r2) b).isLE)
    (hu2 : (rangeCmpBounds typcache.cmp c (upperOf r2)).isLE) :
    rangeOverlapsInternal typcache.cmp r1 r2 = true := by
  rw [rangeOverlapsInternal_iff he1 he2 (h1.ordered he1) (h2.ordered he2)]
  exact ⟨Std.TransCmp.isLE_trans hl1 (Std.TransCmp.isLE_trans hbc hu2),
    Std.TransCmp.isLE_trans hl2 (Std.TransCmp.isLE_trans hbc hu1)⟩

theorem nonempty_of_overlaps (hov : rangeOverlapsInternal typcache.cmp r1 r2 = true) :
    r1.flags.empty = false ∧ r2.flags.empty = false := by
  cases he1 : r1.flags.empty <;> cases he2 : r2.flags.empty <;>
    simp_all [rangeOverlapsInternal]

/-- Ranges that overlap: the larger lower and the smaller upper bound make their
intersection. -/
theorem rangeIntersect_of_overlaps (h : typcache.BoundwiseBy LowerOk UpperOk)
    (h1 : typcache.IsStored r1) (h2 : typcache.IsStored r2)
    (hov : rangeOverlapsInternal typcache.cmp r1 r2 = true) :
    ∃ lower upper, IsLowerEnd LowerOk lower ∧ IsUpperEnd UpperOk upper ∧
      rangeIntersect typcache r1 r2 = .ok (packRange lower upper) ∧
      (rangeCmpBounds typcache.cmp lower upper).isLE ∧
      (∀ b, (rangeCmpBounds typcache.cmp lower b).isLE ↔
        (rangeCmpBounds typcache.cmp (lowerOf r1) b).isLE ∧
          (rangeCmpBounds typcache.cmp (lowerOf r2) b).isLE) ∧
      ∀ b, (rangeCmpBounds typcache.cmp b upper).isLE ↔
        (rangeCmpBounds typcache.cmp b (upperOf r1)).isLE ∧
          (rangeCmpBounds typcache.cmp b (upperOf r2)).isLE := by
  have := h.transCmp
  obtain ⟨he1, he2⟩ := nonempty_of_overlaps hov
  have ho1 := h1.wellFormed.ordered he1
  have ho2 := h2.wellFormed.ordered he2
  have hcross := (rangeOverlapsInternal_iff he1 he2 ho1 ho2).mp hov
  set lower := if (rangeCmpBounds typcache.cmp (lowerOf r1) (lowerOf r2)).isGE then lowerOf r1
    else lowerOf r2 with hlower
  set upper := if (rangeCmpBounds typcache.cmp (upperOf r1) (upperOf r2)).isLE then upperOf r1
    else upperOf r2 with hupper
  have hlow (b : RangeBound α) : (rangeCmpBounds typcache.cmp lower b).isLE ↔
      (rangeCmpBounds typcache.cmp (lowerOf r1) b).isLE ∧
        (rangeCmpBounds typcache.cmp (lowerOf r2) b).isLE := max_isLE_iff
  have hupp (b : RangeBound α) : (rangeCmpBounds typcache.cmp b upper).isLE ↔
      (rangeCmpBounds typcache.cmp b (upperOf r1)).isLE ∧
        (rangeCmpBounds typcache.cmp b (upperOf r2)).isLE := isLE_min_iff
  have hle : (rangeCmpBounds typcache.cmp lower upper).isLE := by
    rw [hlow, hupp, hupp]
    exact ⟨⟨ho1, hcross.1⟩, hcross.2, ho2⟩
  have hl : IsLowerEnd LowerOk lower := by
    rw [hlower]
    split_ifs
    · exact h.lowerEnd h1 he1
    · exact h.lowerEnd h2 he2
  have hu : IsUpperEnd UpperOk upper := by
    rw [hupper]
    split_ifs
    · exact h.upperEnd h1 he1
    · exact h.upperEnd h2 he2
  refine ⟨lower, upper, hl, hu, ?_, hle, hlow, hupp⟩
  rw [← h.makeRange_eq hl hu hle]
  simp [rangeIntersect, he1, he2, hov, hlower, hupper]

/-- `range_intersect` raises nothing. It returns the elements in both ranges, which is the
greatest range contained in both, and empty exactly if they do not overlap. -/
theorem rangeIntersect_greatest (h : typcache.Regular) (h1 : typcache.IsStored r1)
    (h2 : typcache.IsStored r2) :
    ∃ r, rangeIntersect typcache r1 r2 = .ok r ∧ typcache.IsStored r ∧
      (∀ val, rangeContainsElemInternal typcache.cmp r val = true ↔
        rangeContainsElemInternal typcache.cmp r1 val = true ∧
          rangeContainsElemInternal typcache.cmp r2 val = true) ∧
      (r.flags.empty = true ↔ rangeOverlapsInternal typcache.cmp r1 r2 = false) ∧
      rangeContainsInternal typcache.cmp r1 r = true ∧
      rangeContainsInternal typcache.cmp r2 r = true ∧
      ∀ r', WellFormed typcache.cmp r' → rangeContainsInternal typcache.cmp r1 r' = true →
        rangeContainsInternal typcache.cmp r2 r' = true →
        rangeContainsInternal typcache.cmp r r' = true := by
  obtain ⟨LowerOk, UpperOk, hb⟩ := h.boundwise
  have := hb.transCmp
  cases hov : rangeOverlapsInternal typcache.cmp r1 r2 with
  | true =>
    obtain ⟨he1, he2⟩ := nonempty_of_overlaps hov
    obtain ⟨lower, upper, hl, hu, hr, hle, hlow, hupp⟩ := rangeIntersect_of_overlaps hb h1 h2 hov
    refine ⟨_, hr, hb.isStored_packRange hl hu hle, ?_, by simp [packRange], ?_, ?_, ?_⟩
    · intro val
      rw [rangeContainsElemInternal_packRange hl.lower hu.lower, hlow, hupp,
        rangeContainsElemInternal_iff_bounds, rangeContainsElemInternal_iff_bounds]
      tauto
    -- a bound is at or above itself, so the two ends are inside both operands
    · rw [rangeContainsInternal_iff rfl, lowerOf_packRange hl hu, upperOf_packRange hl hu]
      exact ⟨he1, ((hlow lower).mp Std.ReflCmp.isLE_rfl).1, ((hupp upper).mp Std.ReflCmp.isLE_rfl).1⟩
    · rw [rangeContainsInternal_iff rfl, lowerOf_packRange hl hu, upperOf_packRange hl hu]
      exact ⟨he2, ((hlow lower).mp Std.ReflCmp.isLE_rfl).2, ((hupp upper).mp Std.ReflCmp.isLE_rfl).2⟩
    · intro r' _ hc1 hc2
      cases he : r'.flags.empty with
      | true => simp [rangeContainsInternal, he]
      | false =>
        rw [rangeContainsInternal_iff he] at hc1 hc2 ⊢
        rw [lowerOf_packRange hl hu, upperOf_packRange hl hu, hlow, hupp]
        exact ⟨rfl, ⟨hc1.2.1, hc2.2.1⟩, hc1.2.2, hc2.2.2⟩
  | false =>
    have hr : rangeIntersect typcache r1 r2 = .ok emptyRange := by
      simp [rangeIntersect, hov, makeEmptyRange_eq]
    have hcontains (r' : RangeType α) : rangeContainsInternal typcache.cmp r' emptyRange = true := by
      simp [rangeContainsInternal, emptyRange]
    refine ⟨_, hr, isStored_emptyRange typcache, ?_, by simp [emptyRange], hcontains r1,
      hcontains r2, ?_⟩
    · intro val
      rw [rangeContainsElemInternal_of_empty rfl]
      simp only [Bool.false_eq_true, false_iff, rangeContainsElemInternal_iff_bounds]
      rintro ⟨⟨he1, hl1, hu1⟩, he2, hl2, hu2⟩
      rw [overlaps_of_common h1.wellFormed h2.wellFormed he1 he2 Std.ReflCmp.isLE_rfl hl1 hu1 hl2
        hu2] at hov
      exact Bool.false_ne_true hov.symm
    · intro r' hr' hc1 hc2
      cases he : r'.flags.empty with
      | true => simp [rangeContainsInternal, he]
      | false =>
        -- a non-empty range inside both would make them overlap
        rw [rangeContainsInternal_iff he] at hc1 hc2
        rw [overlaps_of_common h1.wellFormed h2.wellFormed hc1.1 hc2.1 (hr'.ordered he) hc1.2.1
          hc1.2.2 hc2.2.1 hc2.2.2] at hov
        exact absurd hov.symm Bool.false_ne_true

end Intersect

/-- `[1,5)` and `[3,9)` have a greatest common part. -/
theorem rangeIntersect_greatest_overlapping :
    ∃ r, rangeIntersect int4range (intBetween 1 5) (intBetween 3 9) = .ok r ∧
      int4range.IsStored r := by
  obtain ⟨r, hr, hstored, -⟩ := rangeIntersect_greatest .int4range
    (isStored_intBetween (show 1 < 5 by decide)) (isStored_intBetween (show 3 < 9 by decide))
  exact ⟨r, hr, hstored⟩

end PgRange
