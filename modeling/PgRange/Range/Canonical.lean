import PgRange.Math.CInt
import PgRange.Math.Loop
import PgRange.Range.WellFormed

/-!
# Canonical form

A type with a canonical function keeps its values in a form that the function does not
change. The canonical functions of the built-in types decide each bound by itself: a
finite lower bound becomes inclusive, a finite upper bound exclusive, except that
`daterange` leaves the infinite dates alone. Hence bounds taken from two canonical
values make a canonical value again.

## Main definitions

* `daterangeCanonical`, `daterange` — the built-in type not yet covered
* `TypeCacheEntry.IsCanonical` — the canonical function does not change the value
* `TypeCacheEntry.Regular` — the built-in types and all types without a canonical
  function
* `stepCanonical` — what the three canonical functions have in common

## Main results

* `makeRange_of_canonical` — `make_range` rebuilds a canonical value from its parts
* `makeRange_recombined` — and packs bounds of two canonical values as they are
-/

set_option autoImplicit false

namespace PgRange

open Math

/-! ### `daterange` -/

/-- `DATE_NOT_FINITE`. -/
def dateNotFinite (j : ℤ) : Bool := j == -2147483648 || j == 2147483647

/-- `IS_VALID_DATE`. -/
def isValidDate (d : ℤ) : Bool := 0 - 2451545 ≤ d && d < 2147483494 - 2451545

/-- `date_pli`. -/
def datePli (dateVal days : ℤ) : Except Fault ℤ :=
  if dateNotFinite dateVal then .ok dateVal
  else
    let result := CInt.int32.wrap (dateVal + days)
    if (if days ≥ 0 then decide (result < dateVal) else decide (result > dateVal)) ||
        !isValidDate result then
      .error .dateOutOfRange
    else .ok result

/-- `daterange_canonical`. -/
def daterangeCanonical (r : RangeType ℤ) : Except Fault (RangeType ℤ) := do
  let ⟨lower, upper, empty⟩ := rangeDeserialize r
  if empty then return r
  let lower ←
    if !lower.infinite && !dateNotFinite lower.val && !lower.inclusive then
      do pure { lower with val := ← datePli lower.val 1, inclusive := true }
    else pure lower
  let upper ←
    if !upper.infinite && !dateNotFinite upper.val && upper.inclusive then
      do pure { upper with val := ← datePli upper.val 1, inclusive := false }
    else pure upper
  rangeSerialize btintcmp lower upper false

/-- The type cache entry of `daterange`; `date_cmp` compares as `btint4cmp` does. -/
def daterange : TypeCacheEntry ℤ where
  cmp := btintcmp
  rngCanonical := some daterangeCanonical
  rngSubdiff := some fun v1 v2 => v1 - v2

instance : Std.TransCmp daterange.cmp := inferInstanceAs (Std.TransCmp btintcmp)

/-! ### Canonical values -/

section Canonical

variable {α : Type} [Inhabited α]

/-- The canonical function, if there is one, does not change the value. -/
def TypeCacheEntry.IsCanonical (typcache : TypeCacheEntry α) (r : RangeType α) : Prop :=
  ∀ canonical, typcache.rngCanonical = some canonical → r.flags.empty = false →
    canonical r = .ok r

/-- The built-in range types, and every type without a canonical function over a totally
preordered subtype. -/
inductive TypeCacheEntry.Regular : {α : Type} → [Inhabited α] → TypeCacheEntry α → Prop
  | int4range : Regular int4range
  | int8range : Regular int8range
  | daterange : Regular daterange
  | continuous {α : Type} [Inhabited α] (typcache : TypeCacheEntry α) :
      Std.TransCmp typcache.cmp → typcache.rngCanonical = none → Regular typcache

theorem TypeCacheEntry.Regular.transCmp {typcache : TypeCacheEntry α} (h : typcache.Regular) :
    Std.TransCmp typcache.cmp := by
  cases h with
  | int4range => infer_instance
  | int8range => infer_instance
  | daterange => infer_instance
  | continuous _ htrans _ => exact htrans

variable {typcache : TypeCacheEntry α} {r : RangeType α}

/-- `make_range` rebuilds a canonical value from its parts. -/
theorem makeRange_of_canonical (hr : WellFormed typcache.cmp r) (hcanon : typcache.IsCanonical r) :
    makeRange typcache (lowerOf r) (upperOf r) r.flags.empty = .ok r := by
  unfold makeRange
  rw [hr.rangeSerialize_eq]
  cases hc : typcache.rngCanonical with
  | none => rfl
  | some canonical =>
    cases he : r.flags.empty with
    | true => simp [bind, Except.bind, rangeIsEmpty, he, pure, Except.pure]
    | false => simp [bind, Except.bind, rangeIsEmpty, he, hcanon canonical hc he]

end Canonical

/-! ### What the canonical functions have in common -/

/-- Make a finite lower bound inclusive, adding one if need be, but leave the values
alone that `skip` names. -/
def stepLower (skip : ℤ → Bool) (addOne : ℤ → Except Fault ℤ) (b : RangeBound ℤ) :
    Except Fault (RangeBound ℤ) :=
  if !b.infinite && !skip b.val && !b.inclusive then
    do pure { b with val := ← addOne b.val, inclusive := true }
  else pure b

/-- Make a finite upper bound exclusive in the same way. -/
def stepUpper (skip : ℤ → Bool) (addOne : ℤ → Except Fault ℤ) (b : RangeBound ℤ) :
    Except Fault (RangeBound ℤ) :=
  if !b.infinite && !skip b.val && b.inclusive then
    do pure { b with val := ← addOne b.val, inclusive := false }
  else pure b

/-- Both bounds made canonical. -/
def stepCanonical (skip : ℤ → Bool) (addOne : ℤ → Except Fault ℤ) (r : RangeType ℤ) :
    Except Fault (RangeType ℤ) :=
  if r.flags.empty then .ok r
  else do
    let lower ← stepLower skip addOne (lowerOf r)
    let upper ← stepUpper skip addOne (upperOf r)
    rangeSerialize btintcmp lower upper false

theorem intRangeCanonical_eq_step (addOne : ℤ → Except Fault ℤ) :
    intRangeCanonical addOne = stepCanonical (fun _ => false) addOne := by
  funext r
  simp only [intRangeCanonical, stepCanonical, stepLower, stepUpper, Bool.not_false, Bool.and_true]
  split_ifs <;> simp_all
  rfl

theorem daterangeCanonical_eq_step :
    daterangeCanonical = stepCanonical dateNotFinite fun v => datePli v 1 := by
  funext r
  simp only [daterangeCanonical, stepCanonical, stepLower, stepUpper]
  split_ifs <;> simp_all
  rfl

/-- A lower bound that `stepLower` leaves alone. -/
def LowerCanonical (skip : ℤ → Bool) (b : RangeBound ℤ) : Prop :=
  b.infinite = true ∨ skip b.val = true ∨ b.inclusive = true

/-- An upper bound that `stepUpper` leaves alone. -/
def UpperCanonical (skip : ℤ → Bool) (b : RangeBound ℤ) : Prop :=
  b.infinite = true ∨ skip b.val = true ∨ b.inclusive = false

section Step

variable {skip : ℤ → Bool} {addOne : ℤ → Except Fault ℤ} {b b' : RangeBound ℤ}
  {r r' : RangeType ℤ}

theorem stepLower_of_canonical (h : LowerCanonical skip b) : stepLower skip addOne b = .ok b := by
  unfold stepLower
  rw [if_neg]
  · rfl
  · rcases h with h | h | h <;> simp [h]

theorem stepUpper_of_canonical (h : UpperCanonical skip b) : stepUpper skip addOne b = .ok b := by
  unfold stepUpper
  rw [if_neg]
  · rfl
  · rcases h with h | h | h <;> simp [h]

/-- A bound that is not left alone comes back finite and inclusive. -/
theorem stepLower_cases (h : stepLower skip addOne b = .ok b') :
    b'.lower = b.lower ∧ (LowerCanonical skip b ∧ b' = b ∨
      ¬ LowerCanonical skip b ∧ b'.infinite = false ∧ b'.inclusive = true) := by
  by_cases hcanon : LowerCanonical skip b
  · rw [stepLower_of_canonical hcanon] at h
    obtain rfl := Except.ok.inj h
    exact ⟨rfl, Or.inl ⟨hcanon, rfl⟩⟩
  · have hfin : b.infinite = false ∧ skip b.val = false ∧ b.inclusive = false := by
      simpa [LowerCanonical] using hcanon
    rw [stepLower, if_pos (by simp [hfin])] at h
    obtain ⟨v, -, hv⟩ := bind_eq_ok_iff.mp h
    obtain rfl := Except.ok.inj hv
    exact ⟨rfl, Or.inr ⟨hcanon, hfin.1, rfl⟩⟩

/-- A bound that is not left alone comes back finite and exclusive. -/
theorem stepUpper_cases (h : stepUpper skip addOne b = .ok b') :
    b'.lower = b.lower ∧ (UpperCanonical skip b ∧ b' = b ∨
      ¬ UpperCanonical skip b ∧ b'.infinite = false ∧ b'.inclusive = false) := by
  by_cases hcanon : UpperCanonical skip b
  · rw [stepUpper_of_canonical hcanon] at h
    obtain rfl := Except.ok.inj h
    exact ⟨rfl, Or.inl ⟨hcanon, rfl⟩⟩
  · have hfin : b.infinite = false ∧ skip b.val = false ∧ b.inclusive = true := by
      simpa [UpperCanonical] using hcanon
    rw [stepUpper, if_pos (by simp [hfin])] at h
    obtain ⟨v, -, hv⟩ := bind_eq_ok_iff.mp h
    obtain rfl := Except.ok.inj hv
    exact ⟨rfl, Or.inr ⟨hcanon, hfin.1, rfl⟩⟩

/-- A non-empty range is serialized from its two bounds, each made canonical. -/
theorem stepCanonical_eq_ok_iff (he : r.flags.empty = false) :
    stepCanonical skip addOne r = .ok r' ↔
      ∃ lower, stepLower skip addOne (lowerOf r) = .ok lower ∧
        ∃ upper, stepUpper skip addOne (upperOf r) = .ok upper ∧
          rangeSerialize btintcmp lower upper false = .ok r' := by
  simp only [stepCanonical, he, Bool.false_eq_true, ↓reduceIte, bind_eq_ok_iff]

/-- On a well-formed range, `stepCanonical` changes nothing exactly if it leaves both
bounds alone. -/
theorem stepCanonical_eq_self_iff (hr : WellFormed btintcmp r) (he : r.flags.empty = false) :
    stepCanonical skip addOne r = .ok r ↔
      LowerCanonical skip (lowerOf r) ∧ UpperCanonical skip (upperOf r) := by
  rw [stepCanonical_eq_ok_iff he]
  constructor
  · rintro ⟨lower, hlower, upper, hupper, hser⟩
    obtain ⟨hl, hlc⟩ := stepLower_cases hlower
    obtain ⟨hu, huc⟩ := stepUpper_cases hupper
    rcases (rangeSerialize_eq_ok_iff hl hu).mp hser with ⟨rfl, -⟩ | ⟨rfl, -, -⟩
    · simp [emptyRange] at he
    · -- the flags of the result show whether a bound was changed
      constructor
      · rcases hlc with ⟨hcanon, -⟩ | ⟨-, hinf, hinc⟩
        · exact hcanon
        · exact Or.inr (Or.inr (by simp [packRange, hinf, hinc]))
      · rcases huc with ⟨hcanon, -⟩ | ⟨-, hinf, hinc⟩
        · exact hcanon
        · exact Or.inr (Or.inr (by simp [packRange, hinc]))
  · rintro ⟨hlower, hupper⟩
    refine ⟨_, stepLower_of_canonical hlower, _, stepUpper_of_canonical hupper, ?_⟩
    rw [← he]
    exact hr.rangeSerialize_eq

end Step

/-! ### Recombining bounds -/

section Recombine

variable {α : Type} [Inhabited α]

/-- A bound of a range with proper flags is normal: if it is infinite, it holds nothing
else. -/
theorem RangeFlags.Proper.lowerOf_normal {r : RangeType α} (h : r.flags.Proper)
    (hinf : (lowerOf r).infinite = true) : lowerOf r = ⟨default, true, false, true⟩ := by
  have hinf' : r.flags.lbInf = true := hinf
  simp [lowerOf, rangeDeserialize, RangeFlags.hasLbound, hinf', h.lowerInf hinf']

theorem RangeFlags.Proper.upperOf_normal {r : RangeType α} (h : r.flags.Proper)
    (hinf : (upperOf r).infinite = true) : upperOf r = ⟨default, true, false, false⟩ := by
  have hinf' : r.flags.ubInf = true := hinf
  simp [upperOf, rangeDeserialize, RangeFlags.hasUbound, hinf', h.upperInf hinf']

section

variable {cmp : α → α → Ordering} {r1 r2 : RangeType α}

/-- The range from the lower bound of one well-formed range to the upper bound of
another reads back as these two bounds. -/
theorem rangeDeserialize_recombined (h1 : WellFormed cmp r1) (h2 : WellFormed cmp r2) :
    rangeDeserialize (packRange (lowerOf r1) (upperOf r2)) = ⟨lowerOf r1, upperOf r2, false⟩ :=
  rangeDeserialize_packRange rfl rfl h1.proper.lowerOf_normal h2.proper.upperOf_normal

theorem lowerOf_recombined (h1 : WellFormed cmp r1) (h2 : WellFormed cmp r2) :
    lowerOf (packRange (lowerOf r1) (upperOf r2)) = lowerOf r1 := by
  change (rangeDeserialize _).lower = _
  rw [rangeDeserialize_recombined h1 h2]

theorem upperOf_recombined (h1 : WellFormed cmp r1) (h2 : WellFormed cmp r2) :
    upperOf (packRange (lowerOf r1) (upperOf r2)) = upperOf r2 := by
  change (rangeDeserialize _).upper = _
  rw [rangeDeserialize_recombined h1 h2]

end

/-- A canonical function that decides bound by bound accepts recombined bounds. -/
theorem stepCanonical_recombined {skip : ℤ → Bool} {addOne : ℤ → Except Fault ℤ}
    {v1 v2 : RangeType ℤ} (h1 : WellFormed btintcmp v1) (h2 : WellFormed btintcmp v2)
    (he1 : v1.flags.empty = false) (he2 : v2.flags.empty = false)
    (hc1 : stepCanonical skip addOne v1 = .ok v1) (hc2 : stepCanonical skip addOne v2 = .ok v2)
    (hle : (rangeCmpBounds btintcmp (lowerOf v1) (upperOf v2)).isLE) :
    stepCanonical skip addOne (packRange (lowerOf v1) (upperOf v2)) =
      .ok (packRange (lowerOf v1) (upperOf v2)) := by
  refine (stepCanonical_eq_self_iff (wellFormed_packRange rfl rfl hle) rfl).mpr ?_
  rw [lowerOf_recombined h1 h2, upperOf_recombined h1 h2]
  exact ⟨((stepCanonical_eq_self_iff h1 he1).mp hc1).1, ((stepCanonical_eq_self_iff h2 he2).mp hc2).2⟩

/-- Where the canonical function steps, bounds taken from two canonical values make a
canonical value. -/
theorem isCanonical_recombined_of_step {typcache : TypeCacheEntry ℤ} {skip : ℤ → Bool}
    {addOne : ℤ → Except Fault ℤ} {canonical : RangeType ℤ → Except Fault (RangeType ℤ)}
    (hcanon : typcache.rngCanonical = some canonical)
    (hstep : canonical = stepCanonical skip addOne)
    {v1 v2 : RangeType ℤ} (h1 : WellFormed btintcmp v1) (h2 : WellFormed btintcmp v2)
    (he1 : v1.flags.empty = false) (he2 : v2.flags.empty = false)
    (hc1 : typcache.IsCanonical v1) (hc2 : typcache.IsCanonical v2)
    (hle : (rangeCmpBounds btintcmp (lowerOf v1) (upperOf v2)).isLE) :
    typcache.IsCanonical (packRange (lowerOf v1) (upperOf v2)) := by
  rintro canonical' hcanon' -
  obtain rfl := Option.some.inj (hcanon.symm.trans hcanon')
  have hc1' := hc1 canonical hcanon he1
  have hc2' := hc2 canonical hcanon he2
  rw [hstep] at hc1' hc2' ⊢
  exact stepCanonical_recombined h1 h2 he1 he2 hc1' hc2' hle

variable {typcache : TypeCacheEntry α} {r1 r2 : RangeType α}

/-- For the built-in types, bounds taken from two canonical values make a canonical
value. -/
theorem TypeCacheEntry.Regular.recombined (h : typcache.Regular)
    (h1 : WellFormed typcache.cmp r1) (h2 : WellFormed typcache.cmp r2)
    (he1 : r1.flags.empty = false) (he2 : r2.flags.empty = false)
    (hc1 : typcache.IsCanonical r1) (hc2 : typcache.IsCanonical r2)
    (hle : (rangeCmpBounds typcache.cmp (lowerOf r1) (upperOf r2)).isLE) :
    typcache.IsCanonical (packRange (lowerOf r1) (upperOf r2)) := by
  cases h with
  | continuous _ _ hnone =>
    -- without a canonical function every value is canonical
    rintro canonical hcanon -
    simp [hnone] at hcanon
  | int4range =>
    have hstep := intRangeCanonical_eq_step fun v => int4pl v 1
    exact isCanonical_recombined_of_step rfl hstep h1 h2 he1 he2 hc1 hc2 hle
  | int8range =>
    have hstep := intRangeCanonical_eq_step fun v => int8pl v 1
    exact isCanonical_recombined_of_step rfl hstep h1 h2 he1 he2 hc1 hc2 hle
  | daterange =>
    exact isCanonical_recombined_of_step rfl daterangeCanonical_eq_step h1 h2 he1 he2 hc1 hc2 hle

/-- `make_range` on recombined bounds packs them as they are. -/
theorem makeRange_recombined (h : typcache.Regular)
    (h1 : WellFormed typcache.cmp r1) (h2 : WellFormed typcache.cmp r2)
    (he1 : r1.flags.empty = false) (he2 : r2.flags.empty = false)
    (hc1 : typcache.IsCanonical r1) (hc2 : typcache.IsCanonical r2)
    (hle : (rangeCmpBounds typcache.cmp (lowerOf r1) (upperOf r2)).isLE) :
    makeRange typcache (lowerOf r1) (upperOf r2) false =
      .ok (packRange (lowerOf r1) (upperOf r2)) := by
  have hmake := makeRange_of_canonical (wellFormed_packRange rfl rfl hle)
    (h.recombined h1 h2 he1 he2 hc1 hc2 hle)
  rw [lowerOf_recombined h1 h2, upperOf_recombined h1 h2] at hmake
  exact hmake

end Recombine

end PgRange
