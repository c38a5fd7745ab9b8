import PgRange.Math.CInt
import PgRange.Range.SetMeaning

/-!
# The normal form of `int4range`

`make_range` serializes the bounds it is given, and if the range is not already empty it makes
the lower bound inclusive and the upper bound exclusive, adding one to a bound where need be.
One added to the largest `int4` is the only error, and what comes out is a normal form: it holds
the integers that the given bounds admit, canonicalizing it once more changes nothing, and two
results with the same infinite ends are equal exactly if they hold the same integers.

## Main definitions

* `Int4Bounds`, `Admits` — bounds as they are given, and the integers they admit
* `AddOverflows` — a bound to which one cannot be added
* `Int4Normal` — what `make_range` returns

## Main results

* `makeRange_int4range_cases` — the outcomes of `make_range`
* `Int4Normal.rangeEqInternal_iff` — equal exactly if the same integers are in
* `int4range_normal_form`
-/

set_option autoImplicit false

namespace PgRange

open Math

/-! ### Definitions -/

/-- A lower and an upper bound of `int4range` whose values, where there are two, are in order. -/
structure Int4Bounds (lower upper : RangeBound ℤ) : Prop where
  isLower : lower.lower = true
  isUpper : upper.lower = false
  lowerFits : lower.infinite = false → FitsInt32 lower.val
  upperFits : upper.infinite = false → FitsInt32 upper.val
  ordered : lower.infinite = false → upper.infinite = false → lower.val ≤ upper.val

/-- The integers that two bounds admit. -/
def Admits (lower upper : RangeBound ℤ) (v : ℤ) : Prop :=
  (lower.infinite = true ∨ lower.val < v ∨ lower.val = v ∧ lower.inclusive = true) ∧
    (upper.infinite = true ∨ v < upper.val ∨ v = upper.val ∧ upper.inclusive = true)

/-- One of the bounds needs one added, and is the largest `int4` already. -/
def AddOverflows (lower upper : RangeBound ℤ) : Prop :=
  lower.infinite = false ∧ lower.inclusive = false ∧ lower.val = 2147483647 ∨
    upper.infinite = false ∧ upper.inclusive = true ∧ upper.val = 2147483647

/-- A lower bound after the canonical function. -/
def canonicalLower (b : RangeBound ℤ) : RangeBound ℤ :=
  if b.infinite || b.inclusive then b else { b with val := b.val + 1, inclusive := true }

/-- An upper bound after the canonical function. -/
def canonicalUpper (b : RangeBound ℤ) : RangeBound ℤ :=
  if b.infinite || !b.inclusive then b else { b with val := b.val + 1, inclusive := false }

/-- A value of `int4range`: well-formed, in the integer normal form, with bounds that fit. -/
structure Int4Normal (r : RangeType ℤ) : Prop where
  wellFormed : WellFormed btintcmp r
  normal : IntNormal r
  lowerFits : r.flags.empty = false → r.flags.lbInf = false → FitsInt32 r.lbound
  upperFits : r.flags.empty = false → r.flags.ubInf = false → FitsInt32 r.ubound

/-! ### Bounds that are made canonical -/

section Bounds

variable {b lower upper : RangeBound ℤ}

/-- The bounds admit the integers whose places they enclose. -/
theorem admits_iff (hl : lower.lower = true) (hu : upper.lower = false) {v : ℤ} :
    Admits lower upper v ↔
      (rangeCmpBounds btintcmp lower (elementBound v)).isLE ∧
        (rangeCmpBounds btintcmp (elementBound v) upper).isLE := by
  obtain ⟨a, inf1, inc1, low1⟩ := lower
  obtain ⟨b, inf2, inc2, low2⟩ := upper
  obtain rfl : low1 = true := hl
  obtain rfl : low2 = false := hu
  cases inf1 <;> cases inf2 <;> cases inc1 <;> cases inc2 <;>
    simp [Admits, rangeCmpBounds_eq_cut, RangeBound.cut, elementBound, btintcmp_then_isLE_iff]

@[simp] theorem canonicalLower_lower : (canonicalLower b).lower = b.lower := by
  unfold canonicalLower
  split_ifs <;> rfl

@[simp] theorem canonicalUpper_lower : (canonicalUpper b).lower = b.lower := by
  unfold canonicalUpper
  split_ifs <;> rfl

theorem lowerCanonical_canonicalLower : LowerCanonical (fun _ => false) (canonicalLower b) := by
  unfold canonicalLower
  split_ifs with h
  · simpa [LowerCanonical] using h
  · exact Or.inr (Or.inr rfl)

theorem upperCanonical_canonicalUpper : UpperCanonical (fun _ => false) (canonicalUpper b) := by
  unfold canonicalUpper
  split_ifs with h
  · simpa [UpperCanonical] using h
  · exact Or.inr (Or.inr rfl)

/-- Between an exclusive bound and the next integer there is none, so a bound that is made
canonical admits what it did. -/
theorem canonicalLower_isLE_iff (hb : b.lower = true) {v : ℤ} :
    (rangeCmpBounds btintcmp (canonicalLower b) (elementBound v)).isLE ↔
      (rangeCmpBounds btintcmp b (elementBound v)).isLE := by
  unfold canonicalLower
  split_ifs with h
  · rfl
  · obtain ⟨hinf, hinc⟩ : b.infinite = false ∧ b.inclusive = false := by simpa using h
    simp [rangeCmpBounds_eq_cut, RangeBound.cut, elementBound, btintcmp_then_isLE_iff, hb, hinf, hinc]
    omega

theorem isLE_canonicalUpper_iff (hb : b.lower = false) {v : ℤ} :
    (rangeCmpBounds btintcmp (elementBound v) (canonicalUpper b)).isLE ↔
      (rangeCmpBounds btintcmp (elementBound v) b).isLE := by
  unfold canonicalUpper
  split_ifs with h
  · rfl
  · obtain ⟨hinf, hinc⟩ : b.infinite = false ∧ b.inclusive = true := by simpa using h
    simp [rangeCmpBounds_eq_cut, RangeBound.cut, elementBound, btintcmp_then_isLE_iff, hb, hinf, hinc]
    omega

/-- Bounds in order are not out of order when they are canonical. -/
theorem canonical_values_ne_gt (hl : lower.lower = true) (hu : upper.lower = false)
    (hle : (rangeCmpBounds btintcmp lower upper).isLE) :
    rangeCmpBoundValues btintcmp (canonicalLower lower) (canonicalUpper upper) ≠ .gt := by
  obtain ⟨a, inf1, inc1, low1⟩ := lower
  obtain ⟨b, inf2, inc2, low2⟩ := upper
  obtain rfl : low1 = true := hl
  obtain rfl : low2 = false := hu
  rw [rangeCmpBounds_eq_cut] at hle
  cases inf1 <;> cases inf2 <;> cases inc1 <;> cases inc2 <;>
    simp [canonicalLower, canonicalUpper, rangeCmpBoundValues, RangeBound.cut,
      btintcmp_then_isLE_iff, ← Ordering.isLE_iff_ne_gt, compareInt_isLE_iff] at hle ⊢ <;>
    omega

/-! Adding one. -/

theorem int4pl_one {v : ℤ} (hv : FitsInt32 v) :
    int4pl v 1 = if v = 2147483647 then .error .integerOutOfRange else .ok (v + 1) := by
  unfold FitsInt32 at hv
  unfold int4pl
  split_ifs <;> first | rfl | omega

theorem stepLower_int4 (hfit : b.infinite = false → FitsInt32 b.val) :
    stepLower (fun _ => false) (fun v => int4pl v 1) b =
      if b.infinite = false ∧ b.inclusive = false ∧ b.val = 2147483647 then
        .error .integerOutOfRange
      else .ok (canonicalLower b) := by
  obtain ⟨v, inf, inc, low⟩ := b
  cases inf with
  | true => rfl
  | false =>
    cases inc with
    | true => rfl
    | false =>
      simp only [stepLower, Bool.not_false, Bool.and_self, ↓reduceIte,
        int4pl_one (hfit rfl), true_and]
      split_ifs <;> rfl

theorem stepUpper_int4 (hfit : b.infinite = false → FitsInt32 b.val) :
    stepUpper (fun _ => false) (fun v => int4pl v 1) b =
      if b.infinite = false ∧ b.inclusive = true ∧ b.val = 2147483647 then
        .error .integerOutOfRange
      else .ok (canonicalUpper b) := by
  obtain ⟨v, inf, inc, low⟩ := b
  cases inf with
  | true => rfl
  | false =>
    cases inc with
    | false => rfl
    | true =>
      simp only [stepUpper, Bool.not_false, Bool.and_self, ↓reduceIte,
        int4pl_one (hfit rfl), true_and]
      split_ifs <;> rfl

theorem fitsInt32_add_one {v : ℤ} (hv : FitsInt32 v) (hne : v ≠ 2147483647) :
    FitsInt32 (v + 1) := by
  unfold FitsInt32 at hv ⊢
  omega

/-- A bound to which one can be added still fits. -/
theorem canonicalLower_fits (hfit : b.infinite = false → FitsInt32 b.val)
    (hroom : ¬ (b.infinite = false ∧ b.inclusive = false ∧ b.val = 2147483647))
    (hfin : (canonicalLower b).infinite = false) : FitsInt32 (canonicalLower b).val := by
  unfold canonicalLower at hfin ⊢
  split_ifs at hfin ⊢ with h
  · exact hfit hfin
  · obtain ⟨hinf, hinc⟩ : b.infinite = false ∧ b.inclusive = false := by simpa using h
    exact fitsInt32_add_one (hfit hinf) fun hmax => hroom ⟨hinf, hinc, hmax⟩

theorem canonicalUpper_fits (hfit : b.infinite = false → FitsInt32 b.val)
    (hroom : ¬ (b.infinite = false ∧ b.inclusive = true ∧ b.val = 2147483647))
    (hfin : (canonicalUpper b).infinite = false) : FitsInt32 (canonicalUpper b).val := by
  unfold canonicalUpper at hfin ⊢
  split_ifs at hfin ⊢ with h
  · exact hfit hfin
  · obtain ⟨hinf, hinc⟩ : b.infinite = false ∧ b.inclusive = true := by simpa using h
    exact fitsInt32_add_one (hfit hinf) fun hmax => hroom ⟨hinf, hinc, hmax⟩

end Bounds

/-! ### The canonical function and `make_range` -/

section Make

variable {lower upper : RangeBound ℤ} {r : RangeType ℤ}

/-- The canonical function on a non-empty range. -/
theorem int4rangeCanonical_eq (he : r.flags.empty = false)
    (hl : (lowerOf r).infinite = false → FitsInt32 (lowerOf r).val)
    (hu : (upperOf r).infinite = false → FitsInt32 (upperOf r).val) :
    AddOverflows (lowerOf r) (upperOf r) ∧
        int4rangeCanonical r = .error .integerOutOfRange ∨
      ¬ AddOverflows (lowerOf r) (upperOf r) ∧
        int4rangeCanonical r =
          rangeSerialize btintcmp (canonicalLower (lowerOf r)) (canonicalUpper (upperOf r)) false := by
  rw [int4rangeCanonical, intRangeCanonical_eq_step, stepCanonical, if_neg (by simp [he]),
    stepLower_int4 hl, stepUpper_int4 hu, AddOverflows]
  by_cases hlo : (lowerOf r).infinite = false ∧ (lowerOf r).inclusive = false ∧
      (lowerOf r).val = 2147483647
  · rw [if_pos hlo]
    exact Or.inl ⟨Or.inl hlo, rfl⟩
  · rw [if_neg hlo]
    by_cases hup : (upperOf r).infinite = false ∧ (upperOf r).inclusive = true ∧
        (upperOf r).val = 2147483647
    · rw [if_pos hup]
      exact Or.inl ⟨Or.inr hup, rfl⟩
    · rw [if_neg hup]
      exact Or.inr ⟨not_or.mpr ⟨hlo, hup⟩, rfl⟩

/-- What canonical bounds that fit serialize to. -/
theorem int4Normal_rangeSerialize (hl : lower.lower = true) (hu : upper.lower = false)
    (hlc : LowerCanonical (fun _ => false) lower) (huc : UpperCanonical (fun _ => false) upper)
    (hlf : lower.infinite = false → FitsInt32 lower.val)
    (huf : upper.infinite = false → FitsInt32 upper.val)
    (h : rangeSerialize btintcmp lower upper false = .ok r) : Int4Normal r := by
  refine ⟨rangeSerialize_wellFormed hl hu h, intNormal_rangeSerialize hl hu hlc huc h, ?_, ?_⟩
  · intro he hinf
    rcases (rangeSerialize_eq_ok_iff hl hu).mp h with ⟨rfl, -⟩ | ⟨rfl, -, -⟩
    · simp [emptyRange] at he
    · have hfin : lower.infinite = false := hinf
      simpa [packRange, hfin] using hlf hfin
  · intro he hinf
    rcases (rangeSerialize_eq_ok_iff hl hu).mp h with ⟨rfl, -⟩ | ⟨rfl, -, -⟩
    · simp [emptyRange] at he
    · have hfin : upper.infinite = false := hinf
      simpa [packRange, hfin] using huf hfin

theorem int4Normal_emptyRange : Int4Normal emptyRange :=
  ⟨wellFormed_emptyRange _, intNormal_of_empty rfl, nofun, nofun⟩

/-- The first serialization finds the range empty or packs it. -/
theorem Int4Bounds.rangeSerialize_cases (h : Int4Bounds lower upper) :
    rangeSerialize btintcmp lower upper false = .ok emptyRange ∨
      rangeSerialize btintcmp lower upper false = .ok (packRange lower upper) ∧
        (rangeCmpBounds btintcmp lower upper).isLE := by
  have hne : rangeCmpBoundValues btintcmp lower upper ≠ .gt := by
    obtain ⟨hl, hu, -, -, hord⟩ := h
    obtain ⟨a, inf1, inc1, low1⟩ := lower
    obtain ⟨b, inf2, inc2, low2⟩ := upper
    obtain rfl : low1 = true := hl
    obtain rfl : low2 = false := hu
    cases inf1 <;> cases inf2 <;>
      simp_all [rangeCmpBoundValues, ← Ordering.isLE_iff_ne_gt, compareInt_isLE_iff]
  rw [lower_isLE_upper_iff h.isLower h.isUpper]
  cases hc : rangeCmpBoundValues btintcmp lower upper with
  | gt => exact absurd hc hne
  | lt => exact Or.inr ⟨rangeSerialize_of_lt hc, Or.inl rfl⟩
  | eq =>
    cases hinc : lower.inclusive && upper.inclusive with
    | false => exact Or.inl (by simp [rangeSerialize, hc, hinc])
    | true => exact Or.inr ⟨by simp [rangeSerialize, hc, hinc], Or.inr ⟨rfl, rfl⟩⟩

theorem lowerOf_packRange_val (hfin : (lowerOf (packRange lower upper)).infinite = false) :
    (lowerOf (packRange lower upper)).val = lower.val := by
  have hfin' : lower.infinite = false := hfin
  simp [lowerOf, rangeDeserialize, packRange, RangeFlags.hasLbound, hfin']

theorem upperOf_packRange_val (hfin : (upperOf (packRange lower upper)).infinite = false) :
    (upperOf (packRange lower upper)).val = upper.val := by
  have hfin' : upper.infinite = false := hfin
  simp [upperOf, rangeDeserialize, packRange, RangeFlags.hasUbound, hfin']

theorem addOverflows_packRange :
    AddOverflows (lowerOf (packRange lower upper)) (upperOf (packRange lower upper)) ↔
      AddOverflows lower upper := by
  refine or_congr (and_congr_right fun hfin => ?_) (and_congr_right fun hfin => ?_)
  · have hfin' : lower.infinite = false := hfin
    rw [lowerOf_packRange_val hfin]
    simp [packRange, hfin']
  · have hfin' : upper.infinite = false := hfin
    rw [upperOf_packRange_val hfin]
    simp [packRange, hfin']

theorem exists_rangeSerialize (h : rangeCmpBoundValues btintcmp lower upper ≠ .gt) :
    ∃ r, rangeSerialize btintcmp lower upper false = .ok r := by
  cases hc : rangeCmpBoundValues btintcmp lower upper with
  | gt => exact absurd hc h
  | lt => exact ⟨_, rangeSerialize_of_lt hc⟩
  | eq => cases hinc : lower.inclusive && upper.inclusive <;> simp [rangeSerialize, hc, hinc]

/-- `make_range` returns a value that holds what the bounds admit, or raises an error for lack
of room. -/
theorem makeRange_int4range_cases (h : Int4Bounds lower upper) :
    (rangeSerialize btintcmp lower upper false ≠ .ok emptyRange ∧ AddOverflows lower upper) ∧
        makeRange int4range lower upper false = .error .integerOutOfRange ∨
      ¬ (rangeSerialize btintcmp lower upper false ≠ .ok emptyRange ∧ AddOverflows lower upper) ∧
        ∃ r, makeRange int4range lower upper false = .ok r ∧ Int4Normal r ∧
          ∀ v, rangeContainsElemInternal btintcmp r v = true ↔ Admits lower upper v := by
  have hl := h.isLower
  have hu := h.isUpper
  have hmake : makeRange int4range lower upper false =
      rangeSerialize btintcmp lower upper false >>= fun range =>
        if rangeIsEmpty range then return range else int4rangeCanonical range := rfl
  rcases h.rangeSerialize_cases with hser | ⟨hser, hle⟩
  · refine Or.inr ⟨fun hc => hc.1 hser, emptyRange, by rw [hmake, hser]; rfl,
      int4Normal_emptyRange, fun v => ?_⟩
    rw [rangeContainsElemInternal_rangeSerialize hl hu hser, admits_iff hl hu]
  · have hne : rangeSerialize btintcmp lower upper false ≠ .ok emptyRange := by
      rw [hser]
      simp [packRange, emptyRange]
    have hcanonical : makeRange int4range lower upper false =
        int4rangeCanonical (packRange lower upper) := by
      rw [hmake, hser]
      rfl
    rw [hcanonical]
    -- packing only clears what an infinite bound holds
    have hlf : (lowerOf (packRange lower upper)).infinite = false →
        FitsInt32 (lowerOf (packRange lower upper)).val := by
      intro hfin
      rw [lowerOf_packRange_val hfin]
      exact h.lowerFits hfin
    have huf : (upperOf (packRange lower upper)).infinite = false →
        FitsInt32 (upperOf (packRange lower upper)).val := by
      intro hfin
      rw [upperOf_packRange_val hfin]
      exact h.upperFits hfin
    have hover : AddOverflows (lowerOf (packRange lower upper)) (upperOf (packRange lower upper)) ↔
        AddOverflows lower upper := addOverflows_packRange
    rcases int4rangeCanonical_eq rfl hlf huf with ⟨ho, herr⟩ | ⟨ho, hcanon⟩
    · exact Or.inl ⟨⟨hne, hover.mp ho⟩, herr⟩
    · have hle' : (rangeCmpBounds btintcmp (lowerOf (packRange lower upper))
          (upperOf (packRange lower upper))).isLE := by
        rwa [rangeCmpBounds_eq_cut, lowerOf_packRange_cut hl, upperOf_packRange_cut hu,
          ← rangeCmpBounds_eq_cut]
      obtain ⟨r, hr⟩ := exists_rangeSerialize (canonical_values_ne_gt rfl rfl hle')
      obtain ⟨hroom1, hroom2⟩ := not_or.mp ho
      refine Or.inr ⟨fun hc => ho (hover.mpr hc.2), r, hcanon.trans hr, ?_, fun v => ?_⟩
      · exact int4Normal_rangeSerialize canonicalLower_lower canonicalUpper_lower
          lowerCanonical_canonicalLower upperCanonical_canonicalUpper
          (canonicalLower_fits hlf hroom1) (canonicalUpper_fits huf hroom2) hr
      · rw [rangeContainsElemInternal_rangeSerialize canonicalLower_lower canonicalUpper_lower hr,
          canonicalLower_isLE_iff rfl, isLE_canonicalUpper_iff rfl, admits_iff hl hu]
        simp only [rangeCmpBounds_eq_cut, lowerOf_packRange_cut hl, upperOf_packRange_cut hu]

end Make

/-! ### The normal form decides equality -/

section Equality

variable {r r' : RangeType ℤ}

/-- The bounds of non-empty values with the same infinite ends are level exactly if their finite
bounds are the same. -/
theorem Int4Normal.rangeEqInternal_iff_bounds (h : Int4Normal r) (h' : Int4Normal r')
    (he : r.flags.empty = false) (he' : r'.flags.empty = false)
    (hl : r.flags.lbInf = r'.flags.lbInf) (hu : r.flags.ubInf = r'.flags.ubInf) :
    rangeEqInternal btintcmp r r' = true ↔
      (r.flags.lbInf = false → r.lbound = r'.lbound) ∧
        (r.flags.ubInf = false → r.ubound = r'.ubound) := by
  rw [rangeEqInternal_iff, rangeCmpBounds_eq_cut, rangeCmpBounds_eq_cut,
    h.normal.lowerOf_cut h.wellFormed he, h'.normal.lowerOf_cut h'.wellFormed he',
    h.normal.upperOf_cut h.wellFormed he, h'.normal.upperOf_cut h'.wellFormed he', ← hl, ← hu]
  cases r.flags.lbInf <;> cases r.flags.ubInf <;>
    simp [he, he', compareInt_eq_iff, Ordering.then_eq_eq]

/-- A non-empty value with two finite ends holds an `int4`. -/
theorem Int4Normal.exists_mem (h : Int4Normal r) (he : r.flags.empty = false)
    (hl : r.flags.lbInf = false) :
    FitsInt32 r.lbound ∧ rangeContainsElemInternal btintcmp r r.lbound = true := by
  obtain ⟨x, hx, hxfin, -⟩ := exists_low h.wellFormed h.normal he 0
  rw [hxfin hl] at hx
  exact ⟨h.lowerFits he hl, hx⟩

theorem Int4Normal.lbound_le (h : Int4Normal r) (h' : Int4Normal r') (he : r.flags.empty = false)
    (he' : r'.flags.empty = false) (hl : r.flags.lbInf = false) (hl' : r'.flags.lbInf = false)
    (hsame : ∀ v, FitsInt32 v →
      rangeContainsElemInternal btintcmp r v = rangeContainsElemInternal btintcmp r' v) :
    r'.lbound ≤ r.lbound := by
  obtain ⟨hfit, hmem⟩ := h.exists_mem he hl
  rw [hsame _ hfit] at hmem
  exact ((h'.normal.mem_iff h'.wellFormed he').mp hmem).1 hl'

/-- A value that ends earlier misses an `int4`: its own upper bound. -/
theorem Int4Normal.ubound_le (h : Int4Normal r) (h' : Int4Normal r') (he : r.flags.empty = false)
    (he' : r'.flags.empty = false) (hu : r.flags.ubInf = false)
    (hlow : r'.flags.lbInf = false → r.flags.lbInf = false ∧ r.lbound = r'.lbound)
    (hsame : ∀ v, FitsInt32 v →
      rangeContainsElemInternal btintcmp r v = rangeContainsElemInternal btintcmp r' v) :
    r'.ubound ≤ r.ubound := by
  by_contra hlt
  have hmem' : r.ubound ∈ intElements r' := by
    refine (h'.normal.mem_iff h'.wellFormed he').mpr ⟨fun hl' => ?_, fun _ => by omega⟩
    obtain ⟨hl, heq⟩ := hlow hl'
    rw [← heq]
    exact (h.normal.apart he hl hu).le
  have hmem : r.ubound ∈ intElements r := (hsame _ (h.upperFits he hu)).trans hmem'
  exact lt_irrefl _ (((h.normal.mem_iff h.wellFormed he).mp hmem).2 hu)

/-- Two values with the same infinite ends are equal exactly if they hold the same `int4`
values. -/
theorem Int4Normal.rangeEqInternal_iff (h : Int4Normal r) (h' : Int4Normal r')
    (hl : r.flags.lbInf = r'.flags.lbInf) (hu : r.flags.ubInf = r'.flags.ubInf) :
    rangeEqInternal btintcmp r r' = true ↔
      ∀ v, FitsInt32 v →
        rangeContainsElemInternal btintcmp r v = rangeContainsElemInternal btintcmp r' v := by
  cases he : r.flags.empty with
  | true =>
    cases he' : r'.flags.empty with
    | true => simp [rangeEqInternal, he, he', rangeContainsElemInternal_of_empty]
    | false =>
      -- an empty value has no infinite end, so the other one has none and is not empty
      have hfin : r'.flags.lbInf = false := by
        rw [← hl, h.wellFormed.eq_emptyRange he]
        rfl
      obtain ⟨hfit, hmem⟩ := h'.exists_mem he' hfin
      refine iff_of_false (by simp [rangeEqInternal, he, he']) fun hsame => ?_
      rw [← hsame _ hfit, rangeContainsElemInternal_of_empty he] at hmem
      exact Bool.false_ne_true hmem
  | false =>
    cases he' : r'.flags.empty with
    | true =>
      have hfin : r.flags.lbInf = false := by
        rw [hl, h'.wellFormed.eq_emptyRange he']
        rfl
      obtain ⟨hfit, hmem⟩ := h.exists_mem he hfin
      refine iff_of_false (by simp [rangeEqInternal, he, he']) fun hsame => ?_
      rw [hsame _ hfit, rangeContainsElemInternal_of_empty he'] at hmem
      exact Bool.false_ne_true hmem
    | false =>
      rw [h.rangeEqInternal_iff_bounds h' he he' hl hu]
      constructor
      · rintro ⟨hlow, hupp⟩ v -
        have hmem : v ∈ intElements r ↔ v ∈ intElements r' := by
          rw [h.normal.mem_iff h.wellFormed he, h'.normal.mem_iff h'.wellFormed he', ← hl, ← hu]
          exact and_congr (forall_congr' fun hfin => by rw [hlow hfin])
            (forall_congr' fun hfin => by rw [hupp hfin])
        exact Bool.eq_iff_iff.mpr hmem
      · intro hsame
        have hlow (hfin : r.flags.lbInf = false) : r.lbound = r'.lbound :=
          le_antisymm
            (h'.lbound_le h he' he (hl ▸ hfin) hfin fun v hv => (hsame v hv).symm)
            (h.lbound_le h' he he' hfin (hl ▸ hfin) hsame)
        refine ⟨hlow, fun hfin => le_antisymm ?_ ?_⟩
        · exact h'.ubound_le h he' he (hu ▸ hfin)
            (fun hfin => ⟨hl ▸ hfin, (hlow hfin).symm⟩) fun v hv => (hsame v hv).symm
        · exact h.ubound_le h' he he' hfin
            (fun hfin => ⟨hl ▸ hfin, hlow (hl ▸ hfin)⟩) hsame

end Equality

/-! ### The theorem -/

/-- The canonical function leaves a value of `int4range` alone. -/
theorem Int4Normal.int4rangeCanonical_eq {r : RangeType ℤ} (h : Int4Normal r) :
    int4rangeCanonical r = .ok r := by
  cases he : r.flags.empty with
  | true => simp [int4rangeCanonical, intRangeCanonical_eq_step, stepCanonical, he]
  | false =>
    have hstored : int4range.IsStored r := isStored_integerRange h.wellFormed h.normal
    exact hstored.canonical _ rfl he

/-- `make_range` for `int4range`: when it raises an error, what its result holds, that the result
is canonical, and that results with the same infinite ends are equal exactly if they hold the
same `int4` values. -/
theorem int4range_normal_form {lower upper : RangeBound ℤ} (h : Int4Bounds lower upper) :
    (makeRange int4range lower upper false = .error .integerOutOfRange ↔
      rangeSerialize btintcmp lower upper false ≠ .ok emptyRange ∧ AddOverflows lower upper) ∧
    (makeRange int4range lower upper false ≠ .error .integerOutOfRange →
      ∃ r, makeRange int4range lower upper false = .ok r ∧
        (∀ v, FitsInt32 v →
          (rangeContainsElemInternal int4range.cmp r v = true ↔ Admits lower upper v)) ∧
        int4rangeCanonical r = .ok r) ∧
    ∀ {lower' upper' : RangeBound ℤ} {r r' : RangeType ℤ}, Int4Bounds lower' upper' →
      makeRange int4range lower upper false = .ok r →
      makeRange int4range lower' upper' false = .ok r' →
      r.flags.lbInf = r'.flags.lbInf → r.flags.ubInf = r'.flags.ubInf →
      (rangeEqInternal int4range.cmp r r' = true ↔
        ∀ v, FitsInt32 v → rangeContainsElemInternal int4range.cmp r v =
          rangeContainsElemInternal int4range.cmp r' v) := by
  have hnormal {lower upper : RangeBound ℤ} {r : RangeType ℤ} (h : Int4Bounds lower upper)
      (hr : makeRange int4range lower upper false = .ok r) : Int4Normal r := by
    rcases makeRange_int4range_cases h with ⟨-, herr⟩ | ⟨-, r', hr', hn, -⟩
    · rw [herr] at hr
      exact absurd hr.symm ok_ne_error
    · rw [hr'] at hr
      exact Except.ok.inj hr ▸ hn
  refine ⟨?_, ?_, ?_⟩
  · rcases makeRange_int4range_cases h with ⟨hover, herr⟩ | ⟨hroom, r, hr, -⟩
    · exact iff_of_true herr hover
    · exact iff_of_false (by rw [hr]; exact ok_ne_error) hroom
  · intro hne
    rcases makeRange_int4range_cases h with ⟨-, herr⟩ | ⟨-, r, hr, hn, hval⟩
    · exact absurd herr hne
    · exact ⟨r, hr, fun v _ => hval v, hn.int4rangeCanonical_eq⟩
  · intro lower' upper' r r' h' hr hr' hl hu
    exact (hnormal h hr).rangeEqInternal_iff (hnormal h' hr') hl hu

/-- From `(2147483647,)` there is no next `int4`. -/
theorem int4range_normal_form_largest :
    makeRange int4range ⟨2147483647, false, false, true⟩ ⟨0, true, false, false⟩ false =
      .error .integerOutOfRange :=
  (int4range_normal_form ⟨rfl, rfl, fun _ => ⟨by decide, by decide⟩, by simp, by simp⟩).1.mpr
    ⟨by decide, Or.inl ⟨rfl, rfl, rfl⟩⟩

end PgRange
