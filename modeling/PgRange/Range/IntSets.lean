import Mathlib.Data.Int.ConditionallyCompleteOrder
import Mathlib.Data.Set.Lattice
import Mathlib.Order.CompletePartialOrder
import Mathlib.Order.ConditionallyCompleteLattice.Basic
import Mathlib.Order.Interval.Set.OrdConnected
import PgRange.Range.Elements
import PgRange.Range.Obtainable

/-!
# Integer ranges as sets of integers

A canonical integer range includes its finite lower bound and excludes its finite upper bound,
so a non-empty one holds an integer at each finite end and integers beyond any given one on an
infinite side. With these two facts each comparison of bounds becomes a statement about
elements, and each operator gets the meaning its name promises.

## Main definitions

* `integerRange` — an integer range type with any way to add one
* `intElements` — the set of integers that a range holds

## Main results

* `exists_low`, `exists_high` — elements at the two ends
* `intOperators_sets` — the operators in terms of sets
-/

set_option autoImplicit false

namespace PgRange

open Math

/-- An integer range type. It is `int4range` or `int8range` if `addOne` checks for overflow,
and a type over all the integers if it does not. -/
def integerRange (addOne : ℤ → Except Fault ℤ) (rngSubdiff : Option (ℤ → ℤ → ℚ)) :
    TypeCacheEntry ℤ :=
  ⟨btintcmp, some (intRangeCanonical addOne), rngSubdiff⟩

/-- The integers that a range holds. -/
def intElements (r : RangeType ℤ) : Set ℤ := {v | rangeContainsElemInternal btintcmp r v = true}

/-! ### The bounds of a canonical integer range -/

section Bounds

variable {r r1 r2 : RangeType ℤ}

theorem btintcmp_then_isLE_iff {v w o p : ℤ} :
    ((btintcmp v w).then (compareInt o p)).isLE ↔ v < w ∨ v = w ∧ o ≤ p := by
  rw [Ordering.isLE_then_iff_or, btintcmp, compareInt_lt_iff, compareInt_eq_iff,
    compareInt_isLE_iff]

theorem IntNormal.lowerOf_eq (n : IntNormal r) (h : WellFormed btintcmp r)
    (he : r.flags.empty = false) (hfin : r.flags.lbInf = false) :
    lowerOf r = ⟨r.lbound, false, true, true⟩ := by
  simp [lowerOf, rangeDeserialize, RangeFlags.hasLbound, he, hfin, h.proper.noNull,
    n.lower he hfin]

theorem IntNormal.upperOf_eq (n : IntNormal r) (h : WellFormed btintcmp r)
    (he : r.flags.empty = false) (hfin : r.flags.ubInf = false) :
    upperOf r = ⟨r.ubound, false, false, false⟩ := by
  simp [upperOf, rangeDeserialize, RangeFlags.hasUbound, he, hfin, h.proper.noNull,
    n.upper he hfin]

/-- The canonical lower bound, as the place of its first integer. -/
theorem IntNormal.lowerOf_cut (n : IntNormal r) (h : WellFormed btintcmp r)
    (he : r.flags.empty = false) :
    (lowerOf r).cut = if r.flags.lbInf then .bot else .point r.lbound 0 := by
  cases hinf : r.flags.lbInf with
  | true => simp [RangeBound.cut, hinf]
  | false => simp [n.lowerOf_eq h he hinf, RangeBound.cut]

/-- The canonical upper bound, just below the first integer that is no longer in. -/
theorem IntNormal.upperOf_cut (n : IntNormal r) (h : WellFormed btintcmp r)
    (he : r.flags.empty = false) :
    (upperOf r).cut = if r.flags.ubInf then .top else .point r.ubound (-1) := by
  cases hinf : r.flags.ubInf with
  | true => simp [RangeBound.cut, hinf]
  | false => simp [n.upperOf_eq h he hinf, RangeBound.cut]

/-- The elements of a non-empty range: from the lower bound on and before the upper bound. -/
theorem IntNormal.mem_iff (n : IntNormal r) (h : WellFormed btintcmp r)
    (he : r.flags.empty = false) {v : ℤ} :
    v ∈ intElements r ↔
      (r.flags.lbInf = false → r.lbound ≤ v) ∧ (r.flags.ubInf = false → v < r.ubound) := by
  rw [intElements, Set.mem_ofPred_eq, rangeContainsElemInternal_iff, n.lowerOf_cut h he,
    n.upperOf_cut h he]
  cases r.flags.lbInf <;> cases r.flags.ubInf <;>
    simp [he, btintcmp_then_isLE_iff, ← Int.le_iff_lt_or_eq]

/-! Two canonical ranges, neither of them empty: the comparisons of their bounds. -/

section Pair

variable (h1 : WellFormed btintcmp r1) (n1 : IntNormal r1) (he1 : r1.flags.empty = false)
  (h2 : WellFormed btintcmp r2) (n2 : IntNormal r2) (he2 : r2.flags.empty = false)

include h1 n1 he1 h2 n2 he2

theorem int_lower_isLE_upper_iff :
    (rangeCmpBounds btintcmp (lowerOf r1) (upperOf r2)).isLE ↔
      (r1.flags.lbInf = false → r2.flags.ubInf = false → r1.lbound < r2.ubound) := by
  rw [rangeCmpBounds_eq_cut, n1.lowerOf_cut h1 he1, n2.upperOf_cut h2 he2]
  cases r1.flags.lbInf <;> cases r2.flags.ubInf <;> simp [btintcmp_then_isLE_iff]

theorem int_lower_isLE_lower_iff :
    (rangeCmpBounds btintcmp (lowerOf r1) (lowerOf r2)).isLE ↔
      (r1.flags.lbInf = false → r2.flags.lbInf = false ∧ r1.lbound ≤ r2.lbound) := by
  rw [rangeCmpBounds_eq_cut, n1.lowerOf_cut h1 he1, n2.lowerOf_cut h2 he2]
  cases r1.flags.lbInf <;> cases r2.flags.lbInf <;>
    simp [btintcmp_then_isLE_iff, ← Int.le_iff_lt_or_eq]

theorem int_upper_isLE_upper_iff :
    (rangeCmpBounds btintcmp (upperOf r1) (upperOf r2)).isLE ↔
      (r2.flags.ubInf = false → r1.flags.ubInf = false ∧ r1.ubound ≤ r2.ubound) := by
  rw [rangeCmpBounds_eq_cut, n1.upperOf_cut h1 he1, n2.upperOf_cut h2 he2]
  cases r1.flags.ubInf <;> cases r2.flags.ubInf <;>
    simp [btintcmp_then_isLE_iff, ← Int.le_iff_lt_or_eq]

end Pair

end Bounds

/-- The canonical integer range from `a` up to but without `b`. -/
def intBetween (a b : ℤ) : RangeType ℤ :=
  packRange ⟨a, false, true, true⟩ ⟨b, false, false, false⟩

theorem wellFormed_intBetween {a b : ℤ} (hab : a < b) : WellFormed btintcmp (intBetween a b) := by
  refine wellFormed_packRange rfl rfl ?_
  simp [rangeCmpBounds_eq_cut, RangeBound.cut, btintcmp_then_isLE_iff, hab]

theorem intNormal_intBetween {a b : ℤ} (hab : a < b) : IntNormal (intBetween a b) :=
  ⟨fun _ _ => rfl, fun _ _ => rfl, fun _ _ _ => hab⟩

/-! ### Elements at the ends -/

section Ends

variable {r : RangeType ℤ} (h : WellFormed btintcmp r) (n : IntNormal r)
  (he : r.flags.empty = false)

include h n he

/-- A non-empty range holds its finite lower bound; an infinite one goes down past any `c`. -/
theorem exists_low (c : ℤ) :
    ∃ x ∈ intElements r, (r.flags.lbInf = false → x = r.lbound) ∧
      (r.flags.lbInf = true → x ≤ c) := by
  have hapart := n.apart he
  simp only [n.mem_iff h he]
  cases hl : r.flags.lbInf with
  | false => exact ⟨r.lbound, ⟨fun _ => le_rfl, hapart hl⟩, fun _ => rfl, by simp⟩
  | true =>
    refine ⟨min c (r.ubound - 1), ⟨by simp, fun _ => ?_⟩, by simp, fun _ => min_le_left ..⟩
    omega

/-- A non-empty range holds the integer before its finite upper bound; an infinite one goes up
past any `c`. -/
theorem exists_high (c : ℤ) :
    ∃ x ∈ intElements r, (r.flags.ubInf = false → x = r.ubound - 1) ∧
      (r.flags.ubInf = true → c ≤ x) := by
  have hapart := n.apart he
  simp only [n.mem_iff h he]
  cases hu : r.flags.ubInf with
  | false =>
    refine ⟨r.ubound - 1, ⟨fun hl => ?_, fun _ => by omega⟩, fun _ => rfl, by simp⟩
    have := hapart hl hu
    omega
  | true =>
    exact ⟨max c r.lbound, ⟨fun _ => le_max_right .., by simp⟩, by simp, fun _ => le_max_left ..⟩

theorem intElements_nonempty : (intElements r).Nonempty := by
  obtain ⟨x, hx, -⟩ := exists_low h n he 0
  exact ⟨x, hx⟩

end Ends

/-! ### The comparisons in terms of elements -/

section Sets

variable {r1 r2 : RangeType ℤ}
  (h1 : WellFormed btintcmp r1) (n1 : IntNormal r1) (he1 : r1.flags.empty = false)
  (h2 : WellFormed btintcmp r2) (n2 : IntNormal r2) (he2 : r2.flags.empty = false)

include h1 n1 he1 h2 n2 he2

/-- The first range starts at or before the end of the second: they have elements in that
order. -/
theorem int_lower_isLE_upper_iff_exists :
    (rangeCmpBounds btintcmp (lowerOf r1) (upperOf r2)).isLE ↔
      ∃ x ∈ intElements r1, ∃ y ∈ intElements r2, x ≤ y := by
  rw [int_lower_isLE_upper_iff h1 n1 he1 h2 n2 he2]
  constructor
  · intro hlt
    obtain ⟨y, hy, hyfin, hyinf⟩ := exists_high h2 n2 he2 r1.lbound
    obtain ⟨x, hx, hxfin, hxinf⟩ := exists_low h1 n1 he1 y
    refine ⟨x, hx, y, hy, ?_⟩
    cases hl : r1.flags.lbInf with
    | true => exact hxinf hl
    | false =>
      rw [hxfin hl]
      cases hu : r2.flags.ubInf with
      | true => exact hyinf hu
      | false =>
        have := hlt hl hu
        have := hyfin hu
        omega
  · rintro ⟨x, hx, y, hy, hxy⟩ hl hu
    have hlx := ((n1.mem_iff h1 he1).mp hx).1 hl
    have hyu := ((n2.mem_iff h2 he2).mp hy).2 hu
    omega

/-- The first range ends at or before the end of the second: none of its elements is beyond all
of the second. -/
theorem int_upper_isLE_upper_iff_forall :
    (rangeCmpBounds btintcmp (upperOf r1) (upperOf r2)).isLE ↔
      ∀ x ∈ intElements r1, ∃ y ∈ intElements r2, x ≤ y := by
  rw [int_upper_isLE_upper_iff h1 n1 he1 h2 n2 he2]
  constructor
  · intro hle x hx
    obtain ⟨y, hy, hyfin, hyinf⟩ := exists_high h2 n2 he2 x
    refine ⟨y, hy, ?_⟩
    cases hu : r2.flags.ubInf with
    | true => exact hyinf hu
    | false =>
      obtain ⟨hfin, hle⟩ := hle hu
      have hxu := ((n1.mem_iff h1 he1).mp hx).2 hfin
      have := hyfin hu
      omega
  · intro hall hu
    -- the last element of the first range, or one past the end of the second
    obtain ⟨x, hx, hxfin, hxinf⟩ := exists_high h1 n1 he1 r2.ubound
    obtain ⟨y, hy, hxy⟩ := hall x hx
    have hyu := ((n2.mem_iff h2 he2).mp hy).2 hu
    cases hu1 : r1.flags.ubInf with
    | true =>
      have := hxinf hu1
      omega
    | false =>
      have := hxfin hu1
      exact ⟨rfl, by omega⟩

/-- The first range starts at or after the start of the second: none of its elements is before
all of the second. -/
theorem int_lower_isLE_lower_iff_forall :
    (rangeCmpBounds btintcmp (lowerOf r2) (lowerOf r1)).isLE ↔
      ∀ x ∈ intElements r1, ∃ y ∈ intElements r2, y ≤ x := by
  rw [int_lower_isLE_lower_iff h2 n2 he2 h1 n1 he1]
  constructor
  · intro hle x hx
    obtain ⟨y, hy, hyfin, hyinf⟩ := exists_low h2 n2 he2 x
    refine ⟨y, hy, ?_⟩
    cases hl : r2.flags.lbInf with
    | true => exact hyinf hl
    | false =>
      obtain ⟨hfin, hle⟩ := hle hl
      have hlx := ((n1.mem_iff h1 he1).mp hx).1 hfin
      have := hyfin hl
      omega
  · intro hall hl
    -- the first element of the first range, or one before the start of the second
    obtain ⟨x, hx, hxfin, hxinf⟩ := exists_low h1 n1 he1 (r2.lbound - 1)
    obtain ⟨y, hy, hxy⟩ := hall x hx
    have hly := ((n2.mem_iff h2 he2).mp hy).1 hl
    cases hl1 : r1.flags.lbInf with
    | true =>
      have := hxinf hl1
      omega
    | false =>
      have := hxfin hl1
      exact ⟨rfl, by omega⟩

/-- Ranges that each start at or before the end of the other share an element: the larger of
the two first ones. -/
theorem int_shared_iff :
    (rangeCmpBounds btintcmp (lowerOf r1) (upperOf r2)).isLE ∧
        (rangeCmpBounds btintcmp (lowerOf r2) (upperOf r1)).isLE ↔
      (intElements r1 ∩ intElements r2).Nonempty := by
  constructor
  · rintro ⟨h12, h21⟩
    rw [int_lower_isLE_upper_iff h1 n1 he1 h2 n2 he2] at h12
    rw [int_lower_isLE_upper_iff h2 n2 he2 h1 n1 he1] at h21
    obtain ⟨a, ha, hafin, -⟩ := exists_low h1 n1 he1 0
    obtain ⟨b, hb, hbfin, hbinf⟩ := exists_low h2 n2 he2 a
    have ha' := (n1.mem_iff h1 he1).mp ha
    have hb' := (n2.mem_iff h2 he2).mp hb
    simp only [Set.Nonempty, Set.mem_inter_iff, n1.mem_iff h1 he1, n2.mem_iff h2 he2]
    cases hl1 : r1.flags.lbInf with
    | true =>
      refine ⟨b, ⟨nofun, fun hu => ?_⟩, hb'⟩
      have hau := ha'.2 hu
      cases hl2 : r2.flags.lbInf with
      | true => exact lt_of_le_of_lt (hbinf hl2) hau
      | false =>
        rw [hbfin hl2]
        exact h21 hl2 hu
    | false =>
      obtain rfl := hafin hl1
      cases hl2 : r2.flags.lbInf with
      | true => exact ⟨r1.lbound, ⟨fun _ => le_rfl, ha'.2⟩, nofun, h12 hl1⟩
      | false =>
        obtain rfl := hbfin hl2
        exact ⟨max r1.lbound r2.lbound,
          ⟨fun _ => le_max_left .., fun hu => max_lt (ha'.2 hu) (h21 hl2 hu)⟩,
          fun _ => le_max_right .., fun hu => max_lt (h12 hl1 hu) (hb'.2 hu)⟩
  · rintro ⟨v, hv1, hv2⟩
    exact ⟨(int_lower_isLE_upper_iff_exists h1 n1 he1 h2 n2 he2).mpr ⟨v, hv1, v, hv2, le_rfl⟩,
      (int_lower_isLE_upper_iff_exists h2 n2 he2 h1 n1 he1).mpr ⟨v, hv2, v, hv1, le_rfl⟩⟩

/-- A range contains what starts no earlier and ends no later. -/
theorem int_within_iff :
    (rangeCmpBounds btintcmp (lowerOf r1) (lowerOf r2)).isLE ∧
        (rangeCmpBounds btintcmp (upperOf r2) (upperOf r1)).isLE ↔
      intElements r2 ⊆ intElements r1 := by
  rw [int_lower_isLE_lower_iff_forall h2 n2 he2 h1 n1 he1,
    int_upper_isLE_upper_iff_forall h2 n2 he2 h1 n1 he1]
  constructor
  · rintro ⟨hlow, hhigh⟩ x hx
    obtain ⟨y, hy, hyx⟩ := hlow x hx
    obtain ⟨z, hz, hxz⟩ := hhigh x hx
    rw [n1.mem_iff h1 he1] at hy hz ⊢
    exact ⟨fun hl => (hy.1 hl).trans hyx, fun hu => lt_of_le_of_lt hxz (hz.2 hu)⟩
  · intro hsub
    exact ⟨fun x hx => ⟨x, hsub hx, le_rfl⟩, fun x hx => ⟨x, hsub hx, le_rfl⟩⟩

end Sets

/-! ### Contiguity -/

/-- The first range ends where the second one starts. -/
def Touching (r1 r2 : RangeType ℤ) : Prop :=
  r1.flags.ubInf = false ∧ r2.flags.lbInf = false ∧ r1.ubound = r2.lbound

instance (r1 r2 : RangeType ℤ) : Decidable (Touching r1 r2) :=
  inferInstanceAs (Decidable (_ ∧ _ ∧ _))

section Contiguity

variable {r1 r2 : RangeType ℤ}
  (h1 : WellFormed btintcmp r1) (n1 : IntNormal r1) (he1 : r1.flags.empty = false)
  (h2 : WellFormed btintcmp r2) (n2 : IntNormal r2) (he2 : r2.flags.empty = false)

include h1 n1 he1 h2 n2 he2

/-- Between canonical bounds the range of the points in between is canonical as it is built, so
nothing is added and nothing is raised. -/
theorem boundsAdjacent_integerRange (addOne : ℤ → Except Fault ℤ)
    (rngSubdiff : Option (ℤ → ℤ → ℚ)) :
    boundsAdjacent (integerRange addOne rngSubdiff) (upperOf r1) (lowerOf r2) =
      .ok (decide (Touching r1 r2)) := by
  cases hu : r1.flags.ubInf with
  | true => cases hl : r2.flags.lbInf <;>
      simp [boundsAdjacent, rangeCmpBoundValues, Touching, hu, hl]
  | false =>
    cases hl : r2.flags.lbInf with
    | true => simp [boundsAdjacent, rangeCmpBoundValues, Touching, hu, hl]
    | false =>
      rw [n1.upperOf_eq h1 he1 hu, n2.lowerOf_eq h2 he2 hl]
      rcases lt_trichotomy r1.ubound r2.lbound with hlt | heq | hgt
      · rw [decide_eq_false fun ht : Touching r1 r2 => hlt.ne ht.2.2]
        exact boundsAdjacent_int_of_lt _ _ (compareInt_lt_iff.mpr hlt)
      · simp [boundsAdjacent, rangeCmpBoundValues, integerRange, Touching, hu, hl, heq, compareInt]
      · simp [boundsAdjacent, rangeCmpBoundValues, integerRange, Touching, hgt, compareInt,
          hgt.ne']

/-- Adjacency of canonical integer ranges raises nothing: one of them ends where the other
starts. -/
theorem rangeAdjacentInternal_integerRange (addOne : ℤ → Except Fault ℤ)
    (rngSubdiff : Option (ℤ → ℤ → ℚ)) :
    rangeAdjacentInternal (integerRange addOne rngSubdiff) r1 r2 =
      .ok (decide (Touching r1 r2 ∨ Touching r2 r1)) := by
  rw [rangeAdjacentInternal_of_nonempty he1 he2,
    boundsAdjacent_integerRange h1 n1 he1 h2 n2 he2,
    boundsAdjacent_integerRange h2 n2 he2 h1 n1 he1, Bool.decide_or]
  cases decide (Touching r1 r2) <;> rfl

/-- Ranges with no integer between them make an interval. -/
theorem ordConnected_union
    (h12 : r1.flags.lbInf = false → r2.flags.ubInf = false → r1.lbound ≤ r2.ubound)
    (h21 : r2.flags.lbInf = false → r1.flags.ubInf = false → r2.lbound ≤ r1.ubound) :
    (intElements r1 ∪ intElements r2).OrdConnected := by
  apply Set.ordConnected_def.mpr
  rintro x hx y hy z ⟨hxz, hzy⟩
  simp only [Set.mem_union, n1.mem_iff h1 he1, n2.mem_iff h2 he2] at hx hy ⊢
  by_contra hz
  -- the integer in between misses each range on the side away from the other
  grind

/-- An interval leaves no gap: if the first range ends before the second starts, they touch. -/
theorem touching_of_ordConnected
    (hgap : ¬ (rangeCmpBounds btintcmp (lowerOf r2) (upperOf r1)).isLE)
    (hoc : (intElements r1 ∪ intElements r2).OrdConnected) : Touching r1 r2 := by
  rw [int_lower_isLE_upper_iff h2 n2 he2 h1 n1 he1] at hgap
  push Not at hgap
  obtain ⟨hl, hu, hle⟩ := hgap
  refine ⟨hu, hl, le_antisymm hle ?_⟩
  by_contra hlt
  -- the upper bound of the first lies between its last element and the first of the second
  obtain ⟨x, hx, hxfin, -⟩ := exists_high h1 n1 he1 0
  obtain ⟨y, hy, hyfin, -⟩ := exists_low h2 n2 he2 0
  have hz : r1.ubound ∈ intElements r1 ∪ intElements r2 := by
    refine hoc.out (Or.inl hx) (Or.inr hy) ⟨?_, ?_⟩
    · rw [hxfin hu]
      omega
    · rw [hyfin hl]
      omega
  rcases hz with hz | hz
  · exact lt_irrefl _ (((n1.mem_iff h1 he1).mp hz).2 hu)
  · exact hlt (((n2.mem_iff h2 he2).mp hz).1 hl)

/-- The union of two non-empty ranges is an interval if they share an element or touch. -/
theorem ordConnected_union_iff :
    (intElements r1 ∪ intElements r2).OrdConnected ↔
      (intElements r1 ∩ intElements r2).Nonempty ∨ Touching r1 r2 ∨ Touching r2 r1 := by
  constructor
  · intro hoc
    by_cases h21 : (rangeCmpBounds btintcmp (lowerOf r2) (upperOf r1)).isLE = true
    · by_cases h12 : (rangeCmpBounds btintcmp (lowerOf r1) (upperOf r2)).isLE = true
      · exact Or.inl ((int_shared_iff h1 n1 he1 h2 n2 he2).mp ⟨h12, h21⟩)
      · rw [Set.union_comm] at hoc
        exact Or.inr (Or.inr (touching_of_ordConnected h2 n2 he2 h1 n1 he1 h12 hoc))
    · exact Or.inr (Or.inl (touching_of_ordConnected h1 n1 he1 h2 n2 he2 h21 hoc))
  · have hapart1 := n1.apart he1
    have hapart2 := n2.apart he2
    rintro (hshared | ⟨hu, hl, heq⟩ | ⟨hu, hl, heq⟩)
    · rw [← int_shared_iff h1 n1 he1 h2 n2 he2, int_lower_isLE_upper_iff h1 n1 he1 h2 n2 he2,
        int_lower_isLE_upper_iff h2 n2 he2 h1 n1 he1] at hshared
      exact ordConnected_union h1 n1 he1 h2 n2 he2 (fun a b => (hshared.1 a b).le)
        (fun a b => (hshared.2 a b).le)
    · refine ordConnected_union h1 n1 he1 h2 n2 he2 (fun hl1 hu2 => ?_) (fun _ _ => heq.ge)
      have := hapart1 hl1 hu
      have := hapart2 hl hu2
      omega
    · refine ordConnected_union h1 n1 he1 h2 n2 he2 (fun _ _ => heq.ge) (fun hl2 hu1 => ?_)
      have := hapart1 hl hu1
      have := hapart2 hl2 hu
      omega

/-- Touching ranges have no element in common. -/
theorem disjoint_of_touching (ht : Touching r1 r2) :
    Disjoint (intElements r1) (intElements r2) := by
  refine Set.disjoint_left.mpr fun v hv1 hv2 => ?_
  obtain ⟨hu, hl, heq⟩ := ht
  have := ((n1.mem_iff h1 he1).mp hv1).2 hu
  have := ((n2.mem_iff h2 he2).mp hv2).1 hl
  omega

/-- Two non-empty ranges touch if they are disjoint and together make an interval. -/
theorem touching_iff :
    Touching r1 r2 ∨ Touching r2 r1 ↔
      Disjoint (intElements r1) (intElements r2) ∧
        (intElements r1 ∪ intElements r2).OrdConnected := by
  rw [ordConnected_union_iff h1 n1 he1 h2 n2 he2]
  constructor
  · intro ht
    refine ⟨?_, Or.inr ht⟩
    rcases ht with ht | ht
    · exact disjoint_of_touching h1 n1 he1 h2 n2 he2 ht
    · exact (disjoint_of_touching h2 n2 he2 h1 n1 he1 ht).symm
  · rintro ⟨hdis, hshared | ht⟩
    · exact absurd hdis (Set.not_disjoint_iff_nonempty_inter.mpr hshared)
    · exact ht

end Contiguity

/-! ### The operators -/

section Operators

variable {r r1 r2 : RangeType ℤ}

theorem intElements_of_empty (he : r.flags.empty = true) : intElements r = ∅ := by
  ext v
  simp [intElements, rangeContainsElemInternal_of_empty he]

variable (h1 : WellFormed btintcmp r1) (n1 : IntNormal r1)
  (h2 : WellFormed btintcmp r2) (n2 : IntNormal r2)

include h1 n1 h2 n2

theorem rangeContainsInternal_iff_subset :
    rangeContainsInternal btintcmp r1 r2 = true ↔ intElements r2 ⊆ intElements r1 := by
  cases he2 : r2.flags.empty with
  | true => simp [rangeContainsInternal, he2, intElements_of_empty he2]
  | false =>
    rw [rangeContainsInternal_iff he2]
    cases he1 : r1.flags.empty with
    | true =>
      -- the empty range has no room for an element of the other
      simpa [intElements_of_empty he1] using (intElements_nonempty h2 n2 he2).ne_empty
    | false => simpa using int_within_iff h1 n1 he1 h2 n2 he2

theorem rangeOverlapsInternal_iff_shared :
    rangeOverlapsInternal btintcmp r1 r2 = true ↔
      (intElements r1 ∩ intElements r2).Nonempty := by
  cases he1 : r1.flags.empty with
  | true => simp [rangeOverlapsInternal, he1, intElements_of_empty he1]
  | false =>
    cases he2 : r2.flags.empty with
    | true => simp [rangeOverlapsInternal, he2, intElements_of_empty he2]
    | false =>
      rw [rangeOverlapsInternal_iff he1 he2 (h1.ordered he1) (h2.ordered he2)]
      exact int_shared_iff h1 n1 he1 h2 n2 he2

theorem rangeAdjacentInternal_iff_sets (addOne : ℤ → Except Fault ℤ)
    (rngSubdiff : Option (ℤ → ℤ → ℚ)) :
    ∃ adjacent, rangeAdjacentInternal (integerRange addOne rngSubdiff) r1 r2 = .ok adjacent ∧
      (adjacent = true ↔ r1.flags.empty = false ∧ r2.flags.empty = false ∧
        Disjoint (intElements r1) (intElements r2) ∧
        (intElements r1 ∪ intElements r2).OrdConnected) := by
  cases he1 : r1.flags.empty with
  | true => exact ⟨false, by simp [rangeAdjacentInternal, he1], by simp⟩
  | false =>
    cases he2 : r2.flags.empty with
    | true => exact ⟨false, by simp [rangeAdjacentInternal, he2], by simp⟩
    | false =>
      refine ⟨_, rangeAdjacentInternal_integerRange h1 n1 he1 h2 n2 he2 _ _, ?_⟩
      simpa using touching_iff h1 n1 he1 h2 n2 he2

/-- The boolean operators on canonical integer ranges, in terms of the sets of integers that
the ranges hold. -/
theorem intOperators_sets (addOne : ℤ → Except Fault ℤ) (rngSubdiff : Option (ℤ → ℤ → ℚ)) :
    (rangeContainsInternal btintcmp r1 r2 = true ↔ intElements r2 ⊆ intElements r1) ∧
    (rangeOverlapsInternal btintcmp r1 r2 = true ↔
      (intElements r1 ∩ intElements r2).Nonempty) ∧
    (rangeBeforeInternal btintcmp r1 r2 = true ↔
      r1.flags.empty = false ∧ r2.flags.empty = false ∧
        ∀ x ∈ intElements r1, ∀ y ∈ intElements r2, x < y) ∧
    (rangeAfterInternal btintcmp r1 r2 = true ↔
      r1.flags.empty = false ∧ r2.flags.empty = false ∧
        ∀ x ∈ intElements r1, ∀ y ∈ intElements r2, y < x) ∧
    (rangeOverleftInternal btintcmp r1 r2 = true ↔
      r1.flags.empty = false ∧ r2.flags.empty = false ∧
        ¬ ∃ x ∈ intElements r1, ∀ y ∈ intElements r2, y < x) ∧
    (rangeOverrightInternal btintcmp r1 r2 = true ↔
      r1.flags.empty = false ∧ r2.flags.empty = false ∧
        ¬ ∃ x ∈ intElements r1, ∀ y ∈ intElements r2, x < y) ∧
    ∃ adjacent, rangeAdjacentInternal (integerRange addOne rngSubdiff) r1 r2 = .ok adjacent ∧
      (adjacent = true ↔ r1.flags.empty = false ∧ r2.flags.empty = false ∧
        Disjoint (intElements r1) (intElements r2) ∧
        (intElements r1 ∪ intElements r2).OrdConnected) := by
  refine ⟨rangeContainsInternal_iff_subset h1 n1 h2 n2,
    rangeOverlapsInternal_iff_shared h1 n1 h2 n2, ?_, ?_, ?_, ?_,
    rangeAdjacentInternal_iff_sets h1 n1 h2 n2 addOne rngSubdiff⟩
  -- each of the others is one comparison of bounds of two non-empty ranges
  · refine rangeBeforeInternal_iff.trans (and_congr_right fun he1 => and_congr_right fun he2 => ?_)
    rw [int_lower_isLE_upper_iff_exists h2 n2 he2 h1 n1 he1]
    push Not
    exact ⟨fun h x hx y hy => h y hy x hx, fun h y hy x hx => h x hx y hy⟩
  · refine rangeAfterInternal_iff.trans (and_congr_right fun he1 => and_congr_right fun he2 => ?_)
    rw [int_lower_isLE_upper_iff_exists h1 n1 he1 h2 n2 he2]
    push Not
    rfl
  · refine rangeOverleftInternal_iff.trans
      (and_congr_right fun he1 => and_congr_right fun he2 => ?_)
    rw [int_upper_isLE_upper_iff_forall h1 n1 he1 h2 n2 he2]
    push Not
    rfl
  · refine rangeOverrightInternal_iff.trans
      (and_congr_right fun he1 => and_congr_right fun he2 => ?_)
    rw [int_lower_isLE_lower_iff_forall h1 n1 he1 h2 n2 he2]
    push Not
    rfl

end Operators

/-- `[1,3)` is before `[3,5)`, and so are its elements. -/
theorem intOperators_sets_touching :
    rangeBeforeInternal btintcmp (intBetween 1 3) (intBetween 3 5) = true ∧
      ∀ x ∈ intElements (intBetween 1 3), ∀ y ∈ intElements (intBetween 3 5), x < y :=
  ⟨by decide, ((intOperators_sets (wellFormed_intBetween (by decide))
    (intNormal_intBetween (by decide)) (wellFormed_intBetween (by decide))
    (intNormal_intBetween (by decide)) (fun v => .ok (v + 1)) none).2.2.1.mp (by decide)).2.2⟩

end PgRange
