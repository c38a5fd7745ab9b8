import PgRange.Range.Construct

/-!
# Operators on ranges

The boolean operators of `rangetypes.c` and the b-tree comparator. All of them
read the two ranges through `range_deserialize` and decide by comparing bounds;
only adjacency can fail, because for a type with a canonical function it builds
the range between the two bounds.

## Main results

* `rangeOverlapsInternal_iff`, `rangeContainsInternal_iff`,
  `rangeContainsElemInternal_iff` — the operators in terms of bound order
* `boundsAdjacent_eq` — for a type without a canonical function, and for the
  integer types on canonical bounds, adjacency raises nothing and holds exactly
  when the bounds carry the same value with opposite inclusiveness
* `rangeAdjacentInternal_eq` — adjacent ranges meet at neighbouring cut points
-/

set_option autoImplicit false

namespace PgRange

open Math

variable {α : Type} [Inhabited α]

/-! ### The functions of the source -/

/-- `range_eq_internal`. -/
def rangeEqInternal (cmp : α → α → Ordering) (r1 r2 : RangeType α) : Bool :=
  let p1 := rangeDeserialize r1
  let p2 := rangeDeserialize r2
  if p1.empty && p2.empty then true
  else if p1.empty != p2.empty then false
  else if rangeCmpBounds cmp p1.lower p2.lower != .eq then false
  else if rangeCmpBounds cmp p1.upper p2.upper != .eq then false
  else true

/-- `range_before_internal`: strictly left of. -/
def rangeBeforeInternal (cmp : α → α → Ordering) (r1 r2 : RangeType α) : Bool :=
  let p1 := rangeDeserialize r1
  let p2 := rangeDeserialize r2
  if p1.empty || p2.empty then false
  else (rangeCmpBounds cmp p1.upper p2.lower).isLT

/-- `range_after_internal`: strictly right of. -/
def rangeAfterInternal (cmp : α → α → Ordering) (r1 r2 : RangeType α) : Bool :=
  let p1 := rangeDeserialize r1
  let p2 := rangeDeserialize r2
  if p1.empty || p2.empty then false
  else (rangeCmpBounds cmp p1.lower p2.upper).isGT

/-- `bounds_adjacent`, for an upper bound `boundA` and a lower bound `boundB`. A
range type with a canonical function is discrete: the code builds the range of
the points in between and asks whether it is empty. -/
def boundsAdjacent (typcache : TypeCacheEntry α) (boundA boundB : RangeBound α) :
    Except Fault Bool :=
  match rangeCmpBoundValues typcache.cmp boundA boundB with
  | .lt =>
    if typcache.rngCanonical.isNone then .ok false
    else do
      let r ← makeRange typcache
        { boundA with inclusive := !boundA.inclusive, lower := true }
        { boundB with inclusive := !boundB.inclusive, lower := false } false
      return rangeIsEmpty r
  | .eq => .ok (boundA.inclusive != boundB.inclusive)
  | .gt => .ok false

/-- `range_adjacent_internal`. -/
def rangeAdjacentInternal (typcache : TypeCacheEntry α) (r1 r2 : RangeType α) :
    Except Fault Bool :=
  let p1 := rangeDeserialize r1
  let p2 := rangeDeserialize r2
  if p1.empty || p2.empty then .ok false
  else do
    if ← boundsAdjacent typcache p1.upper p2.lower then return true
    boundsAdjacent typcache p2.upper p1.lower

/-- `range_overlaps_internal`. -/
def rangeOverlapsInternal (cmp : α → α → Ordering) (r1 r2 : RangeType α) : Bool :=
  let p1 := rangeDeserialize r1
  let p2 := rangeDeserialize r2
  if p1.empty || p2.empty then false
  else if (rangeCmpBounds cmp p1.lower p2.lower).isGE &&
      (rangeCmpBounds cmp p1.lower p2.upper).isLE then true
  else if (rangeCmpBounds cmp p2.lower p1.lower).isGE &&
      (rangeCmpBounds cmp p2.lower p1.upper).isLE then true
  else false

/-- `range_overleft_internal`: does not extend to the right of. -/
def rangeOverleftInternal (cmp : α → α → Ordering) (r1 r2 : RangeType α) : Bool :=
  let p1 := rangeDeserialize r1
  let p2 := rangeDeserialize r2
  if p1.empty || p2.empty then false
  else (rangeCmpBounds cmp p1.upper p2.upper).isLE

/-- `range_overright_internal`: does not extend to the left of. -/
def rangeOverrightInternal (cmp : α → α → Ordering) (r1 r2 : RangeType α) : Bool :=
  let p1 := rangeDeserialize r1
  let p2 := rangeDeserialize r2
  if p1.empty || p2.empty then false
  else (rangeCmpBounds cmp p1.lower p2.lower).isGE

/-- `range_contains_internal`: does `r1` contain `r2`? -/
def rangeContainsInternal (cmp : α → α → Ordering) (r1 r2 : RangeType α) : Bool :=
  let p1 := rangeDeserialize r1
  let p2 := rangeDeserialize r2
  if p2.empty then true
  else if p1.empty then false
  else if (rangeCmpBounds cmp p1.lower p2.lower).isGT then false
  else if (rangeCmpBounds cmp p1.upper p2.upper).isLT then false
  else true

/-- `range_contained_by_internal`. -/
def rangeContainedByInternal (cmp : α → α → Ordering) (r1 r2 : RangeType α) : Bool :=
  rangeContainsInternal cmp r2 r1

/-- `range_contains_elem_internal`. -/
def rangeContainsElemInternal (cmp : α → α → Ordering) (r : RangeType α) (val : α) : Bool :=
  let p := rangeDeserialize r
  if p.empty then false
  else if !p.lower.infinite && (cmp p.lower.val val).isGT then false
  else if !p.lower.infinite && cmp p.lower.val val == .eq && !p.lower.inclusive then false
  else if !p.upper.infinite && (cmp p.upper.val val).isLT then false
  else if !p.upper.infinite && cmp p.upper.val val == .eq && !p.upper.inclusive then false
  else true

/-- `range_cmp`: the b-tree order, with the empty range before all else. -/
def rangeCmp (cmp : α → α → Ordering) (r1 r2 : RangeType α) : Ordering :=
  let p1 := rangeDeserialize r1
  let p2 := rangeDeserialize r2
  if p1.empty && p2.empty then .eq
  else if p1.empty then .lt
  else if p2.empty then .gt
  else
    match rangeCmpBounds cmp p1.lower p2.lower with
    | .eq => rangeCmpBounds cmp p1.upper p2.upper
    | order => order

/-! ### The operators in terms of bound order -/

section Order

/-- The lower bound of `r` as `range_deserialize` returns it. -/
abbrev lowerOf (r : RangeType α) : RangeBound α := (rangeDeserialize r).lower

/-- The upper bound of `r` as `range_deserialize` returns it. -/
abbrev upperOf (r : RangeType α) : RangeBound α := (rangeDeserialize r).upper

variable {cmp : α → α → Ordering} {r1 r2 : RangeType α}

theorem rangeAfterInternal_iff : rangeAfterInternal cmp r1 r2 = true ↔
    r1.flags.empty = false ∧ r2.flags.empty = false ∧
      ¬ (rangeCmpBounds cmp (lowerOf r1) (upperOf r2)).isLE := by
  cases h1 : r1.flags.empty <;> cases h2 : r2.flags.empty <;>
    simp [rangeAfterInternal, h1, h2]

theorem rangeOverleftInternal_iff : rangeOverleftInternal cmp r1 r2 = true ↔
    r1.flags.empty = false ∧ r2.flags.empty = false ∧
      (rangeCmpBounds cmp (upperOf r1) (upperOf r2)).isLE := by
  cases h1 : r1.flags.empty <;> cases h2 : r2.flags.empty <;>
    simp [rangeOverleftInternal, h1, h2]

/-- Equal ranges are both empty, or have level bounds. -/
theorem rangeEqInternal_iff : rangeEqInternal cmp r1 r2 = true ↔
    r1.flags.empty = true ∧ r2.flags.empty = true ∨
      r1.flags.empty = false ∧ r2.flags.empty = false ∧
        rangeCmpBounds cmp (lowerOf r1) (lowerOf r2) = .eq ∧
        rangeCmpBounds cmp (upperOf r1) (upperOf r2) = .eq := by
  cases h1 : r1.flags.empty <;> cases h2 : r2.flags.empty <;>
    simp [rangeEqInternal, h1, h2]

variable [Std.TransCmp cmp]

theorem rangeBeforeInternal_iff : rangeBeforeInternal cmp r1 r2 = true ↔
    r1.flags.empty = false ∧ r2.flags.empty = false ∧
      ¬ (rangeCmpBounds cmp (lowerOf r2) (upperOf r1)).isLE := by
  cases h1 : r1.flags.empty <;> cases h2 : r2.flags.empty <;>
    simp [rangeBeforeInternal, h1, h2, isLT_eq_not_isLE]

theorem rangeOverrightInternal_iff : rangeOverrightInternal cmp r1 r2 = true ↔
    r1.flags.empty = false ∧ r2.flags.empty = false ∧
      (rangeCmpBounds cmp (lowerOf r2) (lowerOf r1)).isLE := by
  cases h1 : r1.flags.empty <;> cases h2 : r2.flags.empty <;>
    simp [rangeOverrightInternal, h1, h2, Std.OrientedCmp.isGE_eq_isLE]

/-- Two non-empty ranges overlap when each starts at or before the end of the
other. -/
theorem rangeOverlapsInternal_iff (h1 : r1.flags.empty = false) (h2 : r2.flags.empty = false)
    (ho1 : (rangeCmpBounds cmp (lowerOf r1) (upperOf r1)).isLE)
    (ho2 : (rangeCmpBounds cmp (lowerOf r2) (upperOf r2)).isLE) :
    rangeOverlapsInternal cmp r1 r2 = true ↔
      (rangeCmpBounds cmp (lowerOf r1) (upperOf r2)).isLE ∧
        (rangeCmpBounds cmp (lowerOf r2) (upperOf r1)).isLE := by
  simp only [rangeOverlapsInternal, rangeDeserialize_empty, h1, h2, Bool.or_self,
    Bool.false_eq_true, ↓reduceIte, Std.OrientedCmp.isGE_eq_isLE]
  constructor
  · intro h
    split_ifs at h with hfirst hsecond
    · rw [Bool.and_eq_true] at hfirst
      exact ⟨hfirst.2, Std.TransCmp.isLE_trans hfirst.1 ho1⟩
    · rw [Bool.and_eq_true] at hsecond
      exact ⟨Std.TransCmp.isLE_trans hsecond.1 ho2, hsecond.2⟩
  · rintro ⟨h12, h21⟩
    -- one of the two ranges starts no earlier than the other
    rcases isLE_total (rangeCmpBounds cmp) (lowerOf r2) (lowerOf r1) with hle | hle
    · rw [hle, h12]
      simp
    · rw [hle, h21]
      simp

/-- Containment of a non-empty range: the container starts no later and ends no
earlier. -/
theorem rangeContainsInternal_iff (h2 : r2.flags.empty = false) :
    rangeContainsInternal cmp r1 r2 = true ↔
      r1.flags.empty = false ∧ (rangeCmpBounds cmp (lowerOf r1) (lowerOf r2)).isLE ∧
        (rangeCmpBounds cmp (upperOf r2) (upperOf r1)).isLE := by
  simp only [rangeContainsInternal, rangeDeserialize_empty, h2, Bool.false_eq_true, ↓reduceIte,
    isLT_eq_not_isLE]
  cases r1.flags.empty
  · cases rangeCmpBounds cmp (lowerOf r1) (lowerOf r2) <;> simp [Ordering.isLE_iff_ne_gt]
  · simp

/-- An element belongs to a range when its place lies between the two bounds. -/
theorem rangeContainsElemInternal_iff (val : α) :
    rangeContainsElemInternal cmp r1 val = true ↔
      r1.flags.empty = false ∧
        (Cut.compareBy cmp (lowerOf r1).cut (.point val 0)).isLE ∧
        (Cut.compareBy cmp (.point val 0) (upperOf r1).cut).isLE := by
  rw [lower_admits_iff rfl, upper_admits_iff rfl]
  simp only [rangeContainsElemInternal]
  cases (lowerOf r1).infinite <;> cases (upperOf r1).infinite <;>
    simp [and_assoc, imp_iff_not_or]

end Order

/-! ### Adjacency

A value of an integer type has canonical bounds, so an upper bound is exclusive
and a lower bound inclusive. Between two such bounds with different values there
is always a point, and the range built to look for one needs no addition. -/

instance : Std.TransCmp int4range.cmp := inferInstanceAs (Std.TransCmp btintcmp)

instance : Std.TransCmp int8range.cmp := inferInstanceAs (Std.TransCmp btintcmp)

/-- The range types with a complete description here: the built-in integer types
and every type without a canonical function over a totally preordered subtype. -/
inductive TypeCacheEntry.Indexable : {α : Type} → [Inhabited α] → TypeCacheEntry α → Prop
  | int4range : Indexable int4range
  | int8range : Indexable int8range
  | continuous {α : Type} [Inhabited α] (typcache : TypeCacheEntry α) :
      Std.TransCmp typcache.cmp → typcache.rngCanonical = none → Indexable typcache

theorem TypeCacheEntry.Indexable.transCmp {typcache : TypeCacheEntry α}
    (h : typcache.Indexable) : Std.TransCmp typcache.cmp := by
  cases h with
  | int4range => infer_instance
  | int8range => infer_instance
  | continuous _ htrans _ => exact htrans

/-- Building the range between two canonical integer bounds in increasing order
raises nothing and does not find it empty. -/
theorem makeRange_int_between (addOne : ℤ → Except Fault ℤ) (subdiff : Option (ℤ → ℤ → ℚ))
    {a b : ℤ} (hab : btintcmp a b = .lt) :
    makeRange ⟨btintcmp, some (intRangeCanonical addOne), subdiff⟩
        ⟨a, false, true, true⟩ ⟨b, false, false, false⟩ false =
      .ok (packRange ⟨a, false, true, true⟩ ⟨b, false, false, false⟩) := by
  have hser : rangeSerialize btintcmp ⟨a, false, true, true⟩ ⟨b, false, false, false⟩ false =
      .ok (packRange ⟨a, false, true, true⟩ ⟨b, false, false, false⟩) :=
    rangeSerialize_of_lt hab
  have hcanon := intRangeCanonical_of_canonical addOne
    (r := packRange ⟨a, false, true, true⟩ ⟨b, false, false, false⟩) rfl (fun _ => rfl)
    (fun _ => rfl)
  rw [rangeDeserialize_packRange rfl rfl (by simp) (by simp), hser] at hcanon
  unfold makeRange
  rw [hser]
  exact hcanon

/-- A gap between canonical integer bounds is never empty. -/
theorem boundsAdjacent_int_of_lt (addOne : ℤ → Except Fault ℤ) (subdiff : Option (ℤ → ℤ → ℚ))
    {a b : ℤ} (hab : btintcmp a b = .lt) :
    boundsAdjacent ⟨btintcmp, some (intRangeCanonical addOne), subdiff⟩
        ⟨a, false, false, false⟩ ⟨b, false, true, true⟩ = .ok false := by
  have hcmp : rangeCmpBoundValues btintcmp (⟨a, false, false, false⟩ : RangeBound ℤ)
      ⟨b, false, true, true⟩ = .lt := hab
  unfold boundsAdjacent
  simp only [hcmp, Option.isNone_some, Bool.false_eq_true, ↓reduceIte, Bool.not_false,
    Bool.not_true]
  rw [makeRange_int_between addOne subdiff hab]
  rfl

omit [Inhabited α] in
/-- An upper bound has a smaller value than a lower bound only if both are
finite. -/
theorem finite_of_upper_lt_lower {cmp : α → α → Ordering} {a b : RangeBound α}
    (ha : a.lower = false) (hb : b.lower = true) (h : rangeCmpBoundValues cmp a b = .lt) :
    a.infinite = false ∧ b.infinite = false ∧ cmp a.val b.val = .lt := by
  obtain ⟨v, inf1, inc1, low1⟩ := a
  obtain ⟨w, inf2, inc2, low2⟩ := b
  obtain rfl : low1 = false := ha
  obtain rfl : low2 = true := hb
  cases inf1 <;> cases inf2 <;> simp_all [rangeCmpBoundValues]

/-- Finite bounds of the values of a type with a canonical function. -/
theorem canonical_bounds {typcache : TypeCacheEntry α} {r1 r2 : RangeType α}
    (h1 : typcache.IsValue r1) (h2 : typcache.IsValue r2) (hcanon : typcache.rngCanonical.isSome)
    (he1 : r1.flags.empty = false) (he2 : r2.flags.empty = false)
    (hfin1 : r1.flags.ubInf = false) (hfin2 : r2.flags.lbInf = false) :
    upperOf r1 = ⟨(upperOf r1).val, false, false, false⟩ ∧
      lowerOf r2 = ⟨(lowerOf r2).val, false, true, true⟩ := by
  have hup := (h1.canonical hcanon he1).2 hfin1
  have hlow := (h2.canonical hcanon he2).1 hfin2
  simp [upperOf, lowerOf, rangeDeserialize, hup, hlow, hfin1, hfin2]

/-- Adjacency of the upper bound of one value and the lower bound of another. -/
theorem boundsAdjacent_eq {typcache : TypeCacheEntry α} (h : typcache.Indexable)
    {r1 r2 : RangeType α} (h1 : typcache.IsValue r1) (h2 : typcache.IsValue r2)
    (he1 : r1.flags.empty = false) (he2 : r2.flags.empty = false) :
    boundsAdjacent typcache (upperOf r1) (lowerOf r2) =
      .ok (rangeCmpBoundValues typcache.cmp (upperOf r1) (lowerOf r2) == .eq &&
        (upperOf r1).inclusive != (lowerOf r2).inclusive) := by
  cases hc : rangeCmpBoundValues typcache.cmp (upperOf r1) (lowerOf r2) with
  | eq => simp [boundsAdjacent, hc]
  | gt => simp [boundsAdjacent, hc]
  | lt =>
    -- there is a gap: a continuous type assumes points in it, an integer type looks
    obtain ⟨hfin1, hfin2, hlt⟩ := finite_of_upper_lt_lower rfl rfl hc
    cases h with
    | continuous _ _ hnone => simp [boundsAdjacent, hc, hnone]
    | int4range =>
      obtain ⟨hup, hlow⟩ := canonical_bounds h1 h2 rfl he1 he2 hfin1 hfin2
      rw [hup, hlow]
      exact boundsAdjacent_int_of_lt _ _ hlt
    | int8range =>
      obtain ⟨hup, hlow⟩ := canonical_bounds h1 h2 rfl he1 he2 hfin1 hfin2
      rw [hup, hlow]
      exact boundsAdjacent_int_of_lt _ _ hlt

/-- Adjacency holds exactly between neighbouring cut points. -/
theorem boundsAdjacent_iff {typcache : TypeCacheEntry α} (h : typcache.Indexable)
    {r1 r2 : RangeType α} (h1 : typcache.IsValue r1) (h2 : typcache.IsValue r2)
    (he1 : r1.flags.empty = false) (he2 : r2.flags.empty = false) :
    boundsAdjacent typcache (upperOf r1) (lowerOf r2) = .ok true ↔
      Cut.Adjacent typcache.cmp (upperOf r1).cut (lowerOf r2).cut := by
  rw [boundsAdjacent_eq h h1 h2 he1 he2, ← adjacent_cut_iff rfl rfl]
  simp

/-- On values, adjacency raises nothing: it holds when one of the ranges starts
right where the other ends. -/
theorem rangeAdjacentInternal_eq {typcache : TypeCacheEntry α} (h : typcache.Indexable)
    {r1 r2 : RangeType α} (h1 : typcache.IsValue r1) (h2 : typcache.IsValue r2)
    (he1 : r1.flags.empty = false) (he2 : r2.flags.empty = false) :
    ∃ b, rangeAdjacentInternal typcache r1 r2 = .ok b ∧
      (b = true ↔ Cut.Adjacent typcache.cmp (upperOf r1).cut (lowerOf r2).cut ∨
        Cut.Adjacent typcache.cmp (upperOf r2).cut (lowerOf r1).cut) := by
  rw [← boundsAdjacent_iff h h1 h2 he1 he2, ← boundsAdjacent_iff h h2 h1 he2 he1]
  simp only [rangeAdjacentInternal, rangeDeserialize_empty, he1, he2, Bool.or_self,
    Bool.false_eq_true, ↓reduceIte, boundsAdjacent_eq h h1 h2 he1 he2,
    boundsAdjacent_eq h h2 h1 he2 he1]
  generalize (rangeCmpBoundValues typcache.cmp (upperOf r1) (lowerOf r2) == .eq &&
    (upperOf r1).inclusive != (lowerOf r2).inclusive) = b1
  generalize (rangeCmpBoundValues typcache.cmp (upperOf r2) (lowerOf r1) == .eq &&
    (upperOf r2).inclusive != (lowerOf r1).inclusive) = b2
  refine ⟨b1 || b2, ?_, by simp⟩
  cases b1 <;> rfl

end PgRange
