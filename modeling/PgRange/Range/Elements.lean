import PgRange.Range.WellFormed

/-!
# The elements of a range

An element has a place among the bounds of its type: that of an inclusive bound with its
value. A range holds the elements whose places lie between its two bounds, so what a range
means as a set is a matter of the order of bounds only.

A finite bound can be flipped to the other side. The flipped bound is its neighbour: what lies
before a lower bound is exactly what lies at or before its flip, and nothing is in between.

The order of bounds also settles how two ranges can lie to each other, whatever the subtype.

## Main results

* `rangeContainsElemInternal_iff_bounds` — membership by the order of bounds
* `isLE_flip_iff`, `flip_isLE_iff` — the flip of a bound is its neighbour
* `rangeOperators_trichotomy` — before, overlapping or after
-/

set_option autoImplicit false

namespace PgRange

open Math

variable {α : Type}

/-! ### Elements among bounds -/

/-- The place of an element among the bounds. -/
def elementBound (val : α) : RangeBound α := ⟨val, false, true, true⟩

section Membership

variable [Inhabited α] {cmp : α → α → Ordering} [Std.TransCmp cmp] {r : RangeType α}

/-- An element belongs to a range that is not empty and whose bounds enclose it. -/
theorem rangeContainsElemInternal_iff_bounds (val : α) :
    rangeContainsElemInternal cmp r val = true ↔
      r.flags.empty = false ∧ (rangeCmpBounds cmp (lowerOf r) (elementBound val)).isLE ∧
        (rangeCmpBounds cmp (elementBound val) (upperOf r)).isLE := by
  rw [rangeContainsElemInternal_iff, rangeCmpBounds_eq_cut, rangeCmpBounds_eq_cut]
  rfl

/-- A packed range holds what lies between the bounds it was made from. -/
theorem rangeContainsElemInternal_packRange {lower upper : RangeBound α}
    (hl : lower.lower = true) (hu : upper.lower = false) (val : α) :
    rangeContainsElemInternal cmp (packRange lower upper) val = true ↔
      (rangeCmpBounds cmp lower (elementBound val)).isLE ∧
        (rangeCmpBounds cmp (elementBound val) upper).isLE := by
  rw [rangeContainsElemInternal_iff_bounds]
  -- an infinite bound is stored without its value, at the same place
  simp only [rangeCmpBounds_eq_cut, lowerOf_packRange_cut hl, upperOf_packRange_cut hu]
  exact and_iff_right rfl

/-- So does what `range_serialize` makes of two bounds, empty or not. -/
theorem rangeContainsElemInternal_rangeSerialize {lower upper : RangeBound α}
    (hl : lower.lower = true) (hu : upper.lower = false)
    (h : rangeSerialize cmp lower upper false = .ok r) (val : α) :
    rangeContainsElemInternal cmp r val = true ↔
      (rangeCmpBounds cmp lower (elementBound val)).isLE ∧
        (rangeCmpBounds cmp (elementBound val) upper).isLE := by
  rcases (rangeSerialize_eq_ok_iff hl hu).mp h with ⟨rfl, hempty⟩ | ⟨rfl, -, -⟩
  · -- an element between the bounds would put them in order
    refine iff_of_false (by simp [rangeContainsElemInternal, emptyRange]) fun hval => ?_
    have hle := (lower_isLE_upper_iff hl hu).mp (Std.TransCmp.isLE_trans hval.1 hval.2)
    rcases hle with hlt | ⟨-, hinc⟩ <;> simp_all
  · exact rangeContainsElemInternal_packRange hl hu val

omit [Std.TransCmp cmp] in
theorem rangeContainsElemInternal_of_empty (he : r.flags.empty = true) (val : α) :
    rangeContainsElemInternal cmp r val = false := by
  simp [rangeContainsElemInternal, he]

end Membership

/-! ### Flipped bounds -/

/-- The bound of the other side that is next to this one: the code flips a bound to end one
range where another one starts. -/
def RangeBound.flip (b : RangeBound α) : RangeBound α :=
  { b with inclusive := !b.inclusive, lower := !b.lower }

section Flip

variable {cmp : α → α → Ordering} [Std.TransCmp cmp] {b : RangeBound α}

theorem adjacent_flip_lower (hb : b.lower = true) (hfin : b.infinite = false) :
    Cut.Adjacent cmp b.flip.cut b.cut := by
  refine (adjacent_cut_iff (by simp [RangeBound.flip, hb]) hb).mp ⟨?_, by simp [RangeBound.flip]⟩
  simp [rangeCmpBoundValues, RangeBound.flip, hfin, Std.ReflCmp.compare_self]

theorem adjacent_flip_upper (hb : b.lower = false) (hfin : b.infinite = false) :
    Cut.Adjacent cmp b.cut b.flip.cut := by
  refine (adjacent_cut_iff hb (by simp [RangeBound.flip, hb])).mp ⟨?_, by simp [RangeBound.flip]⟩
  simp [rangeCmpBoundValues, RangeBound.flip, hfin, Std.ReflCmp.compare_self]

omit [Std.TransCmp cmp] in
/-- An infinite lower bound is at or before every bound, -/
theorem isLE_of_infinite_lower (hb : b.lower = true) (hinf : b.infinite = true)
    (c : RangeBound α) : (rangeCmpBounds cmp b c).isLE := by
  have hbot : b.cut = .bot := by simp [RangeBound.cut, hb, hinf]
  rw [rangeCmpBounds_eq_cut, hbot]
  cases c.cut <;> rfl

omit [Std.TransCmp cmp] in
/-- and every bound is at or before an infinite upper bound. -/
theorem isLE_of_infinite_upper (hb : b.lower = false) (hinf : b.infinite = true)
    (c : RangeBound α) : (rangeCmpBounds cmp c b).isLE := by
  have htop : b.cut = .top := by simp [RangeBound.cut, hb, hinf]
  rw [rangeCmpBounds_eq_cut, htop]
  cases c.cut <;> rfl

/-- What lies at or before the flip of a lower bound lies before the bound. -/
theorem isLE_flip_iff (hb : b.lower = true) (hfin : b.infinite = false) (c : RangeBound α) :
    (rangeCmpBounds cmp c b.flip).isLE ↔ ¬ (rangeCmpBounds cmp b c).isLE := by
  have hadj : Cut.Adjacent cmp b.flip.cut b.cut := adjacent_flip_lower hb hfin
  rw [← lt_iff_not_isLE, rangeCmpBounds_eq_cut, rangeCmpBounds_eq_cut]
  constructor
  · intro hle
    exact Std.TransCmp.lt_of_isLE_of_lt hle hadj.lt
  · intro hlt
    exact hadj.isLE_left hlt

/-- What lies at or after the flip of an upper bound lies after the bound. -/
theorem flip_isLE_iff (hb : b.lower = false) (hfin : b.infinite = false) (c : RangeBound α) :
    (rangeCmpBounds cmp b.flip c).isLE ↔ ¬ (rangeCmpBounds cmp c b).isLE := by
  have hadj : Cut.Adjacent cmp b.cut b.flip.cut := adjacent_flip_upper hb hfin
  rw [← lt_iff_not_isLE, rangeCmpBounds_eq_cut, rangeCmpBounds_eq_cut]
  constructor
  · intro hle
    exact Std.TransCmp.lt_of_lt_of_isLE hadj.lt hle
  · intro hlt
    exact hadj.isLE_right hlt

end Flip

/-! ### How two ranges can lie to each other -/

section Trichotomy

variable [Inhabited α] {typcache : TypeCacheEntry α} [Std.TransCmp typcache.cmp]
  {r1 r2 : RangeType α}

omit [Inhabited α] in
/-- An upper bound whose value is at most that of a lower bound, level values excepted if both
are inclusive, is before it. -/
theorem upper_lt_lower_of_values {cmp : α → α → Ordering} [Std.TransCmp cmp]
    {a b : RangeBound α} (ha : a.lower = false) (hb : b.lower = true)
    (h : rangeCmpBoundValues cmp a b = .lt ∨
      rangeCmpBoundValues cmp a b = .eq ∧ a.inclusive ≠ b.inclusive) :
    ¬ (rangeCmpBounds cmp b a).isLE := by
  rw [← lt_iff_not_isLE]
  rcases h with hlt | heq
  · obtain ⟨hfin1, hfin2, hval⟩ := finite_of_upper_lt_lower ha hb hlt
    simp [rangeCmpBounds, hfin1, hfin2, hval]
  · rw [rangeCmpBounds_eq_cut]
    exact ((adjacent_cut_iff ha hb).mp heq).lt

/-- Adjacent bounds leave no room for an overlap, whatever the canonical function does. -/
theorem not_isLE_of_boundsAdjacent {a b : RangeBound α} (ha : a.lower = false)
    (hb : b.lower = true) (h : boundsAdjacent typcache a b = .ok true) :
    ¬ (rangeCmpBounds typcache.cmp b a).isLE := by
  refine upper_lt_lower_of_values ha hb ?_
  cases hc : rangeCmpBoundValues typcache.cmp a b with
  | lt => exact Or.inl rfl
  | eq =>
    simp only [boundsAdjacent, hc, Except.ok.injEq] at h
    exact Or.inr ⟨rfl, by simpa using h⟩
  | gt => simp [boundsAdjacent, hc] at h

/-- Where a lower bound is at or before an upper bound, the two are not adjacent, and the test
says so without building a range. -/
theorem boundsAdjacent_of_isLE {a b : RangeBound α} (ha : a.lower = false) (hb : b.lower = true)
    (h : (rangeCmpBounds typcache.cmp b a).isLE) : boundsAdjacent typcache a b = .ok false := by
  have hnot : ¬ (rangeCmpBoundValues typcache.cmp a b = .lt ∨
      rangeCmpBoundValues typcache.cmp a b = .eq ∧ a.inclusive ≠ b.inclusive) :=
    fun hval => upper_lt_lower_of_values ha hb hval h
  rw [not_or] at hnot
  cases hc : rangeCmpBoundValues typcache.cmp a b with
  | lt => exact absurd hc hnot.1
  | eq =>
    have hinc : a.inclusive = b.inclusive := by
      by_contra hne
      exact hnot.2 ⟨hc, hne⟩
    simp [boundsAdjacent, hc, hinc]
  | gt => simp [boundsAdjacent, hc]

/-- Of two non-empty ranges in order, one cannot end before the other starts both ways. -/
theorem isLE_or_isLE (ho1 : (rangeCmpBounds typcache.cmp (lowerOf r1) (upperOf r1)).isLE)
    (ho2 : (rangeCmpBounds typcache.cmp (lowerOf r2) (upperOf r2)).isLE) :
    (rangeCmpBounds typcache.cmp (lowerOf r1) (upperOf r2)).isLE ∨
      (rangeCmpBounds typcache.cmp (lowerOf r2) (upperOf r1)).isLE := by
  rcases isLE_total (rangeCmpBounds typcache.cmp) (lowerOf r1) (lowerOf r2) with hle | hle
  · exact Or.inl (Std.TransCmp.isLE_trans hle ho2)
  · exact Or.inr (Std.TransCmp.isLE_trans hle ho1)

omit [Std.TransCmp typcache.cmp] in
/-- Adjacency of non-empty ranges: the second test is made only if the first one fails. -/
theorem rangeAdjacentInternal_of_nonempty (he1 : r1.flags.empty = false)
    (he2 : r2.flags.empty = false) :
    rangeAdjacentInternal typcache r1 r2 = (do
      if ← boundsAdjacent typcache (upperOf r1) (lowerOf r2) then return true
      boundsAdjacent typcache (upperOf r2) (lowerOf r1)) := by
  simp only [rangeAdjacentInternal, rangeDeserialize_empty, he1, he2, Bool.or_self,
    Bool.false_eq_true, ↓reduceIte]

/-- At most one of the two tests of adjacency builds a range, so their order does not matter,
even if building it raises an error. -/
theorem rangeAdjacentInternal_comm (he1 : r1.flags.empty = false) (he2 : r2.flags.empty = false)
    (ho1 : (rangeCmpBounds typcache.cmp (lowerOf r1) (upperOf r1)).isLE)
    (ho2 : (rangeCmpBounds typcache.cmp (lowerOf r2) (upperOf r2)).isLE) :
    rangeAdjacentInternal typcache r1 r2 = rangeAdjacentInternal typcache r2 r1 := by
  rw [rangeAdjacentInternal_of_nonempty he1 he2, rangeAdjacentInternal_of_nonempty he2 he1]
  rcases isLE_or_isLE ho1 ho2 with hle | hle
  · rw [boundsAdjacent_of_isLE rfl rfl hle]
    rcases boundsAdjacent typcache (upperOf r1) (lowerOf r2) with e | (_ | _) <;> rfl
  · rw [boundsAdjacent_of_isLE rfl rfl hle]
    rcases boundsAdjacent typcache (upperOf r2) (lowerOf r1) with e | (_ | _) <;> rfl

/-- Adjacent ranges do not overlap. -/
theorem not_overlaps_of_adjacent (he1 : r1.flags.empty = false) (he2 : r2.flags.empty = false)
    (ho1 : (rangeCmpBounds typcache.cmp (lowerOf r1) (upperOf r1)).isLE)
    (ho2 : (rangeCmpBounds typcache.cmp (lowerOf r2) (upperOf r2)).isLE)
    (h : rangeAdjacentInternal typcache r1 r2 = .ok true) :
    rangeOverlapsInternal typcache.cmp r1 r2 = false := by
  rw [← Bool.not_eq_true, rangeOverlapsInternal_iff he1 he2 ho1 ho2]
  rintro ⟨h12, h21⟩
  -- both tests fail if each range starts at or before the end of the other
  rw [rangeAdjacentInternal_of_nonempty he1 he2, boundsAdjacent_of_isLE rfl rfl h12,
    boundsAdjacent_of_isLE rfl rfl h21] at h
  exact Bool.false_ne_true (Except.ok.inj h)

/-- Two non-empty ranges of one type: exactly one of them being before, overlapping and being
after holds, before and after are converse, and adjacency is symmetric and excludes an
overlap. -/
theorem rangeOperators_trichotomy (h1 : WellFormed typcache.cmp r1)
    (h2 : WellFormed typcache.cmp r2) (he1 : r1.flags.empty = false)
    (he2 : r2.flags.empty = false) :
    [rangeBeforeInternal typcache.cmp r1 r2, rangeOverlapsInternal typcache.cmp r1 r2,
        rangeAfterInternal typcache.cmp r1 r2].count true = 1 ∧
      rangeBeforeInternal typcache.cmp r1 r2 = rangeAfterInternal typcache.cmp r2 r1 ∧
      rangeAdjacentInternal typcache r1 r2 = rangeAdjacentInternal typcache r2 r1 ∧
      (rangeAdjacentInternal typcache r1 r2 = .ok true →
        rangeOverlapsInternal typcache.cmp r1 r2 = false) := by
  have ho1 := h1.ordered he1
  have ho2 := h2.ordered he2
  have hbefore : rangeBeforeInternal typcache.cmp r1 r2 = true ↔ _ := rangeBeforeInternal_iff
  have hafter : rangeAfterInternal typcache.cmp r1 r2 = true ↔ _ := rangeAfterInternal_iff
  have hoverlaps := rangeOverlapsInternal_iff he1 he2 ho1 ho2
  refine ⟨?_, ?_, rangeAdjacentInternal_comm he1 he2 ho1 ho2,
    not_overlaps_of_adjacent he1 he2 ho1 ho2⟩
  · -- the two comparisons of a lower with an upper bound decide all three
    have hone := isLE_or_isLE ho1 ho2
    simp only [he1, he2, true_and] at hbefore hafter
    cases h12 : (rangeCmpBounds typcache.cmp (lowerOf r1) (upperOf r2)).isLE <;>
      cases h21 : (rangeCmpBounds typcache.cmp (lowerOf r2) (upperOf r1)).isLE <;>
        simp_all
  · rw [Bool.eq_iff_iff, hbefore, rangeAfterInternal_iff]
    tauto

end Trichotomy

/-- The `int4range` values `[1,3)` and `[3,5)` are adjacent, so they do not overlap. -/
theorem rangeOperators_trichotomy_touching :
    rangeOverlapsInternal int4range.cmp
      (packRange ⟨1, false, true, true⟩ ⟨3, false, false, false⟩)
      (packRange ⟨3, false, true, true⟩ ⟨5, false, false, false⟩) = false := by
  have hadj : rangeAdjacentInternal int4range
      (packRange ⟨1, false, true, true⟩ ⟨3, false, false, false⟩)
      (packRange ⟨3, false, true, true⟩ ⟨5, false, false, false⟩) = .ok true := by decide
  exact (rangeOperators_trichotomy (wellFormed_packRange rfl rfl (by decide))
    (wellFormed_packRange rfl rfl (by decide)) rfl rfl).2.2.2 hadj

end PgRange
