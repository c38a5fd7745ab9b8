import PgRange.Range.Operators

/-!
# Well-formed range values

The representation invariant of a stored range, as opposed to that of an index key:
no bit of the flags byte is set without need, the bounds are in order, and an absent
bound holds the zero word. The well-formed ranges are exactly what `range_serialize`
returns.

## Main results

* `rangeCmpBounds_preorder` — the comparison of bounds is a total preorder, and decides
  which bounds enclose a range
* `rangeSerialize_wellFormed` — `range_serialize` returns only well-formed ranges
* `WellFormed.rangeSerialize_eq` — serializing the parts of a well-formed range gives
  the range back
-/

set_option autoImplicit false

namespace PgRange

open Math

variable {α : Type} [Inhabited α]

/-- The representation invariant of a range value. -/
structure WellFormed (cmp : α → α → Ordering) (r : RangeType α) : Prop where
  proper : r.flags.Proper
  noContainEmpty : r.flags.containEmpty = false
  ordered : r.flags.empty = false → (rangeCmpBounds cmp (lowerOf r) (upperOf r)).isLE
  absentLower : r.flags.hasLbound = false → r.lbound = default
  absentUpper : r.flags.hasUbound = false → r.ubound = default

/-! ### The order of the two bounds of a range -/

section Bounds

variable {cmp : α → α → Ordering} {lower upper : RangeBound α}

omit [Inhabited α] in
/-- A lower bound is at or below an upper bound if its value is smaller, or if the two
values are level and both bounds are inclusive. -/
theorem lower_isLE_upper_iff (hl : lower.lower = true) (hu : upper.lower = false) :
    (rangeCmpBounds cmp lower upper).isLE ↔
      rangeCmpBoundValues cmp lower upper = .lt ∨
        rangeCmpBoundValues cmp lower upper = .eq ∧
          (lower.inclusive && upper.inclusive) = true := by
  obtain ⟨v, inf1, inc1, low1⟩ := lower
  obtain ⟨w, inf2, inc2, low2⟩ := upper
  obtain rfl : low1 = true := hl
  obtain rfl : low2 = false := hu
  cases inf1 <;> cases inf2 <;> cases inc1 <;> cases inc2 <;> cases hc : cmp v w <;>
    simp [rangeCmpBounds, rangeCmpBoundValues, hc]

/-- `range_serialize` finds the range empty, packs the bounds, or raises an error. -/
theorem rangeSerialize_eq_ok_iff (hl : lower.lower = true) (hu : upper.lower = false)
    {empty : Bool} {r : RangeType α} :
    rangeSerialize cmp lower upper empty = .ok r ↔
      emptyRange = r ∧ (empty = true ∨ rangeCmpBoundValues cmp lower upper = .eq ∧
        (lower.inclusive && upper.inclusive) = false) ∨
      packRange lower upper = r ∧ empty = false ∧ (rangeCmpBounds cmp lower upper).isLE := by
  rw [lower_isLE_upper_iff hl hu]
  cases empty with
  | true => simp [rangeSerialize]
  | false =>
    cases hc : rangeCmpBoundValues cmp lower upper with
    | lt => simp [rangeSerialize, hc]
    | gt => simp [rangeSerialize, hc]
    | eq =>
      cases hinc : lower.inclusive && upper.inclusive <;>
        simp [rangeSerialize, hc, hinc]

/-- A lower and an upper bound enclose something if and only if they are in order. -/
theorem exists_rangeSerialize_iff (hl : lower.lower = true) (hu : upper.lower = false) :
    (∃ r, rangeSerialize cmp lower upper false = .ok r ∧ rangeIsEmpty r = false) ↔
      (rangeCmpBounds cmp lower upper).isLE := by
  constructor
  · rintro ⟨r, hrun, hne⟩
    rcases (rangeSerialize_eq_ok_iff hl hu).mp hrun with ⟨rfl, -⟩ | ⟨-, -, hle⟩
    · cases hne
    · exact hle
  · intro hle
    exact ⟨packRange lower upper,
      (rangeSerialize_eq_ok_iff hl hu).mpr (Or.inr ⟨rfl, rfl, hle⟩), rfl⟩

/-- `range_cmp_bounds` is a total preorder on the bounds of either side: exchanging the two
bounds reverses the sign, the order is transitive, and bounds that compare equal compare
alike with every third bound. A lower and an upper bound give a non-empty range if and
only if they are in this order. -/
theorem rangeCmpBounds_preorder (cmp : α → α → Ordering) [Std.TransCmp cmp] :
    (∀ b1 b2 : RangeBound α, rangeCmpBounds cmp b1 b2 = (rangeCmpBounds cmp b2 b1).swap) ∧
    (∀ b1 b2 b3 : RangeBound α, (rangeCmpBounds cmp b1 b2).isLE →
      (rangeCmpBounds cmp b2 b3).isLE → (rangeCmpBounds cmp b1 b3).isLE) ∧
    (∀ b1 b2 b3 : RangeBound α, rangeCmpBounds cmp b1 b2 = .eq →
      rangeCmpBounds cmp b1 b3 = rangeCmpBounds cmp b2 b3 ∧
        rangeCmpBounds cmp b3 b1 = rangeCmpBounds cmp b3 b2) ∧
    ∀ lower upper : RangeBound α, lower.lower = true → upper.lower = false →
      ((∃ r, rangeSerialize cmp lower upper false = .ok r ∧ rangeIsEmpty r = false) ↔
        (rangeCmpBounds cmp lower upper).isLE) := by
  refine ⟨?_, ?_, ?_, ?_⟩
  · intro b1 b2
    exact Std.OrientedCmp.eq_swap
  · intro b1 b2 b3 h12 h23
    exact Std.TransCmp.isLE_trans h12 h23
  · intro b1 b2 b3 h12
    exact ⟨Std.TransCmp.congr_left h12, Std.TransCmp.congr_right h12⟩
  · intro lower upper hl hu
    exact exists_rangeSerialize_iff hl hu

/-- The inclusive bounds at `1` are level, whichever side they are on, and enclose the
range `[1,1]`. -/
theorem rangeCmpBounds_preorder_single :
    rangeCmpBounds btintcmp ⟨1, false, true, true⟩ ⟨1, false, true, false⟩ = .eq ∧
      (∀ b : RangeBound ℤ, rangeCmpBounds btintcmp ⟨1, false, true, true⟩ b =
        rangeCmpBounds btintcmp ⟨1, false, true, false⟩ b) ∧
      ∃ r, rangeSerialize btintcmp ⟨1, false, true, true⟩ ⟨1, false, true, false⟩ false = .ok r ∧
        rangeIsEmpty r = false :=
  have h := rangeCmpBounds_preorder btintcmp
  ⟨rfl, fun b => (h.2.2.1 _ _ b rfl).1, (h.2.2.2 _ _ rfl rfl).mpr rfl⟩

/-- Packing normalizes an infinite bound but does not move it. -/
theorem lowerOf_packRange_cut (hl : lower.lower = true) :
    (lowerOf (packRange lower upper)).cut = lower.cut := by
  obtain ⟨v, inf, inc, low⟩ := lower
  obtain rfl : low = true := hl
  cases inf <;> simp [lowerOf, rangeDeserialize, packRange, RangeBound.cut, RangeFlags.hasLbound]

theorem upperOf_packRange_cut (hu : upper.lower = false) :
    (upperOf (packRange lower upper)).cut = upper.cut := by
  obtain ⟨v, inf, inc, low⟩ := upper
  obtain rfl : low = false := hu
  cases inf <;> simp [upperOf, rangeDeserialize, packRange, RangeBound.cut, RangeFlags.hasUbound]

end Bounds

/-! ### What `range_serialize` returns -/

section Serialize

variable {cmp : α → α → Ordering} {lower upper : RangeBound α} {r : RangeType α}

theorem wellFormed_emptyRange (cmp : α → α → Ordering) :
    WellFormed cmp (emptyRange : RangeType α) where
  proper := ⟨⟨rfl, rfl⟩, fun _ => rfl, nofun, nofun⟩
  noContainEmpty := rfl
  ordered := nofun
  absentLower := fun _ => rfl
  absentUpper := fun _ => rfl

theorem wellFormed_packRange (hl : lower.lower = true) (hu : upper.lower = false)
    (h : (rangeCmpBounds cmp lower upper).isLE) : WellFormed cmp (packRange lower upper) where
  proper := by
    refine ⟨⟨rfl, rfl⟩, nofun, ?_, ?_⟩
    · intro hinf
      simp_all [packRange]
    · intro hinf
      simp_all [packRange]
  noContainEmpty := rfl
  ordered := by
    intro _
    rwa [rangeCmpBounds_eq_cut, lowerOf_packRange_cut hl, upperOf_packRange_cut hu,
      ← rangeCmpBounds_eq_cut]
  absentLower := by
    intro habs
    cases hinf : lower.infinite <;> simp_all [packRange, RangeFlags.hasLbound]
  absentUpper := by
    intro habs
    cases hinf : upper.infinite <;> simp_all [packRange, RangeFlags.hasUbound]

theorem rangeSerialize_wellFormed (hl : lower.lower = true) (hu : upper.lower = false)
    {empty : Bool} (h : rangeSerialize cmp lower upper empty = .ok r) : WellFormed cmp r := by
  rcases (rangeSerialize_eq_ok_iff hl hu).mp h with ⟨rfl, -⟩ | ⟨rfl, -, hle⟩
  · exact wellFormed_emptyRange cmp
  · exact wellFormed_packRange hl hu hle

namespace WellFormed

theorem eq_emptyRange (h : WellFormed cmp r) (he : r.flags.empty = true) : r = emptyRange := by
  have hl := h.absentLower (by simp [RangeFlags.hasLbound, he])
  have hu := h.absentUpper (by simp [RangeFlags.hasUbound, he])
  obtain ⟨flags, lbound, ubound⟩ := r
  obtain rfl : flags = { empty := true } := h.proper.emptyAlone he
  obtain rfl : lbound = default := hl
  obtain rfl : ubound = default := hu
  rfl

/-- Only the bits for infinite and for inclusive bounds are left in the flags of a
non-empty range. -/
theorem flags_eq (h : WellFormed cmp r) (he : r.flags.empty = false) :
    r.flags = { lbInc := r.flags.lbInc, ubInc := r.flags.ubInc, lbInf := r.flags.lbInf,
                ubInf := r.flags.ubInf } := by
  obtain ⟨⟨hlb, hub⟩, -, -, -⟩ := h.proper
  have hce := h.noContainEmpty
  obtain ⟨⟨a, b, c, d, e, f, g, k⟩, lbound, ubound⟩ := r
  simp_all

theorem packRange_eq (h : WellFormed cmp r) (he : r.flags.empty = false) :
    packRange (lowerOf r) (upperOf r) = r := by
  obtain ⟨⟨hlb, hub⟩, -, hli, hui⟩ := h.proper
  have hce := h.noContainEmpty
  have hl := h.absentLower
  have hu := h.absentUpper
  obtain ⟨⟨a, lbInc, ubInc, lbInf, ubInf, f, g, k⟩, lbound, ubound⟩ := r
  cases lbInf <;> cases ubInf <;>
    simp_all [lowerOf, upperOf, packRange, rangeDeserialize, RangeFlags.hasLbound,
      RangeFlags.hasUbound]

/-- The parts of a well-formed range serialize to the range itself. -/
theorem rangeSerialize_eq (h : WellFormed cmp r) :
    rangeSerialize cmp (lowerOf r) (upperOf r) r.flags.empty = .ok r := by
  refine (rangeSerialize_eq_ok_iff rfl rfl).mpr ?_
  cases he : r.flags.empty with
  | true => exact Or.inl ⟨(h.eq_emptyRange he).symm, Or.inl rfl⟩
  | false => exact Or.inr ⟨h.packRange_eq he, rfl, h.ordered he⟩

end WellFormed

end Serialize

end PgRange
