import PgRange.Range.InOut
import PgRange.Range.SetOps

/-!
# The range values that can occur

Every way of `rangetypes.c` to make a range value — text and binary input, the
constructors, the set operations and the canonical functions — goes through
`range_serialize`, or returns a value that was there before. So the representation
invariant holds of every value that any composition of them can produce, whatever the
element type's own functions do.

## Main definitions

* `Obtainable` — the values that a finite composition of these functions can return
* `TypeCacheEntry.Serializing` — what is asked of a canonical function
* `IntNormal` — the canonical form of the integer range types

## Main results

* `Obtainable.rec_built` — the induction rule: built values, and the canonical function
* `obtainable_wellFormed` — the representation invariant
-/

set_option autoImplicit false

namespace PgRange

open Math

/-! ### Definitions -/

/-- The values of a range type that a finite composition of the functions of the source
can return, for any locale, any I/O functions of the element type and any contents of
uninitialized local variables. -/
inductive Obtainable {α : Type} [Inhabited α] (typcache : TypeCacheEntry α) :
    RangeType α → Prop
  | ofIn {loc : Locale} {typioproc : Option CString → Except Fault α}
      {uninitLower uninitUpper : α} {inputStr : CString} {r : RangeType α} :
      rangeIn loc typcache typioproc uninitLower uninitUpper inputStr = .ok r →
      Obtainable typcache r
  | ofRecv {typioproc : Option (List UInt8 → Except Fault α)} {buf : List UInt8}
      {r : RangeType α} :
      rangeRecv typcache typioproc buf = .ok r → Obtainable typcache r
  | ofConstructor2 {arg1 arg2 : Option α} {r : RangeType α} :
      rangeConstructor2 typcache arg1 arg2 = .ok r → Obtainable typcache r
  | ofConstructor3 {arg1 arg2 : Option α} {flagsStr : Option CString} {r : RangeType α} :
      rangeConstructor3 typcache arg1 arg2 flagsStr = .ok r → Obtainable typcache r
  | ofUnion {r1 r2 r : RangeType α} : Obtainable typcache r1 → Obtainable typcache r2 →
      rangeUnion typcache r1 r2 = .ok r → Obtainable typcache r
  | ofMerge {r1 r2 r : RangeType α} : Obtainable typcache r1 → Obtainable typcache r2 →
      rangeMerge typcache r1 r2 = .ok r → Obtainable typcache r
  | ofMinus {r1 r2 r : RangeType α} : Obtainable typcache r1 → Obtainable typcache r2 →
      rangeMinus typcache r1 r2 = .ok r → Obtainable typcache r
  | ofIntersect {r1 r2 r : RangeType α} : Obtainable typcache r1 → Obtainable typcache r2 →
      rangeIntersect typcache r1 r2 = .ok r → Obtainable typcache r
  | ofCanonical {canonical : RangeType α → Except Fault (RangeType α)} {r1 r : RangeType α} :
      Obtainable typcache r1 → typcache.rngCanonical = some canonical → canonical r1 = .ok r →
      Obtainable typcache r

/-- The range is a result of `range_serialize` on a lower and an upper bound. -/
def IsSerialized {α : Type} [Inhabited α] (cmp : α → α → Ordering) (r : RangeType α) : Prop :=
  ∃ (lower upper : RangeBound α) (empty : Bool), lower.lower = true ∧ upper.lower = false ∧
    rangeSerialize cmp lower upper empty = .ok r

/-- A canonical function ends in `range_serialize` or returns its argument. Those of the
source do. -/
def TypeCacheEntry.Serializing {α : Type} [Inhabited α] (typcache : TypeCacheEntry α) : Prop :=
  ∀ canonical, typcache.rngCanonical = some canonical → ∀ r r', canonical r = .ok r' →
    r' = r ∨ IsSerialized typcache.cmp r'

/-- The canonical form of an integer range: finite bounds are inclusive below and
exclusive above, and two finite bounds are apart. -/
structure IntNormal (r : RangeType ℤ) : Prop where
  lower : r.flags.empty = false → r.flags.lbInf = false → r.flags.lbInc = true
  upper : r.flags.empty = false → r.flags.ubInf = false → r.flags.ubInc = false
  apart : r.flags.empty = false → r.flags.lbInf = false → r.flags.ubInf = false →
    r.lbound < r.ubound

/-! ### Induction over compositions -/

section Rule

variable {α : Type} [Inhabited α] {typcache : TypeCacheEntry α}

theorem isBuilt_rangeIn {loc : Locale} {typioproc : Option CString → Except Fault α}
    {uninitLower uninitUpper : α} {inputStr : CString} {r : RangeType α}
    (h : rangeIn loc typcache typioproc uninitLower uninitUpper inputStr = .ok r) :
    IsBuilt typcache r := by
  obtain ⟨⟨flags, lboundStr, uboundStr⟩, -, h⟩ := bind_eq_ok_iff.mp h
  obtain ⟨lowerVal, -, h⟩ := bind_eq_ok_iff.mp h
  obtain ⟨upperVal, -, h⟩ := bind_eq_ok_iff.mp h
  exact isBuilt_of_makeRange rfl rfl h

theorem isBuilt_rangeRecv {typioproc : Option (List UInt8 → Except Fault α)}
    {buf : List UInt8} {r : RangeType α} (h : rangeRecv typcache typioproc buf = .ok r) :
    IsBuilt typcache r := by
  cases typioproc with
  | none => simp [rangeRecv] at h
  | some typioproc =>
    obtain ⟨⟨byt, buf⟩, -, h⟩ := bind_eq_ok_iff.mp h
    obtain ⟨⟨lowerVal, buf⟩, -, h⟩ := bind_eq_ok_iff.mp h
    obtain ⟨⟨upperVal, buf⟩, -, h⟩ := bind_eq_ok_iff.mp h
    obtain ⟨-, -, h⟩ := bind_eq_ok_iff.mp h
    exact isBuilt_of_makeRange rfl rfl h

/-- What holds of every built range and is kept by the canonical function holds of every
value that can be obtained. -/
theorem Obtainable.rec_built {P : RangeType α → Prop} (hbuilt : ∀ r, IsBuilt typcache r → P r)
    (hcanon : ∀ canonical, typcache.rngCanonical = some canonical →
      ∀ r r', P r → canonical r = .ok r' → P r')
    {r : RangeType α} (h : Obtainable typcache r) : P r := by
  -- the set operations return an operand or build a range
  induction h with
  | ofIn h => exact hbuilt _ (isBuilt_rangeIn h)
  | ofRecv h => exact hbuilt _ (isBuilt_rangeRecv h)
  | ofConstructor2 h => exact hbuilt _ (isBuilt_rangeConstructor2 h)
  | ofConstructor3 h => exact hbuilt _ (isBuilt_rangeConstructor3 h)
  | ofUnion _ _ h ih1 ih2 =>
    rcases rangeUnionInternal_cases h with rfl | rfl | h
    · exact ih1
    · exact ih2
    · exact hbuilt _ h
  | ofMerge _ _ h ih1 ih2 =>
    rcases rangeUnionInternal_cases h with rfl | rfl | h
    · exact ih1
    · exact ih2
    · exact hbuilt _ h
  | ofMinus _ _ h ih1 _ =>
    rcases rangeMinus_cases h with rfl | h
    · exact ih1
    · exact hbuilt _ h
  | ofIntersect _ _ h _ _ => exact hbuilt _ (isBuilt_rangeIntersect h)
  | ofCanonical _ hc h ih => exact hcanon _ hc _ _ ih h

/-- A built range is serialized, and then it is empty, or the type has no canonical
function, or it is the canonical function's result on a serialized range. -/
theorem IsBuilt.cases {r : RangeType α} (h : IsBuilt typcache r) :
    (IsSerialized typcache.cmp r ∧ (typcache.rngCanonical = none ∨ r.flags.empty = true)) ∨
      ∃ canonical r0, typcache.rngCanonical = some canonical ∧
        IsSerialized typcache.cmp r0 ∧ canonical r0 = .ok r := by
  obtain ⟨lower, upper, empty, hl, hu, h⟩ := h
  obtain ⟨r0, hser, h⟩ := bind_eq_ok_iff.mp h
  have hr0 : IsSerialized typcache.cmp r0 := ⟨lower, upper, empty, hl, hu, hser⟩
  cases hc : typcache.rngCanonical with
  | none =>
    simp only [hc] at h
    obtain rfl := Except.ok.inj h
    exact Or.inl ⟨hr0, Or.inl rfl⟩
  | some canonical =>
    simp only [hc] at h
    -- `make_range` canonicalizes only what is not empty
    split_ifs at h with he
    · obtain rfl := Except.ok.inj h
      exact Or.inl ⟨hr0, Or.inr he⟩
    · exact Or.inr ⟨canonical, r0, rfl, hr0, h⟩

theorem IsSerialized.wellFormed {cmp : α → α → Ordering} {r : RangeType α}
    (h : IsSerialized cmp r) : WellFormed cmp r := by
  obtain ⟨lower, upper, empty, hl, hu, h⟩ := h
  exact rangeSerialize_wellFormed hl hu h

/-- A canonical function that serializes keeps ranges well-formed. -/
theorem TypeCacheEntry.Serializing.wellFormed (hs : typcache.Serializing)
    {canonical : RangeType α → Except Fault (RangeType α)}
    (hc : typcache.rngCanonical = some canonical) {r r' : RangeType α}
    (hr : WellFormed typcache.cmp r) (h : canonical r = .ok r') : WellFormed typcache.cmp r' := by
  rcases hs canonical hc r r' h with rfl | hser
  · exact hr
  · exact hser.wellFormed

/-- The invariant for the types whose canonical function serializes. -/
theorem Obtainable.wellFormed (hs : typcache.Serializing) {r : RangeType α}
    (h : Obtainable typcache r) : WellFormed typcache.cmp r := by
  refine h.rec_built ?_ ?_
  · intro r hr
    rcases hr.cases with ⟨hser, -⟩ | ⟨canonical, r0, hc, hser, hcanon⟩
    · exact hser.wellFormed
    · exact hs.wellFormed hc hser.wellFormed hcanon
  · intro canonical hc r r' hr hcanon
    exact hs.wellFormed hc hr hcanon

end Rule

/-! ### The canonical functions of the source -/

theorem TypeCacheEntry.serializing_of_none {α : Type} [Inhabited α] {typcache : TypeCacheEntry α}
    (h : typcache.rngCanonical = none) : typcache.Serializing := by
  intro canonical hc
  simp [h] at hc

section Step

variable {skip : ℤ → Bool} {addOne : ℤ → Except Fault ℤ} {r r' : RangeType ℤ}

/-- The canonical functions return an empty range as it is, and serialize canonical
bounds for any other. -/
theorem stepCanonical_cases (h : stepCanonical skip addOne r = .ok r') :
    r.flags.empty = true ∧ r' = r ∨
      ∃ lower upper, lower.lower = true ∧ upper.lower = false ∧ LowerCanonical skip lower ∧
        UpperCanonical skip upper ∧ rangeSerialize btintcmp lower upper false = .ok r' := by
  cases he : r.flags.empty with
  | true =>
    rw [stepCanonical, if_pos he] at h
    exact Or.inl ⟨rfl, (Except.ok.inj h).symm⟩
  | false =>
    obtain ⟨lower, hlower, upper, hupper, hser⟩ := (stepCanonical_eq_ok_iff he).mp h
    obtain ⟨hl, hlc⟩ := stepLower_cases hlower
    obtain ⟨hu, huc⟩ := stepUpper_cases hupper
    refine Or.inr ⟨lower, upper, hl, hu, ?_, ?_, hser⟩
    · rcases hlc with ⟨hcanon, rfl⟩ | ⟨-, -, hinc⟩
      · exact hcanon
      · exact Or.inr (Or.inr hinc)
    · rcases huc with ⟨hcanon, rfl⟩ | ⟨-, -, hinc⟩
      · exact hcanon
      · exact Or.inr (Or.inr hinc)

theorem stepCanonical_serializing (h : stepCanonical skip addOne r = .ok r') :
    r' = r ∨ IsSerialized btintcmp r' := by
  rcases stepCanonical_cases h with ⟨-, rfl⟩ | ⟨lower, upper, hl, hu, -, -, hser⟩
  · exact Or.inl rfl
  · exact Or.inr ⟨lower, upper, false, hl, hu, hser⟩

theorem intNormal_of_empty (h : r.flags.empty = true) : IntNormal r :=
  ⟨by simp [h], by simp [h], by simp [h]⟩

/-- Canonical bounds serialize to a range in the integer normal form: equal finite bounds
would be an empty range, because the upper one is exclusive. -/
theorem intNormal_rangeSerialize {lower upper : RangeBound ℤ} (hl : lower.lower = true)
    (hu : upper.lower = false) (hlc : LowerCanonical (fun _ => false) lower)
    (huc : UpperCanonical (fun _ => false) upper)
    (h : rangeSerialize btintcmp lower upper false = .ok r) : IntNormal r := by
  rcases (rangeSerialize_eq_ok_iff hl hu).mp h with ⟨rfl, -⟩ | ⟨rfl, -, hle⟩
  · exact intNormal_of_empty rfl
  · refine ⟨fun _ hinf => ?_, fun _ hinf => ?_, fun _ hlinf huinf => ?_⟩
    · have hinf' : lower.infinite = false := hinf
      rcases hlc with h | h | h <;> simp_all [packRange]
    · have hinf' : upper.infinite = false := hinf
      rcases huc with h | h | h <;> simp_all [packRange]
    · have hl' : lower.infinite = false := hlinf
      have hu' : upper.infinite = false := huinf
      -- level values with an exclusive bound would have been serialized as empty
      have hexcl : upper.inclusive = false := by
        rcases huc with h | h | h <;> simp_all
      have hvals : rangeCmpBoundValues btintcmp lower upper = .lt := by
        rcases (lower_isLE_upper_iff hl hu).mp hle with h | ⟨-, h⟩
        · exact h
        · simp [hexcl] at h
      have hcmp : btintcmp lower.val upper.val = .lt := by
        simpa [rangeCmpBoundValues, hl', hu'] using hvals
      simpa [packRange, hl', hu'] using compareInt_lt_iff.mp hcmp

theorem intNormal_intRangeCanonical (h : intRangeCanonical addOne r = .ok r') : IntNormal r' := by
  rw [intRangeCanonical_eq_step] at h
  rcases stepCanonical_cases h with ⟨he, rfl⟩ | ⟨lower, upper, hl, hu, hlc, huc, hser⟩
  · exact intNormal_of_empty he
  · exact intNormal_rangeSerialize hl hu hlc huc hser

end Step

theorem serializing_int4range : int4range.Serializing := by
  rintro _ ⟨⟩ r r' h
  rw [int4rangeCanonical, intRangeCanonical_eq_step] at h
  exact stepCanonical_serializing h

theorem serializing_int8range : int8range.Serializing := by
  rintro _ ⟨⟩ r r' h
  rw [int8rangeCanonical, intRangeCanonical_eq_step] at h
  exact stepCanonical_serializing h

theorem serializing_daterange : daterange.Serializing := by
  rintro _ ⟨⟩ r r' h
  rw [daterangeCanonical_eq_step] at h
  exact stepCanonical_serializing h

/-- A type whose canonical function is that of the integer types has only values in
normal form. -/
theorem Obtainable.intNormal {typcache : TypeCacheEntry ℤ} {addOne : ℤ → Except Fault ℤ}
    (hc : typcache.rngCanonical = some (intRangeCanonical addOne)) {r : RangeType ℤ}
    (h : Obtainable typcache r) : IntNormal r := by
  refine h.rec_built ?_ ?_
  · intro r hr
    rcases hr.cases with ⟨-, hnone | he⟩ | ⟨canonical, r0, hsome, -, hcanon⟩
    · simp [hc] at hnone
    · exact intNormal_of_empty he
    · obtain rfl := Option.some.inj (hc.symm.trans hsome)
      exact intNormal_intRangeCanonical hcanon
  · intro canonical hsome r r' _ hcanon
    obtain rfl := Option.some.inj (hc.symm.trans hsome)
    exact intNormal_intRangeCanonical hcanon

/-- The representation invariant of range values. Every value that can be obtained is
well-formed, and every `int4range` and `int8range` value is in normal form. -/
theorem obtainable_wellFormed :
    (∀ (α : Type) [Inhabited α] (typcache : TypeCacheEntry α), typcache.Serializing →
      ∀ r, Obtainable typcache r → WellFormed typcache.cmp r) ∧
    (∀ r, Obtainable int4range r → IntNormal r) ∧
    ∀ r, Obtainable int8range r → IntNormal r := by
  refine ⟨?_, ?_, ?_⟩
  · intro α _ typcache hs r h
    exact h.wellFormed hs
  · intro r h
    exact h.intNormal rfl
  · intro r h
    exact h.intNormal rfl

/-- `int4range(1, 5, '(]')` is the well-formed `[2,6)`. -/
theorem obtainable_wellFormed_int4range :
    rangeConstructor3 int4range (some 1) (some 5) (some [40, 93]) =
        .ok ⟨{ lbInc := true }, 2, 6⟩ ∧
      WellFormed btintcmp ⟨{ lbInc := true }, 2, 6⟩ ∧ IntNormal ⟨{ lbInc := true }, 2, 6⟩ := by
  have hmake : rangeConstructor3 int4range (some 1) (some 5) (some [40, 93]) =
      .ok ⟨{ lbInc := true }, 2, 6⟩ := by decide
  obtain ⟨hwf, hint4, -⟩ := obtainable_wellFormed
  exact ⟨hmake, hwf ℤ int4range serializing_int4range _ (.ofConstructor3 hmake),
    hint4 _ (.ofConstructor3 hmake)⟩

end PgRange
