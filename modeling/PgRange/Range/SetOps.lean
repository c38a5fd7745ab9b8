import PgRange.Range.Canonical
import PgRange.Range.Parse

/-!
# Constructors and set operations

The functions of `rangetypes.c` that build ranges from bound values and from other
ranges. Each of them returns one of its arguments or a result of `make_range`, and this
is all that the invariants of ranges need to know about them.

## Main results

* `IsBuilt` — a result of `make_range` on a lower and an upper bound
* `rangeUnionInternal_cases`, `rangeMinus_cases`, `rangeIntersect_cases` — an argument or
  a built range
-/

set_option autoImplicit false

namespace PgRange

open Math Ascii

variable {α : Type} [Inhabited α]

/-! ### The functions of the source -/

/-- `make_empty_range`. -/
def makeEmptyRange (typcache : TypeCacheEntry α) : Except Fault (RangeType α) :=
  makeRange typcache ⟨default, false, false, true⟩ ⟨default, false, false, false⟩ true

/-- `range_constructor2`: a null argument is an infinite bound. -/
def rangeConstructor2 (typcache : TypeCacheEntry α) (arg1 arg2 : Option α) :
    Except Fault (RangeType α) :=
  makeRange typcache ⟨arg1.getD default, arg1.isNone, true, true⟩
    ⟨arg2.getD default, arg2.isNone, false, false⟩ false

/-- `range_parse_flags`: whether the lower and the upper bound are inclusive. -/
def rangeParseFlags (flagsStr : CString) : Except Fault (Bool × Bool) :=
  match flagsStr with
  | [first, second] =>
    if first ≠ leftBracket ∧ first ≠ leftParen then .error .invalidBoundFlags
    else if second ≠ rightBracket ∧ second ≠ rightParen then .error .invalidBoundFlags
    else .ok (first == leftBracket, second == rightBracket)
  | _ => .error .invalidBoundFlags

/-- `range_constructor3`. -/
def rangeConstructor3 (typcache : TypeCacheEntry α) (arg1 arg2 : Option α)
    (flagsStr : Option CString) : Except Fault (RangeType α) :=
  match flagsStr with
  | none => .error .nullBoundFlags
  | some flagsStr => do
    let (lbInc, ubInc) ← rangeParseFlags flagsStr
    makeRange typcache ⟨arg1.getD default, arg1.isNone, lbInc, true⟩
      ⟨arg2.getD default, arg2.isNone, ubInc, false⟩ false

/-- The test of `range_union_internal`: a strict union needs ranges that overlap or are
adjacent. Adjacency is asked for only if they do not overlap. -/
def unionIsAllowed (typcache : TypeCacheEntry α) (r1 r2 : RangeType α) (strict : Bool) :
    Except Fault Bool :=
  if !strict || rangeOverlapsInternal typcache.cmp r1 r2 then .ok true
  else rangeAdjacentInternal typcache r1 r2

/-- `range_union_internal`. -/
def rangeUnionInternal (typcache : TypeCacheEntry α) (r1 r2 : RangeType α) (strict : Bool) :
    Except Fault (RangeType α) :=
  let p1 := rangeDeserialize r1
  let p2 := rangeDeserialize r2
  if p1.empty then .ok r2
  else if p2.empty then .ok r1
  else do
    if !(← unionIsAllowed typcache r1 r2 strict) then .error .unionNotContiguous
    else
      let resultLower :=
        if (rangeCmpBounds typcache.cmp p1.lower p2.lower).isLT then p1.lower else p2.lower
      let resultUpper :=
        if (rangeCmpBounds typcache.cmp p1.upper p2.upper).isGT then p1.upper else p2.upper
      makeRange typcache resultLower resultUpper false

/-- `range_union`. -/
def rangeUnion (typcache : TypeCacheEntry α) (r1 r2 : RangeType α) : Except Fault (RangeType α) :=
  rangeUnionInternal typcache r1 r2 true

/-- `range_merge`. -/
def rangeMerge (typcache : TypeCacheEntry α) (r1 r2 : RangeType α) : Except Fault (RangeType α) :=
  rangeUnionInternal typcache r1 r2 false

/-- `range_minus`. -/
def rangeMinus (typcache : TypeCacheEntry α) (r1 r2 : RangeType α) : Except Fault (RangeType α) :=
  let p1 := rangeDeserialize r1
  let p2 := rangeDeserialize r2
  if p1.empty || p2.empty then .ok r1
  else
    let cmpL1L2 := rangeCmpBounds typcache.cmp p1.lower p2.lower
    let cmpL1U2 := rangeCmpBounds typcache.cmp p1.lower p2.upper
    let cmpU1L2 := rangeCmpBounds typcache.cmp p1.upper p2.lower
    let cmpU1U2 := rangeCmpBounds typcache.cmp p1.upper p2.upper
    if cmpL1L2.isLT && cmpU1U2.isGT then .error .differenceNotContiguous
    else if cmpL1U2.isGT || cmpU1L2.isLT then .ok r1
    else if cmpL1L2.isGE && cmpU1U2.isLE then makeEmptyRange typcache
    else if cmpL1L2.isLE && cmpU1L2.isGE && cmpU1U2.isLE then
      -- the lower bound of the second becomes the upper bound
      makeRange typcache p1.lower
        { p2.lower with inclusive := !p2.lower.inclusive, lower := false } false
    else if cmpL1L2.isGE && cmpU1U2.isGE && cmpL1U2.isLE then
      makeRange typcache { p2.upper with inclusive := !p2.upper.inclusive, lower := true }
        p1.upper false
    else .error .unexpectedMinusCase

/-- `range_intersect`. -/
def rangeIntersect (typcache : TypeCacheEntry α) (r1 r2 : RangeType α) :
    Except Fault (RangeType α) :=
  let p1 := rangeDeserialize r1
  let p2 := rangeDeserialize r2
  if p1.empty || p2.empty || !rangeOverlapsInternal typcache.cmp r1 r2 then
    makeEmptyRange typcache
  else
    let resultLower :=
      if (rangeCmpBounds typcache.cmp p1.lower p2.lower).isGE then p1.lower else p2.lower
    let resultUpper :=
      if (rangeCmpBounds typcache.cmp p1.upper p2.upper).isLE then p1.upper else p2.upper
    makeRange typcache resultLower resultUpper false

/-! ### Arguments and built ranges -/

/-- The range is a result of `make_range` on a lower and an upper bound. -/
def IsBuilt (typcache : TypeCacheEntry α) (r : RangeType α) : Prop :=
  ∃ (lower upper : RangeBound α) (empty : Bool), lower.lower = true ∧ upper.lower = false ∧
    makeRange typcache lower upper empty = .ok r

section Cases

variable {typcache : TypeCacheEntry α} {r1 r2 r : RangeType α}

theorem isBuilt_of_makeRange {lower upper : RangeBound α} {empty : Bool}
    (hl : lower.lower = true) (hu : upper.lower = false)
    (h : makeRange typcache lower upper empty = .ok r) : IsBuilt typcache r :=
  ⟨lower, upper, empty, hl, hu, h⟩

theorem isBuilt_makeEmptyRange (h : makeEmptyRange typcache = .ok r) : IsBuilt typcache r :=
  isBuilt_of_makeRange rfl rfl h

theorem isBuilt_rangeConstructor2 {arg1 arg2 : Option α}
    (h : rangeConstructor2 typcache arg1 arg2 = .ok r) : IsBuilt typcache r :=
  isBuilt_of_makeRange rfl rfl h

theorem isBuilt_rangeConstructor3 {arg1 arg2 : Option α} {flagsStr : Option CString}
    (h : rangeConstructor3 typcache arg1 arg2 flagsStr = .ok r) : IsBuilt typcache r := by
  cases flagsStr with
  | none => simp [rangeConstructor3] at h
  | some flagsStr =>
    obtain ⟨⟨lbInc, ubInc⟩, -, hmake⟩ := bind_eq_ok_iff.mp h
    exact isBuilt_of_makeRange rfl rfl hmake

theorem rangeUnionInternal_cases {strict : Bool}
    (h : rangeUnionInternal typcache r1 r2 strict = .ok r) :
    r = r1 ∨ r = r2 ∨ IsBuilt typcache r := by
  rw [rangeUnionInternal] at h
  by_cases he1 : (rangeDeserialize r1).empty = true
  · rw [if_pos he1] at h
    exact Or.inr (Or.inl (Except.ok.inj h).symm)
  rw [if_neg he1] at h
  by_cases he2 : (rangeDeserialize r2).empty = true
  · rw [if_pos he2] at h
    exact Or.inl (Except.ok.inj h).symm
  rw [if_neg he2] at h
  obtain ⟨allowed, -, h⟩ := bind_eq_ok_iff.mp h
  cases allowed with
  | false => simp at h
  | true =>
    -- each result bound is the bound of one operand, and on its side
    refine Or.inr (Or.inr (isBuilt_of_makeRange ?_ ?_ h))
    · split_ifs <;> rfl
    · split_ifs <;> rfl

theorem rangeMinus_cases (h : rangeMinus typcache r1 r2 = .ok r) :
    r = r1 ∨ IsBuilt typcache r := by
  simp only [rangeMinus] at h
  -- the cases of the source in its order; the last ones cut off one end
  split_ifs at h
  · exact Or.inl (Except.ok.inj h).symm
  · exact Or.inl (Except.ok.inj h).symm
  · exact Or.inr (isBuilt_makeEmptyRange h)
  · exact Or.inr (isBuilt_of_makeRange rfl rfl h)
  · exact Or.inr (isBuilt_of_makeRange rfl rfl h)

theorem isBuilt_rangeIntersect (h : rangeIntersect typcache r1 r2 = .ok r) :
    IsBuilt typcache r := by
  simp only [rangeIntersect] at h
  split_ifs at h <;> first
    | exact isBuilt_makeEmptyRange h
    | exact isBuilt_of_makeRange rfl rfl h

end Cases

end PgRange
