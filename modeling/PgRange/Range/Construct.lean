import PgRange.Range.Basic
import PgRange.Math.Binary

/-!
# Building ranges

`range_serialize`, `make_range` and the canonical functions of the built-in
integer range types, with the type cache entry that selects among them.

A range value of a type is one that these functions can return: its flags are
proper, a non-empty one has its lower bound at or below its upper bound, and for
a type with a canonical function the finite bounds have the canonical
inclusiveness. `TypeCacheEntry.IsValue` states this; index keys additionally may
carry the bit that records an absorbed empty range.
-/

set_option autoImplicit false

namespace PgRange

open Math

variable {α : Type}

/-- The empty range. -/
def emptyRange [Inhabited α] : RangeType α :=
  ⟨{ empty := true }, default, default⟩

/-- The non-empty range with the given bounds. Infinite bounds are never
inclusive, and only a bound that the flags declare present is stored. -/
def packRange [Inhabited α] (lower upper : RangeBound α) : RangeType α where
  flags :=
    { lbInf := lower.infinite
      lbInc := !lower.infinite && lower.inclusive
      ubInf := upper.infinite
      ubInc := !upper.infinite && upper.inclusive }
  lbound := if lower.infinite then default else lower.val
  ubound := if upper.infinite then default else upper.val

/-- `range_serialize`: a range from its bounds, with the checks that do not depend
on the element type. -/
def rangeSerialize [Inhabited α] (cmp : α → α → Ordering) (lower upper : RangeBound α)
    (empty : Bool) : Except Fault (RangeType α) :=
  if empty then .ok emptyRange
  else
    match rangeCmpBoundValues cmp lower upper with
    | .gt => .error .lowerAboveUpper
    | .eq =>
      -- equal bounds that are not both inclusive enclose nothing
      if !(lower.inclusive && upper.inclusive) then .ok emptyRange
      else .ok (packRange lower upper)
    | .lt => .ok (packRange lower upper)

/-- What the type cache holds about a range type: the subtype's comparison, the
canonical function and the subtype difference, the last two if there is one. -/
structure TypeCacheEntry (α : Type) where
  cmp : α → α → Ordering
  rngCanonical : Option (RangeType α → Except Fault (RangeType α))
  rngSubdiff : Option (α → α → ℚ)

/-- `make_range`: serialize, then canonicalize if the type asks for it. -/
def makeRange [Inhabited α] (typcache : TypeCacheEntry α) (lower upper : RangeBound α)
    (empty : Bool) : Except Fault (RangeType α) := do
  let range ← rangeSerialize typcache.cmp lower upper empty
  match typcache.rngCanonical with
  | some canonical => if rangeIsEmpty range then return range else canonical range
  | none => return range

/-! ### Canonical functions of the integer range types -/

/-- The comparison procedures `btint4cmp` and `btint8cmp`, which have one body. -/
abbrev btintcmp : ℤ → ℤ → Ordering := compareInt

/-- The common body of the integer canonical functions: finite bounds become
inclusive below and exclusive above, adding one where needed. -/
def intRangeCanonical (addOne : ℤ → Except Fault ℤ) (r : RangeType ℤ) :
    Except Fault (RangeType ℤ) := do
  let ⟨lower, upper, empty⟩ := rangeDeserialize r
  if empty then return r
  let lower ←
    if !lower.infinite && !lower.inclusive then
      do pure { lower with val := ← addOne lower.val, inclusive := true }
    else pure lower
  let upper ←
    if !upper.infinite && upper.inclusive then
      do pure { upper with val := ← addOne upper.val, inclusive := false }
    else pure upper
  rangeSerialize btintcmp lower upper false

/-- `int4pl`. -/
def int4pl (x y : ℤ) : Except Fault ℤ :=
  if -2147483648 ≤ x + y ∧ x + y ≤ 2147483647 then .ok (x + y) else .error .integerOutOfRange

/-- `int8pl`. -/
def int8pl (x y : ℤ) : Except Fault ℤ :=
  if -9223372036854775808 ≤ x + y ∧ x + y ≤ 9223372036854775807 then .ok (x + y)
  else .error .bigintOutOfRange

/-- `int4range_canonical`. -/
def int4rangeCanonical : RangeType ℤ → Except Fault (RangeType ℤ) :=
  intRangeCanonical fun v => int4pl v 1

/-- `int8range_canonical`. -/
def int8rangeCanonical : RangeType ℤ → Except Fault (RangeType ℤ) :=
  intRangeCanonical fun v => int8pl v 1

/-- The type cache entry of `int4range`. The difference of two of its values has an exact value in
double precision. -/
def int4range : TypeCacheEntry ℤ where
  cmp := btintcmp
  rngCanonical := some int4rangeCanonical
  rngSubdiff := some fun v1 v2 => v1 - v2

/-- `int8range_subdiff`: both values and their difference are rounded to double precision. -/
def int8rangeSubdiff (v1 v2 : ℤ) : ℚ :=
  let nearest := Math.BinaryFormat.double.nearest
  nearest (nearest v1 - nearest v2)

/-- The type cache entry of `int8range`. -/
def int8range : TypeCacheEntry ℤ where
  cmp := btintcmp
  rngCanonical := some int8rangeCanonical
  rngSubdiff := some int8rangeSubdiff

/-! ### Values of a range type -/

/-- Flags that `range_serialize` can write, or that a later
`range_set_contain_empty` on a non-empty range can leave. -/
structure RangeFlags.Proper (flags : RangeFlags) : Prop where
  noNull : flags.lbNull = false ∧ flags.ubNull = false
  emptyAlone : flags.empty = true → flags = { empty := true }
  lowerInf : flags.lbInf = true → flags.lbInc = false
  upperInf : flags.ubInf = true → flags.ubInc = false

/-- A value of the range type: what the functions that build ranges guarantee. -/
structure TypeCacheEntry.IsValue [Inhabited α] (typcache : TypeCacheEntry α)
    (r : RangeType α) : Prop where
  proper : r.flags.Proper
  ordered : r.flags.empty = false →
    (rangeCmpBounds typcache.cmp (rangeDeserialize r).lower (rangeDeserialize r).upper).isLE
  canonical : typcache.rngCanonical.isSome → r.flags.empty = false →
    (r.flags.lbInf = false → r.flags.lbInc = true) ∧
      (r.flags.ubInf = false → r.flags.ubInc = false)

variable [Inhabited α]

@[simp] theorem rangeDeserialize_empty (r : RangeType α) :
    (rangeDeserialize r).empty = r.flags.empty := rfl

@[simp] theorem rangeDeserialize_lower_lower (r : RangeType α) :
    (rangeDeserialize r).lower.lower = true := rfl

@[simp] theorem rangeDeserialize_upper_lower (r : RangeType α) :
    (rangeDeserialize r).upper.lower = false := rfl

@[simp] theorem rangeDeserialize_lower_infinite (r : RangeType α) :
    (rangeDeserialize r).lower.infinite = r.flags.lbInf := rfl

@[simp] theorem rangeDeserialize_upper_infinite (r : RangeType α) :
    (rangeDeserialize r).upper.infinite = r.flags.ubInf := rfl

@[simp] theorem rangeDeserialize_lower_inclusive (r : RangeType α) :
    (rangeDeserialize r).lower.inclusive = r.flags.lbInc := rfl

@[simp] theorem rangeDeserialize_upper_inclusive (r : RangeType α) :
    (rangeDeserialize r).upper.inclusive = r.flags.ubInc := rfl

theorem rangeSerialize_of_lt {cmp : α → α → Ordering} {lower upper : RangeBound α}
    (h : rangeCmpBoundValues cmp lower upper = .lt) :
    rangeSerialize cmp lower upper false = .ok (packRange lower upper) := by
  simp [rangeSerialize, h]

/-- A packed range reads back as the bounds it was made from. -/
theorem rangeDeserialize_packRange {lower upper : RangeBound α}
    (hl : lower.lower = true) (hu : upper.lower = false)
    (hli : lower.infinite = true → lower = ⟨default, true, false, true⟩)
    (hui : upper.infinite = true → upper = ⟨default, true, false, false⟩) :
    rangeDeserialize (packRange lower upper) = ⟨lower, upper, false⟩ := by
  obtain ⟨v, inf1, inc1, low1⟩ := lower
  obtain ⟨w, inf2, inc2, low2⟩ := upper
  obtain rfl : low1 = true := hl
  obtain rfl : low2 = false := hu
  cases inf1 <;> cases inf2 <;>
    simp_all [rangeDeserialize, packRange, RangeFlags.hasLbound, RangeFlags.hasUbound]

/-- On a non-empty range whose finite bounds are already canonical, the integer
canonical functions add nothing. -/
theorem intRangeCanonical_of_canonical (addOne : ℤ → Except Fault ℤ) {r : RangeType ℤ}
    (hempty : r.flags.empty = false) (hlow : r.flags.lbInf = false → r.flags.lbInc = true)
    (hup : r.flags.ubInf = false → r.flags.ubInc = false) :
    intRangeCanonical addOne r =
      rangeSerialize btintcmp (rangeDeserialize r).lower (rangeDeserialize r).upper false := by
  have hl : (!r.flags.lbInf && !r.flags.lbInc) = false := by
    cases h : r.flags.lbInf <;> simp_all
  have hu : (!r.flags.ubInf && r.flags.ubInc) = false := by
    cases h : r.flags.ubInf <;> simp_all
  unfold intRangeCanonical
  simp only [rangeDeserialize_empty, hempty, rangeDeserialize_lower_infinite,
    rangeDeserialize_lower_inclusive, rangeDeserialize_upper_infinite,
    rangeDeserialize_upper_inclusive, hl, hu]
  rfl

/-- The canonical `int4range` from `a` to `b`. -/
theorem int4range_isValue {a b : ℤ} (hab : a < b) :
    int4range.IsValue ⟨{ lbInc := true }, a, b⟩ where
  proper := ⟨⟨rfl, rfl⟩, (nomatch ·), (nomatch ·), (nomatch ·)⟩
  ordered := fun _ => by
    have hlt : int4range.cmp a b = .lt := compareInt_lt_iff.mpr hab
    have hbounds : rangeCmpBounds int4range.cmp ⟨a, false, true, true⟩ ⟨b, false, false, false⟩ =
        .lt := by
      rw [rangeCmpBounds_eq_cut]
      exact congrArg (fun o : Ordering => o.then _) hlt
    exact isLE_of_lt hbounds
  canonical := fun _ _ => ⟨fun _ => rfl, fun _ => rfl⟩

end PgRange
