import PgRange.Math.Cut

/-!
# Ranges and their bounds

The in-memory form of a range value (`rangetypes.h`) and the two bound
comparisons of `rangetypes.c`. A range value holds a byte of flags and up to two
bound values; a bound that the flags declare absent reads back as the zero word.

Functions of `rangetypes.c` that use the type cache entry only for the subtype's
comparison procedure take that procedure. Its result is modelled by its sign.

The abstract counterpart of a bound is a cut point of the subtype
(`PgRange.Math.Cut`): `rangeCmpBounds` is the comparison of cut points, so it is
a total preorder whenever the subtype's comparison is one.

## Main definitions

* `RangeFlags`, `RangeBound`, `RangeType` — the data model
* `rangeDeserialize` — the bounds of a range value
* `rangeCmpBounds`, `rangeCmpBoundValues` — with and without inclusiveness
* `RangeBound.cut` — the cut point a bound stands for
-/

set_option autoImplicit false

namespace PgRange

open Math

/-- What `range_parse` finds wrong with a literal. -/
inductive LiteralError
  | junkAfterEmpty
  | missingLeft
  | missingComma
  | tooManyCommas
  | junkAfterRight
  | unexpectedEnd
  deriving DecidableEq, Repr

/-- The error detail. -/
def LiteralError.detail : LiteralError → String
  | junkAfterEmpty => "Junk after \"empty\" key word."
  | missingLeft => "Missing left parenthesis or bracket."
  | missingComma => "Missing comma after lower bound."
  | tooManyCommas => "Too many commas."
  | junkAfterRight => "Junk after right parenthesis or bracket."
  | unexpectedEnd => "Unexpected end of input."

/-- How a call can fail: the errors the code reports, a trap of the processor,
and reads of memory that was never written. -/
inductive Fault
  | lowerAboveUpper
  | integerOutOfRange
  | bigintOutOfRange
  | overlapNotFound
  | valuesInRange
  | emptyInBoundsHistogram
  | invalidEmptyFraction
  | unexpectedOperator
  | divisionByZero
  | divisionOverflow
  | uninitializedRead
  | outOfFuel
  | dateOutOfRange
  | unionNotContiguous
  | differenceNotContiguous
  | unexpectedMinusCase
  | nullBoundFlags
  | invalidBoundFlags
  | malformedRangeLiteral (string : List UInt8) (error : LiteralError)
  | undefinedHashFunction
  | noDataLeft
  | insufficientData
  | invalidMessageFormat
  | noBinaryInput
  | noBinaryOutput
  | stringTooLong
  | invalidAllocSize
  | toastPointerInRange
  deriving DecidableEq, Repr

/-- The message text of a reported error. -/
def Fault.message : Fault → Option String
  | lowerAboveUpper =>
    some "range lower bound must be less than or equal to range upper bound"
  | integerOutOfRange => some "integer out of range"
  | bigintOutOfRange => some "bigint out of range"
  | overlapNotFound => some "rangeoverlapsjoinsel_inner: Overlap not found. Stopping"
  | valuesInRange =>
    some "rangeoverlapsjoinsel_inner: values in range. Slowly quitting the loop."
  | emptyInBoundsHistogram => some "bounds histogram contains an empty range"
  | invalidEmptyFraction => some "invalid empty fraction statistic"
  | unexpectedOperator => some "unexpected operator %u"
  | dateOutOfRange => some "date out of range"
  | unionNotContiguous => some "result of range union would not be contiguous"
  | differenceNotContiguous => some "result of range difference would not be contiguous"
  | unexpectedMinusCase => some "unexpected case in range_minus"
  | nullBoundFlags => some "range constructor flags argument must not be null"
  | invalidBoundFlags => some "invalid range bound flags"
  | malformedRangeLiteral _ _ => some "malformed range literal: \"%s\""
  | undefinedHashFunction => some "could not identify a hash function for type %s"
  | noDataLeft => some "no data left in message"
  | insufficientData => some "insufficient data left in message"
  | invalidMessageFormat => some "invalid message format"
  | noBinaryInput => some "no binary input function available for type %s"
  | noBinaryOutput => some "no binary output function available for type %s"
  | stringTooLong => some "out of memory"
  | invalidAllocSize => some "invalid memory alloc request size %zu"
  | toastPointerInRange => some "cannot store a toast pointer inside a range"
  | divisionByZero | divisionOverflow | uninitializedRead | outOfFuel => none

/-- `MaxAllocSize`, one gigabyte less one byte. -/
def maxAllocSize : ℕ := 0x3fffffff

/-- Read an entry of an array; outside of it nothing has been written. -/
def readEntry {β : Type} (entries : List β) (k : ℤ) : Except Fault β :=
  if k < 0 then .error .uninitializedRead
  else
    match entries[k.toNat]? with
    | some entry => .ok entry
    | none => .error .uninitializedRead

theorem readEntry_of_lt {β : Type} {entries : List β} {k : ℕ} (hk : k < entries.length)
    (d : β) : readEntry entries k = .ok (entries.getD k d) := by
  have hnat : ¬ (k : ℤ) < 0 := by omega
  simp [readEntry, hnat, hk]

/-- The flags byte of a range, one field per bit from `RANGE_EMPTY` (0x01) to
`RANGE_CONTAIN_EMPTY` (0x80). -/
structure RangeFlags where
  empty : Bool := false
  lbInc : Bool := false
  ubInc : Bool := false
  lbInf : Bool := false
  ubInf : Bool := false
  lbNull : Bool := false
  ubNull : Bool := false
  containEmpty : Bool := false
  deriving DecidableEq, Repr

namespace RangeFlags

/-- `RANGE_HAS_LBOUND`. -/
def hasLbound (flags : RangeFlags) : Bool := !(flags.empty || flags.lbNull || flags.lbInf)

/-- `RANGE_HAS_UBOUND`. -/
def hasUbound (flags : RangeFlags) : Bool := !(flags.empty || flags.ubNull || flags.ubInf)

/-- The flags as the byte that ends a stored range. -/
def toByte (flags : RangeFlags) : UInt8 :=
  (if flags.empty then 0x01 else 0) ||| (if flags.lbInc then 0x02 else 0) |||
  (if flags.ubInc then 0x04 else 0) ||| (if flags.lbInf then 0x08 else 0) |||
  (if flags.ubInf then 0x10 else 0) ||| (if flags.lbNull then 0x20 else 0) |||
  (if flags.ubNull then 0x40 else 0) ||| (if flags.containEmpty then 0x80 else 0)

/-- The flags that a byte stands for. -/
def ofByte (byte : UInt8) : RangeFlags where
  empty := byte &&& 0x01 != 0
  lbInc := byte &&& 0x02 != 0
  ubInc := byte &&& 0x04 != 0
  lbInf := byte &&& 0x08 != 0
  ubInf := byte &&& 0x10 != 0
  lbNull := byte &&& 0x20 != 0
  ubNull := byte &&& 0x40 != 0
  containEmpty := byte &&& 0x80 != 0

/-- The byte holds all the flags. -/
@[simp] theorem ofByte_toByte (flags : RangeFlags) : ofByte flags.toByte = flags := by
  obtain ⟨a, b, c, d, e, f, g, h⟩ := flags
  revert a b c d e f g h
  decide +kernel

end RangeFlags

/-- Internal representation of either bound of a range. -/
structure RangeBound (α : Type) where
  val : α
  infinite : Bool
  inclusive : Bool
  lower : Bool
  deriving DecidableEq, Repr, Inhabited

/-- A range value. The bound fields are meaningful only when the flags say that
the bound is present. -/
structure RangeType (α : Type) where
  flags : RangeFlags
  lbound : α
  ubound : α
  deriving DecidableEq, Repr

section

variable {α : Type}

/-- `RangeIsEmpty`. -/
def rangeIsEmpty (r : RangeType α) : Bool := r.flags.empty

/-- `RangeIsOrContainsEmpty`. -/
def rangeIsOrContainsEmpty (r : RangeType α) : Bool := r.flags.empty || r.flags.containEmpty

/-- `range_set_contain_empty`. -/
def rangeSetContainEmpty (r : RangeType α) : RangeType α :=
  { r with flags := { r.flags with containEmpty := true } }

/-- What `range_deserialize` emits. -/
structure RangeParts (α : Type) where
  lower : RangeBound α
  upper : RangeBound α
  empty : Bool
  deriving DecidableEq, Repr

/-- `range_deserialize`. The zero word stands for an absent bound. -/
def rangeDeserialize [Inhabited α] (range : RangeType α) : RangeParts α where
  lower :=
    { val := if range.flags.hasLbound then range.lbound else default
      infinite := range.flags.lbInf
      inclusive := range.flags.lbInc
      lower := true }
  upper :=
    { val := if range.flags.hasUbound then range.ubound else default
      infinite := range.flags.ubInf
      inclusive := range.flags.ubInc
      lower := false }
  empty := range.flags.empty

/-- `range_cmp_bounds`: order two bounds of either side. -/
def rangeCmpBounds (cmp : α → α → Ordering) (b1 b2 : RangeBound α) : Ordering :=
  if b1.infinite && b2.infinite then
    if b1.lower == b2.lower then .eq
    else if b1.lower then .lt else .gt
  else if b1.infinite then
    if b1.lower then .lt else .gt
  else if b2.infinite then
    if b2.lower then .gt else .lt
  else
    match cmp b1.val b2.val with
    | .eq =>
      if !b1.inclusive && !b2.inclusive then
        if b1.lower == b2.lower then .eq
        else if b1.lower then .gt else .lt
      else if !b1.inclusive then
        if b1.lower then .gt else .lt
      else if !b2.inclusive then
        if b2.lower then .lt else .gt
      else .eq
    | result => result

/-- `range_cmp_bound_values`: order the values held by two bounds. -/
def rangeCmpBoundValues (cmp : α → α → Ordering) (b1 b2 : RangeBound α) : Ordering :=
  if b1.infinite && b2.infinite then
    if b1.lower == b2.lower then .eq
    else if b1.lower then .lt else .gt
  else if b1.infinite then
    if b1.lower then .lt else .gt
  else if b2.infinite then
    if b2.lower then .gt else .lt
  else cmp b1.val b2.val

/-! ### Bounds as cut points -/

/-- The place a bound stands for: an exclusive lower bound lies just above its
value, an exclusive upper bound just below it. -/
def RangeBound.cut (b : RangeBound α) : Cut α :=
  if b.infinite then
    if b.lower then .bot else .top
  else
    .point b.val (if b.inclusive then 0 else if b.lower then 1 else -1)

/-- The bound comparison of the code is the comparison of cut points. -/
theorem rangeCmpBounds_eq_cut (cmp : α → α → Ordering) (b1 b2 : RangeBound α) :
    rangeCmpBounds cmp b1 b2 = Cut.compareBy cmp b1.cut b2.cut := by
  obtain ⟨v, inf1, inc1, low1⟩ := b1
  obtain ⟨w, inf2, inc2, low2⟩ := b2
  cases inf1 <;> cases inf2
  · -- both finite: the tie of equal values is broken by the offsets
    simp only [rangeCmpBounds, RangeBound.cut, Bool.false_and, Bool.false_eq_true, ↓reduceIte,
      Cut.compareBy_point_point]
    cases cmp v w <;> cases inc1 <;> cases inc2 <;> cases low1 <;> cases low2 <;> rfl
  · cases low2 <;> rfl
  · cases low1 <;> rfl
  · cases low1 <;> cases low2 <;> rfl

/-- The bounds of a totally preordered subtype are totally preordered. -/
instance (cmp : α → α → Ordering) [Std.TransCmp cmp] : Std.TransCmp (rangeCmpBounds cmp) where
  eq_swap := by
    intro a b
    rw [rangeCmpBounds_eq_cut, rangeCmpBounds_eq_cut]
    exact Std.OrientedCmp.eq_swap
  isLE_trans := by
    intro a b c hab hbc
    rw [rangeCmpBounds_eq_cut] at hab hbc ⊢
    exact Std.TransCmp.isLE_trans hab hbc

/-- Among finite bounds the order of the bounds gives the order of the values. -/
theorem val_isLE_of_isLE {cmp : α → α → Ordering} {a b : RangeBound α} (ha : a.infinite = false)
    (hb : b.infinite = false) (h : (rangeCmpBounds cmp a b).isLE) : (cmp a.val b.val).isLE := by
  rw [rangeCmpBounds_eq_cut] at h
  simp only [RangeBound.cut, ha, hb, Bool.false_eq_true, ↓reduceIte, Cut.compareBy_point_point,
    Ordering.isLE_then_iff_or] at h
  rcases h with h | ⟨h, -⟩
  · exact isLE_of_lt h
  · exact isLE_of_eq h

/-- Nothing but an infinite lower bound lies at or below an infinite lower bound. -/
theorem infinite_of_isLE_lower {cmp : α → α → Ordering} {a b : RangeBound α}
    (hb : b.lower = true) (hinf : b.infinite = true)
    (h : (rangeCmpBounds cmp a b).isLE) : a.infinite = true := by
  by_contra hfin
  simp [rangeCmpBounds, hb, hinf, hfin] at h

/-- Nothing but an infinite upper bound lies at or above an infinite upper bound. -/
theorem infinite_of_isLE_upper {cmp : α → α → Ordering} {a b : RangeBound α}
    (ha : a.lower = false) (hinf : a.infinite = true)
    (h : (rangeCmpBounds cmp a b).isLE) : b.infinite = true := by
  by_contra hfin
  simp [rangeCmpBounds, ha, hinf, hfin] at h

/-- A lower bound admits the elements whose place is at or above its own. -/
theorem lower_admits_iff {cmp : α → α → Ordering} {b : RangeBound α} (hb : b.lower = true)
    (val : α) :
    (Cut.compareBy cmp b.cut (.point val 0)).isLE ↔
      b.infinite = true ∨
        cmp b.val val ≠ .gt ∧ (cmp b.val val = .eq → b.inclusive = true) := by
  obtain ⟨v, inf, inc, low⟩ := b
  obtain rfl : low = true := hb
  cases inf
  · cases inc <;> cases hc : cmp v val <;> simp [RangeBound.cut, hc, compareInt]
  · simp [RangeBound.cut]

/-- An upper bound admits the elements whose place is at or below its own. -/
theorem upper_admits_iff {cmp : α → α → Ordering} [Std.OrientedCmp cmp] {b : RangeBound α}
    (hb : b.lower = false) (val : α) :
    (Cut.compareBy cmp (.point val 0) b.cut).isLE ↔
      b.infinite = true ∨
        cmp b.val val ≠ .lt ∧ (cmp b.val val = .eq → b.inclusive = true) := by
  rw [Cut.compareBy_swap, Ordering.isLE_swap]
  obtain ⟨v, inf, inc, low⟩ := b
  obtain rfl : low = false := hb
  cases inf
  · cases inc <;> cases hc : cmp v val <;> simp [RangeBound.cut, hc, compareInt]
  · simp [RangeBound.cut]

/-- An upper and a lower bound with level values and opposite inclusiveness are
neighbouring cut points, and conversely. -/
theorem adjacent_cut_iff {cmp : α → α → Ordering} {a b : RangeBound α}
    (ha : a.lower = false) (hb : b.lower = true) :
    rangeCmpBoundValues cmp a b = .eq ∧ a.inclusive ≠ b.inclusive ↔
      Cut.Adjacent cmp a.cut b.cut := by
  obtain ⟨v, inf1, inc1, low1⟩ := a
  obtain ⟨w, inf2, inc2, low2⟩ := b
  obtain rfl : low1 = false := ha
  obtain rfl : low2 = true := hb
  cases inf1 <;> cases inf2 <;> cases inc1 <;> cases inc2 <;>
    simp [rangeCmpBoundValues, RangeBound.cut]

end

end PgRange
