import PgRange.Math.BinarySearch
import PgRange.Math.FloatQ
import PgRange.Selectivity.CalcRangesel

/-!
# Selectivity from the histograms of bounds and lengths

`calc_hist_selectivity` and the functions below it. The bounds histogram holds ranges whose
lower bounds and whose upper bounds are equally spread over the column, and the length
histogram does the same for the lengths. A position between two entries is interpolated
with the subtype difference, if the type has one.

The arithmetic is that of `double`, without rounding. Every division is checked for a
divisor of zero, and an `Assert` that does not hold ends the computation, so that a result
without fault says that neither happened.
-/

set_option autoImplicit false

namespace PgRange.Selectivity

open Math

/-- What ends a histogram estimate early: the errors it reports, an `Assert` that does not
hold, and a division by zero. -/
inductive HistFault
  | emptyInBoundsHistogram
  | unknownRangeOperator
  | assertion
  | divisionByZero
  deriving DecidableEq, Repr

/-- The message text of a reported error. -/
def HistFault.message : HistFault → Option String
  | emptyInBoundsHistogram => some "bounds histogram contains an empty range"
  | unknownRangeOperator => some "unknown range operator %u"
  | assertion | divisionByZero => none

/-- The operator `/` of C on `double`. -/
def divide (x y : FloatQ) : Except HistFault FloatQ :=
  if y = .fin 0 then .error .divisionByZero else .ok (x / y)

/-! ### Histograms of bounds -/

section Bounds

variable {α : Type} [Inhabited α] (typcache : TypeCacheEntry α)

/-- The test that `rbound_bsearch` makes on the entry `i`. -/
def rboundTest (value : RangeBound α) (hist : List (RangeBound α)) (equal : Bool) (i : ℕ) : Bool :=
  let cmp := rangeCmpBounds typcache.cmp (hist.getD i default) value
  cmp == .lt || (equal && cmp == .eq)

/-- `rbound_bsearch`. -/
def rboundBsearch (value : RangeBound α) (hist : List (RangeBound α)) (equal : Bool) : ℤ :=
  bsearchLast (rboundTest typcache value hist equal) hist.length

/-- `get_position`. -/
def getPosition (value hist1 hist2 : RangeBound α) : Except HistFault FloatQ :=
  if !hist1.infinite && !hist2.infinite then
    if value.infinite then .ok (.fin (1 / 2))
    else
      match typcache.rngSubdiff with
      | none => .ok (.fin (1 / 2))
      | some subdiff => do
        let binWidth := FloatQ.fin (subdiff hist2.val hist1.val)
        if binWidth.isNan || binWidth.le (.fin 0) then return .fin (1 / 2)
        let position ← divide (.fin (subdiff value.val hist1.val)) binWidth
        if position.isNan then return .fin (1 / 2)
        return (position.max (.fin 0)).min (.fin 1)
  else if hist1.infinite && !hist2.infinite then
    .ok (if value.infinite && value.lower then .fin 0 else .fin 1)
  else if !hist1.infinite && hist2.infinite then
    .ok (if value.infinite && !value.lower then .fin 1 else .fin 0)
  else .ok (.fin (1 / 2))

/-- `get_distance`. -/
def getDistance (bound1 bound2 : RangeBound α) : FloatQ :=
  if !bound1.infinite && !bound2.infinite then
    match typcache.rngSubdiff with
    | some subdiff =>
      let res := FloatQ.fin (subdiff bound2.val bound1.val)
      if res.isNan || res.lt (.fin 0) then .fin 1 else res
    | none => .fin 1
  else if bound1.infinite && bound2.infinite then
    if bound1.lower == bound2.lower then .fin 0 else .posInf
  else .posInf

/-- `calc_hist_selectivity_scalar`. -/
def calcHistSelectivityScalar (constbound : RangeBound α) (hist : List (RangeBound α))
    (equal : Bool) : Except HistFault FloatQ := do
  let histNvalues : ℤ := hist.length
  let index := rboundBsearch typcache constbound hist equal
  let selec ← divide (.fin (max index 0 : ℤ)) (.fin (histNvalues - 1 : ℤ))
  if 0 ≤ index ∧ index < histNvalues - 1 then
    let position ← getPosition typcache constbound (hist.getD index.toNat default)
      (hist.getD (index.toNat + 1) default)
    return selec + (← divide position (.fin (histNvalues - 1 : ℤ)))
  else return selec

end Bounds

/-! ### The histogram of lengths -/

section Lengths

/-- The test that `length_hist_bsearch` makes on an entry. -/
def lengthTest (value : FloatQ) (equal : Bool) (middleval : FloatQ) : Bool :=
  middleval.lt value || (equal && middleval.le value)

/-- `length_hist_bsearch`. -/
def lengthHistBsearch (lengthHist : List FloatQ) (value : FloatQ) (equal : Bool) : ℤ :=
  bsearchLast (fun i => lengthTest value equal (lengthHist.getD i (.fin 0))) lengthHist.length

/-- `get_len_position`. -/
def getLenPosition (value hist1 hist2 : FloatQ) : Except HistFault FloatQ :=
  if !hist1.isInf && !hist2.isInf then
    if value.isInf then .ok (.fin (1 / 2))
    else do return .fin 1 - (← divide (hist2 - value) (hist2 - hist1))
  else if hist1.isInf && !hist2.isInf then .ok (.fin 1)
  -- the case of an infinite upper end tests the lower end again
  else if hist1.isInf && hist2.isInf then .ok (.fin 0)
  else .ok (.fin (1 / 2))

/-- The area so far, the bin that is next, and where the last bin ended. -/
structure AreaState where
  i : ℕ
  area : FloatQ
  b : FloatQ
  pb : FloatQ
  deriving DecidableEq, Repr

/-- Add the trapezoid from `s.b` to `b`, unless both its sides have no height. -/
def AreaState.add (s : AreaState) (b pb : FloatQ) : FloatQ :=
  let pa := s.pb
  if (FloatQ.fin 0).lt pa || (FloatQ.fin 0).lt pb then
    s.area + .fin (1 / 2) * (pb + pa) * (b - s.b)
  else s.area

variable (lengthHist : List FloatQ) (length2 : FloatQ) (equal : Bool)

/-- The loop of `calc_length_hist_frac` over the bins that end before `length2`. -/
def areaLoop : ℕ → AreaState → Except HistFault AreaState
  | 0, s => .ok s
  | rounds + 1, s =>
    let binUpper := lengthHist.getD (s.i + 1) (.fin 0)
    if !lengthTest length2 equal binUpper then .ok s
    else do
      -- the height at the end of bin `i` is taken to be that at its start
      let pb ← divide (.fin s.i) (.fin (lengthHist.length - 1 : ℤ))
      areaLoop rounds ⟨s.i + 1, s.add binUpper pb, binUpper, pb⟩

/-- The first bin of `calc_length_hist_frac`, and the position of `length1` in it. -/
def firstBin (length1 : FloatQ) (i : ℤ) : Except HistFault (ℕ × FloatQ) :=
  if i < 0 then .ok (0, .fin 0)
  else do
    let pos ← getLenPosition length1 (lengthHist.getD i.toNat (.fin 0))
      (lengthHist.getD (i.toNat + 1) (.fin 0))
    return (i.toNat, pos)

/-- The position of `length2` in the last bin. -/
def lastPosition (i : ℕ) : Except HistFault FloatQ :=
  if i ≥ lengthHist.length - 1 then .ok (.fin 0)
  else if (lengthHist.getD i (.fin 0)).isEq (lengthHist.getD (i + 1) (.fin 0)) then .ok (.fin 0)
  else getLenPosition length2 (lengthHist.getD i (.fin 0)) (lengthHist.getD (i + 1) (.fin 0))

/-- `calc_length_hist_frac`. -/
def calcLengthHistFrac (length1 : FloatQ) : Except HistFault FloatQ :=
  if !length1.le length2 then .error .assertion
  else if length2.lt (.fin 0) then .ok (.fin 0)
  else if length2.isInf && equal then .ok (.fin 1)
  else
    let i := lengthHistBsearch lengthHist length1 equal
    if i ≥ lengthHist.length - 1 then .ok (.fin 1)
    else do
      let nbins := FloatQ.fin (lengthHist.length - 1 : ℤ)
      let (i, pos) ← firstBin lengthHist length1 i
      let pb ← divide (.fin i + pos) nbins
      if length2.isEq length1 then return pb
      let s ← areaLoop lengthHist length2 equal (lengthHist.length - 1 - i) ⟨i, .fin 0, length1, pb⟩
      let pos ← lastPosition lengthHist length2 s.i
      let pb ← divide (.fin s.i + pos) nbins
      let area := s.add length2 pb
      if area.isInf && length2.isInf then return .fin (1 / 2)
      divide area (length2 - length1)

end Lengths

/-! ### Containment -/

section Containment

variable {α : Type} [Inhabited α] (typcache : TypeCacheEntry α)

/-- The locals of the loops of `calc_hist_selectivity_contained` and
`calc_hist_selectivity_contains`. -/
structure BinState where
  prevDist : FloatQ
  binWidth : FloatQ
  sumFrac : FloatQ
  deriving DecidableEq, Repr

variable (lower upper : RangeBound α) (histLower : List (RangeBound α)) (lengthHist : List FloatQ)

/-- The loop of `calc_hist_selectivity_contained`, from bin `i - 1` downwards. -/
def containedLoop : ℕ → BinState → Except HistFault FloatQ
  | 0, s => .ok s.sumFrac
  | i + 1, s =>
    let nbins := FloatQ.fin (histLower.length - 1 : ℤ)
    if rangeCmpBounds typcache.cmp (histLower.getD i default) lower = .lt then do
      -- the final bin, which contains the lower bound of the constant
      let dist := getDistance typcache lower upper
      let position ← getPosition typcache lower (histLower.getD i default)
        (histLower.getD (i + 1) default)
      let binWidth := s.binWidth - position
      let binWidth := if binWidth.lt (.fin 0) then .fin 0 else binWidth
      let lengthHistFrac ← calcLengthHistFrac lengthHist dist true s.prevDist
      return s.sumFrac + (← divide (lengthHistFrac * binWidth) nbins)
    else do
      let dist := getDistance typcache (histLower.getD i default) upper
      let lengthHistFrac ← calcLengthHistFrac lengthHist dist true s.prevDist
      let sumFrac := s.sumFrac + (← divide (lengthHistFrac * s.binWidth) nbins)
      containedLoop i ⟨dist, .fin 1, sumFrac⟩

/-- `calc_hist_selectivity_contained`. -/
def calcHistSelectivityContained : Except HistFault FloatQ :=
  -- the upper bound is turned into the lower bound of what follows it
  let upper := { upper with inclusive := !upper.inclusive, lower := true }
  let upperIndex := rboundBsearch typcache upper histLower false
  if upperIndex < 0 then .ok (.fin 0)
  else do
    let upperIndex := (min upperIndex (histLower.length - 2)).toNat
    let upperBinWidth ← getPosition typcache upper (histLower.getD upperIndex default)
      (histLower.getD (upperIndex + 1) default)
    containedLoop typcache lower upper histLower lengthHist (upperIndex + 1)
      ⟨.fin 0, upperBinWidth, .fin 0⟩

/-- The loop of `calc_hist_selectivity_contains`, from bin `i - 1` downwards. -/
def containsLoop : ℕ → BinState → Except HistFault FloatQ
  | 0, s => .ok s.sumFrac
  | i + 1, s => do
    let dist := getDistance typcache (histLower.getD i default) upper
    let lengthHistFrac := .fin 1 - (← calcLengthHistFrac lengthHist dist false s.prevDist)
    let sumFrac := s.sumFrac +
      (← divide (lengthHistFrac * s.binWidth) (.fin (histLower.length - 1 : ℤ)))
    containsLoop i ⟨dist, .fin 1, sumFrac⟩

/-- `calc_hist_selectivity_contains`. -/
def calcHistSelectivityContains : Except HistFault FloatQ :=
  let lowerIndex := rboundBsearch typcache lower histLower true
  if lowerIndex < 0 then .ok (.fin 0)
  else do
    let lowerIndex := (min lowerIndex (histLower.length - 2)).toNat
    let lowerBinWidth ← getPosition typcache lower (histLower.getD lowerIndex default)
      (histLower.getD (lowerIndex + 1) default)
    containsLoop typcache upper histLower lengthHist (lowerIndex + 1)
      ⟨getDistance typcache lower upper, lowerBinWidth, .fin 0⟩

end Containment

/-! ### The estimate for an operator -/

section Operators

variable {α : Type} [Inhabited α]

/-- What `calc_hist_selectivity` finds out about the column: whether the comparison and the
difference of the subtype may see its statistics, and the two histograms. -/
structure HistVariable (α : Type) where
  cmpSecure : Bool
  subdiffSecure : Bool
  statsTuple : Option (Option (List (RangeType α)) × Option (List FloatQ))

/-- The bounds of a histogram entry, which must not be empty. -/
def histBounds (range : RangeType α) : Except HistFault (RangeParts α) :=
  if (rangeDeserialize range).empty then .error .emptyInBoundsHistogram
  else .ok (rangeDeserialize range)

variable (typcache : TypeCacheEntry α)

/-- The `switch` of `calc_hist_selectivity`. -/
def histSwitch (constLower constUpper : RangeBound α) (histLower histUpper : List (RangeBound α))
    (lengthHist : List FloatQ) : RangeOp → Except HistFault FloatQ
  | .less => calcHistSelectivityScalar typcache constLower histLower false
  | .lessEqual => calcHistSelectivityScalar typcache constLower histLower true
  | .greater => do return .fin 1 - (← calcHistSelectivityScalar typcache constLower histLower false)
  | .greaterEqual => do
    return .fin 1 - (← calcHistSelectivityScalar typcache constLower histLower true)
  | .left => calcHistSelectivityScalar typcache constLower histUpper false
  | .right => do return .fin 1 - (← calcHistSelectivityScalar typcache constUpper histLower true)
  | .overlapsRight => do
    return .fin 1 - (← calcHistSelectivityScalar typcache constLower histLower false)
  | .overlapsLeft => calcHistSelectivityScalar typcache constUpper histUpper true
  | .overlap | .containsElem => do
    let histSelec ← calcHistSelectivityScalar typcache constLower histUpper false
    let right ← calcHistSelectivityScalar typcache constUpper histLower true
    return .fin 1 - (histSelec + (.fin 1 - right))
  | .contains => calcHistSelectivityContains typcache constLower constUpper histLower lengthHist
  | .contained =>
    if constLower.infinite then calcHistSelectivityScalar typcache constUpper histUpper true
    else if constUpper.infinite then do
      return .fin 1 - (← calcHistSelectivityScalar typcache constLower histLower false)
    else calcHistSelectivityContained typcache constLower constUpper histLower lengthHist
  | .elemContained => .error .unknownRangeOperator

/-- The end of `calc_hist_selectivity`, with the histograms at hand. -/
def histEstimate (constval : RangeType α) (histLower histUpper : List (RangeBound α))
    (lengthHist : List FloatQ) (operator : RangeOp) : Except HistFault FloatQ :=
  let const := rangeDeserialize constval
  if const.empty then .error .assertion
  else histSwitch typcache const.lower const.upper histLower histUpper lengthHist operator

/-- `calc_hist_selectivity`. A result below zero says that there is no estimate. -/
def calcHistSelectivity (vardata : HistVariable α) (constval : RangeType α) (operator : RangeOp) :
    Except HistFault FloatQ :=
  if !vardata.cmpSecure then .ok (.fin (-1))
  else if typcache.rngSubdiff.isSome && !vardata.subdiffSecure then .ok (.fin (-1))
  else
    match vardata.statsTuple with
    | some (some hist, lengths) =>
      -- a histogram of one value is a dummy entry
      if hist.length < 2 then .ok (.fin (-1))
      else do
        let parts ← hist.mapM histBounds
        let histLower := parts.map RangeParts.lower
        let histUpper := parts.map RangeParts.upper
        if operator = .contains ∨ operator = .contained then
          match lengths with
          | some lengthHist =>
            if lengthHist.length < 2 then return .fin (-1)
            else histEstimate typcache constval histLower histUpper lengthHist operator
          | none => return .fin (-1)
        else histEstimate typcache constval histLower histUpper [] operator
    | some (none, _) | none => .ok (.fin (-1))

end Operators

end PgRange.Selectivity
