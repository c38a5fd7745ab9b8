import PgRange.Math.SortBy
import PgRange.Range.Operators
import PgRange.Stats.CountFrequencies
import Mathlib.Data.List.GetD

/-!
# Statistics of a range column

`compute_range_stats` scans the sampled rows, sorts the lower and the upper
bounds of the non-empty ranges separately, and stores three histograms: bounds,
lengths and frequencies.

A bound value of the subtype `α` reaches the frequency histogram as the machine
word `word v` that holds it, or that holds its address. The two local arrays that
the bounds histogram fills and the frequency histogram reads are `none` as long as
the code has not allocated them.

## Main results

* `frequencyCall_eq` — with at least two non-empty ranges the frequency histogram
  is computed from the independently sorted bounds, read at evenly spread
  positions
-/

set_option autoImplicit false

namespace PgRange.Stats

open Math

/-! ### The sample -/

/-- A value of the sample, with the size of its stored form. -/
structure SampleValue (α : Type) where
  varsize : ℕ
  range : RangeType α

/-- The statistics target of a column; at zero the column is not analyzed. -/
structure StatTarget where
  attstattarget : ℕ
  pos : 1 ≤ attstattarget
  le : attstattarget ≤ 10000

/-- The locals of `compute_range_stats` after the loop over the sample. -/
structure SampleScan (α : Type) where
  nullCnt : ℕ := 0
  nonNullCnt : ℕ := 0
  nonEmptyCnt : ℕ := 0
  emptyCnt : ℕ := 0
  totalWidth : ℕ := 0
  lowers : List (RangeBound α) := []
  uppers : List (RangeBound α) := []
  lengths : List FloatQ := []

section Source

variable {α : Type} [Inhabited α]

/-- The length of a non-empty range: infinite if a bound is, else what the
subtype difference says, else one. -/
def rangeLength (typcache : TypeCacheEntry α) (lower upper : RangeBound α) : FloatQ :=
  if lower.infinite || upper.infinite then .posInf
  else
    match typcache.rngSubdiff with
    | some subdiff => .fin (subdiff upper.val lower.val)
    | none => .fin 1

/-- One round of the loop over the sample; `none` is a null. -/
def scanRow (typcache : TypeCacheEntry α) (s : SampleScan α) :
    Option (SampleValue α) → SampleScan α
  | none => { s with nullCnt := s.nullCnt + 1 }
  | some value =>
    let s := { s with totalWidth := s.totalWidth + value.varsize }
    let ⟨lower, upper, empty⟩ := rangeDeserialize value.range
    let s :=
      if !empty then
        { s with
          lowers := s.lowers ++ [lower]
          uppers := s.uppers ++ [upper]
          lengths := s.lengths ++ [rangeLength typcache lower upper]
          nonEmptyCnt := s.nonEmptyCnt + 1 }
      else { s with emptyCnt := s.emptyCnt + 1 }
    { s with nonNullCnt := s.nonNullCnt + 1 }

/-- The loop over the sample. -/
def scanSample (typcache : TypeCacheEntry α) (sample : List (Option (SampleValue α))) :
    SampleScan α :=
  sample.foldl (scanRow typcache) {}

/-- `float8_qsort_cmp`. -/
def float8QsortCmp (f1 f2 : FloatQ) : Ordering :=
  if f1.lt f2 then .lt else if f1 ≠ .nan ∧ f1 = f2 then .eq else .gt

/-- The number of histogram entries for `n` values. -/
def numHist (n bins : ℕ) : ℕ := if n > bins then bins + 1 else n

/-- The subscripts that a histogram loop reads: `pos` advances by `delta` and a
carry from `posfrac`. -/
def histogramPositions (delta deltafrac denom : ℕ) : ℕ → ℕ → ℕ → List ℕ
  | 0, _, _ => []
  | m + 1, pos, posfrac =>
    pos ::
      if posfrac + deltafrac ≥ denom then
        histogramPositions delta deltafrac denom m (pos + delta + 1) (posfrac + deltafrac - denom)
      else histogramPositions delta deltafrac denom m (pos + delta) (posfrac + deltafrac)

/-- The subscripts for a histogram of `m` entries over `n` values. -/
def evenPositions (n m : ℕ) : List ℕ :=
  histogramPositions ((n - 1) / (m - 1)) ((n - 1) % (m - 1)) (m - 1) m 0 0

/-- What the bounds histogram loop leaves: the two arrays and the stored ranges. -/
structure BoundsHistogram (α : Type) where
  tempLowers : List (RangeBound α)
  tempUppers : List (RangeBound α)
  values : List (RangeType α)

/-- The bounds histogram: both sides are sorted independently. -/
def boundsHistogram (typcache : TypeCacheEntry α) (lowers uppers : List (RangeBound α))
    (bins : ℕ) : Except Fault (BoundsHistogram α) := do
  let lowers := sortBy (rangeCmpBounds typcache.cmp) lowers
  let uppers := sortBy (rangeCmpBounds typcache.cmp) uppers
  let positions := evenPositions lowers.length (numHist lowers.length bins)
  -- the two bounds at `pos` need not come from one range
  let values ← positions.mapM fun pos =>
    rangeSerialize typcache.cmp (lowers.getD pos default) (uppers.getD pos default) false
  return {
    tempLowers := positions.map fun pos => lowers.getD pos default
    tempUppers := positions.map fun pos => uppers.getD pos default
    values := values }

/-- The length histogram. -/
def lengthHistogram (lengths : List FloatQ) (bins : ℕ) : List FloatQ :=
  let lengths := sortBy float8QsortCmp lengths
  (evenPositions lengths.length (numHist lengths.length bins)).map fun pos =>
    lengths.getD pos .nan

/-- The arguments of the call to `ComputeFrequencyHistogram`. A pointer that was
never assigned is `none`. -/
structure FrequencyCall (α : Type) where
  lowers : Option (List (RangeBound α))
  uppers : Option (List (RangeBound α))
  rows : ℕ

/-- The statistics slot of the frequency histogram. -/
structure FrequencySlot where
  numvalues : ℤ
  stavalues : List FloatQ
  deriving DecidableEq, Repr

/-- Read an element of an array that the caller may not have filled. -/
def readBound (bounds : List (RangeBound Datum)) (k : ℤ) : Except Fault (RangeBound Datum) :=
  if k < 0 then .error .uninitializedRead
  else
    match bounds[k.toNat]? with
    | some b => .ok b
    | none => .error .uninitializedRead

/-- `ComputeFrequencyHistogram`: the grid and the sweep. What it stores are the
number of intervals and the counts of the buckets. -/
def computeFrequencyHistogram (A : CInt) (R : CFloat)
    (lowers uppers : Option (List (RangeBound Datum))) (rows : ℕ) :
    Except Fault (Grid × List Bucket) :=
  match lowers, uppers with
  | some lowers, some uppers => do
    let firstLower ← readBound lowers 0
    -- for `rows = 0` this reads in front of the array
    let lastUpper ← readBound uppers (rows - 1)
    let grid ← chooseIntervals A firstLower.val lastUpper.val
    let buckets ← countFrequencies A R lowers uppers rows grid.intervalLength grid.nbOfIntervals
      grid.min
    return (grid, buckets)
  | _, _ => .error .uninitializedRead

/-- A bound with its value replaced by the word that holds it. -/
def boundToWord (word : α → Datum) (b : RangeBound α) : RangeBound Datum :=
  ⟨word b.val, b.infinite, b.inclusive, b.lower⟩

/-- The histograms of a column with at least one value. -/
structure RangeSlots (α : Type) where
  bounds : Option (List (RangeType α))
  lengths : List FloatQ
  emptyfrac : ℚ
  frequencies : FrequencySlot

/-- What is stored about a column. -/
structure ColumnStats (α : Type) where
  stanullfrac : ℚ
  stawidth : ℕ
  stadistinct : ℚ
  slots : Option (RangeSlots α)

/-- The bounds histogram, if there are two values for it, and with it the
arguments for the frequency histogram; `none` if that call is not reached. -/
def frequencyCall (typcache : TypeCacheEntry α) (target : StatTarget)
    (sample : List (Option (SampleValue α))) :
    Except Fault (Option (FrequencyCall α × Option (List (RangeType α)))) :=
  let scan := scanSample typcache sample
  if scan.nonNullCnt > 0 then
    if scan.nonEmptyCnt ≥ 2 then do
      let hist ← boundsHistogram typcache scan.lowers scan.uppers target.attstattarget
      return some (⟨some hist.tempLowers, some hist.tempUppers,
        numHist scan.nonEmptyCnt target.attstattarget⟩, some hist.values)
    else
      -- the arrays are never allocated, and the length histogram sets `num_hist` to zero
      return some (⟨none, none, 0⟩, none)
  else return none

/-- The call to `ComputeFrequencyHistogram`, with the bounds as machine words. -/
def FrequencyCall.run (A : CInt) (R : CFloat) (word : α → Datum) (call : FrequencyCall α) :
    Except Fault (Grid × List Bucket) :=
  computeFrequencyHistogram A R (call.lowers.map (List.map (boundToWord word)))
    (call.uppers.map (List.map (boundToWord word))) call.rows

/-- `compute_range_stats`; `none` if the sample has no rows. -/
def computeRangeStats (A : CInt) (R : CFloat) (word : α → Datum)
    (typcache : TypeCacheEntry α) (target : StatTarget) (sample : List (Option (SampleValue α))) :
    Except Fault (Option (ColumnStats α)) := do
  let scan := scanSample typcache sample
  match ← frequencyCall typcache target sample with
  | some (call, bounds) =>
    let stanullfrac : ℚ := scan.nullCnt / sample.length
    let lengths :=
      if scan.nonEmptyCnt ≥ 2 then lengthHistogram scan.lengths target.attstattarget else []
    let (grid, buckets) ← call.run A R word
    return some {
      stanullfrac := stanullfrac
      stawidth := scan.totalWidth / scan.nonNullCnt
      stadistinct := -1 * (1 - stanullfrac)
      slots := some {
        bounds := bounds
        lengths := lengths
        emptyfrac := scan.emptyCnt / scan.nonNullCnt
        frequencies := ⟨grid.nbOfIntervals, buckets.map Bucket.count⟩ } }
  | none =>
    -- only nulls: the column is taken to be entirely null
    if scan.nullCnt > 0 then return some ⟨1, 0, 0, none⟩ else return none

end Source

/-! ### The scan -/

section Scan

variable {α : Type} [Inhabited α]

/-- The deserialized non-empty ranges of a sample. -/
def nonEmptyParts (sample : List (Option (SampleValue α))) : List (RangeParts α) :=
  sample.filterMap fun row => row.bind fun value =>
    if value.range.flags.empty then none else some (rangeDeserialize value.range)

theorem foldl_scanRow (typcache : TypeCacheEntry α) (s : SampleScan α)
    (sample : List (Option (SampleValue α))) :
    (sample.foldl (scanRow typcache) s).lowers =
        s.lowers ++ (nonEmptyParts sample).map RangeParts.lower ∧
      (sample.foldl (scanRow typcache) s).uppers =
        s.uppers ++ (nonEmptyParts sample).map RangeParts.upper ∧
      (sample.foldl (scanRow typcache) s).nonEmptyCnt =
        s.nonEmptyCnt + (nonEmptyParts sample).length ∧
      (sample.foldl (scanRow typcache) s).nonNullCnt =
        s.nonNullCnt + (sample.filterMap id).length := by
  induction sample generalizing s with
  | nil => simp [nonEmptyParts]
  | cons row sample ih =>
    obtain ⟨hl, hu, hc, hn⟩ := ih (scanRow typcache s row)
    rw [List.foldl_cons, hl, hu, hc, hn]
    cases row with
    | none => simp [scanRow, nonEmptyParts]
    | some value =>
      cases hempty : value.range.flags.empty <;>
        simp [scanRow, nonEmptyParts, hempty, Nat.add_assoc, Nat.add_comm 1]

theorem exists_of_mem_nonEmptyParts {sample : List (Option (SampleValue α))} {p : RangeParts α}
    (hp : p ∈ nonEmptyParts sample) :
    ∃ v, some v ∈ sample ∧ v.range.flags.empty = false ∧ p = rangeDeserialize v.range := by
  unfold nonEmptyParts at hp
  obtain ⟨row, hrow, hsome⟩ := List.mem_filterMap.mp hp
  cases row with
  | none => simp at hsome
  | some v =>
    cases hempty : v.range.flags.empty with
    | true => simp [hempty] at hsome
    | false => exact ⟨v, hrow, hempty, by simpa [hempty] using hsome.symm⟩

/-- The bounds of every non-empty range of a sample are in order. -/
theorem ordered_of_isValue {typcache : TypeCacheEntry α} {sample : List (Option (SampleValue α))}
    (hvalues : ∀ v, some v ∈ sample → typcache.IsValue v.range) :
    ∀ p ∈ nonEmptyParts sample, (rangeCmpBounds typcache.cmp p.lower p.upper).isLE := by
  intro p hp
  obtain ⟨v, hv, hne, rfl⟩ := exists_of_mem_nonEmptyParts hp
  exact (hvalues v hv).ordered hne

variable (typcache : TypeCacheEntry α) (sample : List (Option (SampleValue α)))

theorem scanSample_lowers :
    (scanSample typcache sample).lowers = (nonEmptyParts sample).map RangeParts.lower :=
  (foldl_scanRow typcache {} sample).1

theorem scanSample_uppers :
    (scanSample typcache sample).uppers = (nonEmptyParts sample).map RangeParts.upper :=
  (foldl_scanRow typcache {} sample).2.1

theorem scanSample_nonEmptyCnt :
    (scanSample typcache sample).nonEmptyCnt = (nonEmptyParts sample).length := by
  rw [scanSample, (foldl_scanRow typcache {} sample).2.2.1, Nat.zero_add]

theorem scanSample_nonNullCnt :
    (scanSample typcache sample).nonNullCnt = (sample.filterMap id).length := by
  rw [scanSample, (foldl_scanRow typcache {} sample).2.2.2, Nat.zero_add]

end Scan

/-! ### The subscripts -/

/-- The `i`-th subscript has advanced by `i` times the exact step, rounded down. -/
theorem histogramPositions_eq {delta deltafrac denom : ℕ} (hfrac : deltafrac < denom)
    (m pos posfrac : ℕ) (hposfrac : posfrac < denom) :
    histogramPositions delta deltafrac denom m pos posfrac =
      (List.range m).map fun i => pos + (i * (delta * denom + deltafrac) + posfrac) / denom := by
  induction m generalizing pos posfrac with
  | zero => rfl
  | succ m ih =>
    have hdenom : 0 < denom := by omega
    rw [histogramPositions, List.range_succ_eq_map, List.map_cons, List.map_map]
    congr 1
    · rw [Nat.zero_mul, Nat.zero_add, Nat.div_eq_of_lt hposfrac, Nat.add_zero]
    · -- the carry of one round, seen from every later round
      split_ifs with hcarry
      · rw [ih _ _ (by omega)]
        refine List.map_congr_left fun i _ => ?_
        have hsum : (i + 1) * (delta * denom + deltafrac) + posfrac =
            i * (delta * denom + deltafrac) + (posfrac + deltafrac - denom) +
              (delta + 1) * denom := by
          have : posfrac + deltafrac = posfrac + deltafrac - denom + denom := by omega
          rw [Nat.add_mul, Nat.add_mul]
          omega
        simp only [Function.comp]
        rw [Nat.succ_eq_add_one, hsum, Nat.add_mul_div_right _ _ hdenom]
        omega
      · rw [ih _ _ (by omega)]
        refine List.map_congr_left fun i _ => ?_
        have hsum : (i + 1) * (delta * denom + deltafrac) + posfrac =
            i * (delta * denom + deltafrac) + (posfrac + deltafrac) + delta * denom := by
          rw [Nat.add_mul]
          omega
        simp only [Function.comp]
        rw [Nat.succ_eq_add_one, hsum, Nat.add_mul_div_right _ _ hdenom]
        omega

/-- The subscripts are spread evenly from the first value to the last. -/
theorem evenPositions_eq {n m : ℕ} (hm : 2 ≤ m) :
    evenPositions n m = (List.range m).map fun i => i * (n - 1) / (m - 1) := by
  unfold evenPositions
  rw [histogramPositions_eq (Nat.mod_lt _ (by omega)) m 0 0 (by omega)]
  refine List.map_congr_left fun i _ => ?_
  rw [Nat.zero_add, Nat.add_zero, Nat.mul_comm ((n - 1) / (m - 1)), Nat.div_add_mod]

/-! ### Two independent sorts -/

section Pairing

variable {α : Type} {cmp : α → α → Ordering}

/-- A lower and an upper bound in order are packed: if they have one value, both are
inclusive. -/
theorem rangeSerialize_of_isLE [Inhabited α] {lower upper : RangeBound α}
    (hlower : lower.lower = true) (hupper : upper.lower = false)
    (h : (rangeCmpBounds cmp lower upper).isLE) :
    rangeSerialize cmp lower upper false = .ok (packRange lower upper) := by
  obtain ⟨v, inf1, inc1, low1⟩ := lower
  obtain ⟨w, inf2, inc2, low2⟩ := upper
  obtain rfl : low1 = true := hlower
  obtain rfl : low2 = false := hupper
  unfold rangeSerialize
  cases inf1 <;> cases inf2 <;> cases hcmp : cmp v w <;> cases inc1 <;> cases inc2 <;>
    simp_all [rangeCmpBounds, rangeCmpBoundValues]

variable [Std.TransCmp cmp]

/-- After the two sides are sorted independently, each lower bound is still at or
below the upper bound at its position. -/
theorem sorted_isLE [Inhabited α] (parts : List (RangeParts α))
    (hparts : ∀ p ∈ parts, (rangeCmpBounds cmp p.lower p.upper).isLE) {k : ℕ}
    (hk : k < parts.length) :
    (rangeCmpBounds cmp
      ((sortBy (rangeCmpBounds cmp) (parts.map RangeParts.lower)).getD k default)
      ((sortBy (rangeCmpBounds cmp) (parts.map RangeParts.upper)).getD k default)).isLE :=
  sort_pairing (isSortOf_sortBy _ _) (isSortOf_sortBy _ _) hparts hk default

end Pairing

/-! ### The call -/

section Call

variable {α : Type} [Inhabited α]

theorem numHist_eq_min (n bins : ℕ) : numHist n bins = min n (bins + 1) := by
  unfold numHist
  split_ifs <;> omega

theorem two_le_numHist_of_pos {n bins : ℕ} (hn : 2 ≤ n) (hbins : 1 ≤ bins) :
    2 ≤ numHist n bins := by
  rw [numHist_eq_min]
  omega

theorem two_le_numHist {n : ℕ} (hn : 2 ≤ n) (target : StatTarget) :
    2 ≤ numHist n target.attstattarget :=
  two_le_numHist_of_pos hn target.pos

/-- Every subscript is one of a value. -/
theorem evenPositions_lt {n m : ℕ} (hn : 2 ≤ n) (hm : 2 ≤ m) {pos : ℕ}
    (hpos : pos ∈ evenPositions n m) : pos < n := by
  rw [evenPositions_eq hm] at hpos
  obtain ⟨i, hi, rfl⟩ := List.mem_map.mp hpos
  have him : i ≤ m - 1 := by
    have := List.mem_range.mp hi
    omega
  have hle : i * (n - 1) / (m - 1) ≤ n - 1 := by
    rw [Nat.div_le_iff_le_mul_add_pred (by omega)]
    have := Nat.mul_le_mul_right (n - 1) him
    rw [Nat.mul_comm (m - 1)] at this ⊢
    omega
  omega

/-- The bounds histogram, once the stored ranges are known to exist. -/
theorem boundsHistogram_eq {typcache : TypeCacheEntry α} {lowers uppers low up : List (RangeBound α)}
    {bins : ℕ} {positions : List ℕ} {values : List (RangeType α)}
    (hlow : sortBy (rangeCmpBounds typcache.cmp) lowers = low)
    (hup : sortBy (rangeCmpBounds typcache.cmp) uppers = up)
    (hpos : evenPositions low.length (numHist low.length bins) = positions)
    (hvalues : positions.mapM (fun pos =>
      rangeSerialize typcache.cmp (low.getD pos default) (up.getD pos default) false) =
        .ok values) :
    boundsHistogram typcache lowers uppers bins =
      .ok ⟨positions.map fun pos => low.getD pos default,
        positions.map fun pos => up.getD pos default, values⟩ := by
  subst hlow hup hpos
  simp only [boundsHistogram, hvalues]
  rfl

/-- The positions at which the bounds histogram reads. -/
def callPositions (target : StatTarget) (sample : List (Option (SampleValue α))) : List ℕ :=
  evenPositions (nonEmptyParts sample).length
    (numHist (nonEmptyParts sample).length target.attstattarget)

/-- The lower bounds of a sample, sorted. -/
def sortedLowers (typcache : TypeCacheEntry α) (sample : List (Option (SampleValue α))) :
    List (RangeBound α) :=
  sortBy (rangeCmpBounds typcache.cmp) ((nonEmptyParts sample).map RangeParts.lower)

/-- The upper bounds of a sample, sorted. -/
def sortedUppers (typcache : TypeCacheEntry α) (sample : List (Option (SampleValue α))) :
    List (RangeBound α) :=
  sortBy (rangeCmpBounds typcache.cmp) ((nonEmptyParts sample).map RangeParts.upper)

/-- The lower bounds that the frequency histogram is computed from. -/
def callLowers (typcache : TypeCacheEntry α) (target : StatTarget)
    (sample : List (Option (SampleValue α))) : List (RangeBound α) :=
  (callPositions target sample).map fun pos => (sortedLowers typcache sample).getD pos default

/-- The upper bounds that the frequency histogram is computed from. -/
def callUppers (typcache : TypeCacheEntry α) (target : StatTarget)
    (sample : List (Option (SampleValue α))) : List (RangeBound α) :=
  (callPositions target sample).map fun pos => (sortedUppers typcache sample).getD pos default

/-- The bounds histogram of the sample. -/
def callBounds (typcache : TypeCacheEntry α) (target : StatTarget)
    (sample : List (Option (SampleValue α))) : List (RangeType α) :=
  (callPositions target sample).map fun pos =>
    packRange ((sortedLowers typcache sample).getD pos default)
      ((sortedUppers typcache sample).getD pos default)

section Sorted

variable (typcache : TypeCacheEntry α) {sample : List (Option (SampleValue α))} {k : ℕ}

/-- Every sorted lower bound is one of the sample. -/
theorem exists_sortedLower (hk : k < (nonEmptyParts sample).length) :
    ∃ p ∈ nonEmptyParts sample, p.lower = (sortedLowers typcache sample).getD k default :=
  List.mem_map.mp (sortBy_getD_mem (rangeCmpBounds typcache.cmp) (by simpa using hk) default)

/-- Every sorted upper bound is one of the sample. -/
theorem exists_sortedUpper (hk : k < (nonEmptyParts sample).length) :
    ∃ p ∈ nonEmptyParts sample, p.upper = (sortedUppers typcache sample).getD k default :=
  List.mem_map.mp (sortBy_getD_mem (rangeCmpBounds typcache.cmp) (by simpa using hk) default)

theorem sortedLowers_getD_lower (hk : k < (nonEmptyParts sample).length) :
    ((sortedLowers typcache sample).getD k default).lower = true := by
  obtain ⟨p, hp, heq⟩ := exists_sortedLower typcache hk
  obtain ⟨v, -, -, rfl⟩ := exists_of_mem_nonEmptyParts hp
  exact heq ▸ rfl

theorem sortedUppers_getD_lower (hk : k < (nonEmptyParts sample).length) :
    ((sortedUppers typcache sample).getD k default).lower = false := by
  obtain ⟨p, hp, heq⟩ := exists_sortedUpper typcache hk
  obtain ⟨v, -, -, rfl⟩ := exists_of_mem_nonEmptyParts hp
  exact heq ▸ rfl

end Sorted

/-- With two non-empty ranges the call is reached, on the sorted bounds at the
chosen positions. -/
theorem frequencyCall_eq (typcache : TypeCacheEntry α) (htrans : Std.TransCmp typcache.cmp)
    (target : StatTarget) (sample : List (Option (SampleValue α)))
    (hordered : ∀ p ∈ nonEmptyParts sample,
      (rangeCmpBounds typcache.cmp p.lower p.upper).isLE)
    (htwo : 2 ≤ (nonEmptyParts sample).length) :
    frequencyCall typcache target sample =
      .ok (some (⟨some (callLowers typcache target sample), some (callUppers typcache target sample),
        numHist (nonEmptyParts sample).length target.attstattarget⟩,
        some (callBounds typcache target sample))) := by
  have hnonNull : 0 < (sample.filterMap id).length := by
    by_contra hzero
    have hnil : sample.filterMap id = [] := List.length_eq_zero_iff.mp (by omega)
    have hnone : nonEmptyParts sample = [] := by
      unfold nonEmptyParts
      rw [List.filterMap_eq_nil_iff] at hnil ⊢
      intro row hrow
      rw [show row = none from hnil row hrow]
      rfl
    rw [hnone] at htwo
    simp at htwo
  have hvalues : (callPositions target sample).mapM (fun pos => rangeSerialize typcache.cmp
      ((sortedLowers typcache sample).getD pos default)
      ((sortedUppers typcache sample).getD pos default) false) =
        .ok (callBounds typcache target sample) := by
    refine mapM_eq_ok fun pos hpos => ?_
    have hlt := evenPositions_lt htwo (two_le_numHist htwo target) hpos
    exact rangeSerialize_of_isLE (sortedLowers_getD_lower typcache hlt)
      (sortedUppers_getD_lower typcache hlt) (sorted_isLE _ hordered hlt)
  have hlen : evenPositions (sortedLowers typcache sample).length
      (numHist (sortedLowers typcache sample).length target.attstattarget) =
      callPositions target sample := by
    simp [sortedLowers, callPositions]
  have hrun := boundsHistogram_eq rfl rfl hlen hvalues
  unfold frequencyCall
  simp only [scanSample_nonNullCnt, scanSample_nonEmptyCnt, gt_iff_lt, hnonNull, ge_iff_le, htwo,
    ↓reduceIte, scanSample_lowers, scanSample_uppers, hrun]
  rfl

/-- What a call that ends normally leaves in the statistics. -/
theorem computeRangeStats_of_run {A : CInt} {R : CFloat} {word : α → Datum}
    {typcache : TypeCacheEntry α} {target : StatTarget} {sample : List (Option (SampleValue α))}
    {call : FrequencyCall α} {bounds : Option (List (RangeType α))} {grid : Grid}
    {buckets : List Bucket}
    (hcall : frequencyCall typcache target sample = .ok (some (call, bounds)))
    (hrun : call.run A R word = .ok (grid, buckets)) :
    ∃ stats slots, computeRangeStats A R word typcache target sample = .ok (some stats) ∧
      stats.slots = some slots ∧ slots.bounds = bounds ∧
      slots.frequencies = ⟨grid.nbOfIntervals, buckets.map Bucket.count⟩ := by
  unfold computeRangeStats
  rw [hcall]
  change ∃ stats slots, (call.run A R word >>= _) = _ ∧ _
  rw [hrun]
  exact ⟨_, _, rfl, rfl, rfl, rfl⟩

end Call

end PgRange.Stats
