import PgRange.Gist.Split
import PgRange.Math.CFloat
import PgRange.Math.LexLeast
import PgRange.Math.Sweep

/-!
# The double sorting split

`range_gist_double_sorting_split` looks for an upper bound of the left page and a lower bound of
the right page such that every entry fits on one of them. Two sweeps over the sorted bounds find
the candidates and pass each to `range_gist_consider_split`, which keeps the best. Entries that
fit on both pages are then shared out by the counts that belong to the selected candidate.

The calls are recorded by running the sweeps with a function that only collects
(`lowerCalls`, `upperCalls`), and the selection is a fold over them. Which candidate is the best
(`SplitCall.Best`) can then be said about the entries alone.

The ratio of a candidate and its overlap are rounded to single precision, and differences of
distances to double precision, as the code stores them. The sorting function is any that sorts.

## Main definitions

* `considerSplit` — one call of `range_gist_consider_split`
* `sweepLower`, `sweepUpper` — the two loops over the sorted bounds
* `rangeGistDoubleSortingSplit` — the whole method
* `SplitCall.Spec` — what the arguments of a call say about the entries
* `SplitCall.Candidate`, `SplitCall.Best` — the splits to choose from, and the one to choose

## Main results

* `splitCalls_candidates` — the calls that the two loops make
* `exists_best_of_selected`, `SplitCall.Best.counts_eq` — the best candidate is selected
* `length_left_add_leftCount` — how many entries a selected split puts to the left
* `rangeGistDoubleSortingSplit_counts_iff` — when these are the numbers it was accepted for
-/

set_option autoImplicit false

namespace PgRange.Gist

open Math

variable {α : Type} [Inhabited α]

/-! ### Considering a split -/

/-- The arguments of a call of `range_gist_consider_split`. -/
structure SplitCall (α : Type) where
  rightLower : RangeBound α
  minLeftCount : ℕ
  leftUpper : RangeBound α
  maxLeftCount : ℕ
  deriving DecidableEq, Repr

/-- The selected split of a `ConsiderSplitContext`. -/
structure SelectedSplit (α : Type) where
  leftUpper : RangeBound α
  rightLower : RangeBound α
  ratio : FloatQ
  overlap : FloatQ
  commonLeft : ℤ
  commonRight : ℤ
  deriving DecidableEq, Repr

/-- `LIMIT_RATIO`, the value in double precision that the literal `0.3` stands for. -/
def limitRatio : ℚ := 5404319552844595 / 18014398509481984

/-- Equal values have equal differences. -/
def DiffCongr (typcache : TypeCacheEntry α) : Prop :=
  ∀ subdiff, typcache.rngSubdiff = some subdiff → ∀ v v' w w', typcache.cmp v v' = .eq →
    typcache.cmp w w' = .eq → subdiff v w = subdiff v' w'

/-- `call_subtype_diff`. The value is a `float8` already. -/
def callSubtypeDiff (subdiff : α → α → ℚ) (val1 val2 : α) : ℚ :=
  let value := subdiff val1 val2
  if value ≥ 0 then value else 0

namespace SplitCall

variable (call : SplitCall α)

/-- `left_count`: as even a distribution as the entries that fit on one side only allow. -/
def leftCount (entriesCount : ℕ) : ℕ :=
  if call.minLeftCount ≥ (entriesCount + 1) / 2 then call.minLeftCount
  else if call.maxLeftCount ≤ entriesCount / 2 then call.maxLeftCount
  else entriesCount / 2

/-- `right_count`. -/
def rightCount (entriesCount : ℕ) : ℤ := entriesCount - call.leftCount entriesCount

/-- `ratio`: the smaller side by all entries. The counts have an exact value in single precision,
the quotient is rounded. -/
def ratio (entriesCount : ℕ) : FloatQ :=
  float4 ((min (call.leftCount entriesCount : ℤ) (call.rightCount entriesCount) : ℤ) / entriesCount)

/-- `overlap`: a distance if the type has one, else the number of entries that fit on both
sides. -/
def overlap (typcache : TypeCacheEntry α) : FloatQ :=
  match typcache.rngSubdiff with
  | some subdiff => float4 (callSubtypeDiff subdiff call.leftUpper.val call.rightLower.val)
  | none => float4 ((call.maxLeftCount : ℤ) - call.minLeftCount : ℤ)

/-- The test on the ratio. -/
def acceptable (entriesCount : ℕ) : Bool := (FloatQ.fin limitRatio).lt (call.ratio entriesCount)

/-- What is saved of a split that is selected. -/
def select (typcache : TypeCacheEntry α) (entriesCount : ℕ) : SelectedSplit α where
  leftUpper := call.leftUpper
  rightLower := call.rightLower
  ratio := call.ratio entriesCount
  overlap := call.overlap typcache
  commonLeft := call.maxLeftCount - call.leftCount entriesCount
  commonRight := call.leftCount entriesCount - call.minLeftCount

omit [Inhabited α] in
@[simp] theorem commonLeft_select (typcache : TypeCacheEntry α) (entriesCount : ℕ) :
    (call.select typcache entriesCount).commonLeft =
      call.maxLeftCount - call.leftCount entriesCount := rfl

end SplitCall

/-- The comparison of a split with the one that was selected before. -/
def SplitCall.better (typcache : TypeCacheEntry α) (entriesCount : ℕ) (call call' : SplitCall α) :
    Bool :=
  (call.overlap typcache).lt (call'.overlap typcache) ||
    ((call.overlap typcache).isEq (call'.overlap typcache) &&
      (call'.ratio entriesCount).lt (call.ratio entriesCount))

/-- `range_gist_consider_split`. The context is `none` as long as no split is selected. -/
def considerSplit (typcache : TypeCacheEntry α) (entriesCount : ℕ)
    (context : Option (SelectedSplit α)) (call : SplitCall α) : Option (SelectedSplit α) :=
  if call.acceptable entriesCount then
    let selectthis := match context with
      | none => true
      | some selected =>
        (call.overlap typcache).lt selected.overlap ||
          ((call.overlap typcache).isEq selected.overlap &&
            selected.ratio.lt (call.ratio entriesCount))
    if selectthis then some (call.select typcache entriesCount) else context
  else context

/-! ### The sweeps -/

/-- `NonEmptyRange`. -/
structure NonEmptyRange (α : Type) where
  lower : RangeBound α
  upper : RangeBound α

/-- The bounds of the entries. -/
def GistEntryVector.ranges (entryvec : GistEntryVector α) : List (NonEmptyRange α) :=
  entryvec.keys.map fun range => ⟨(rangeDeserialize range).lower, (rangeDeserialize range).upper⟩

section Sweeps

variable {σ : Type} (cmp : α → α → Ordering)

/-- `interval_cmp_lower`. -/
def intervalCmpLower (i1 i2 : NonEmptyRange α) : Ordering := rangeCmpBounds cmp i1.lower i2.lower

/-- `interval_cmp_upper`. -/
def intervalCmpUpper (i1 i2 : NonEmptyRange α) : Ordering := rangeCmpBounds cmp i1.upper i2.upper

/-- The comparisons of the first loop, which ascends. -/
def ascendingTests : SweepTests (RangeBound α) where
  level b1 b2 := rangeCmpBounds cmp b1 b2 == .eq
  beyond b1 b2 := (rangeCmpBounds cmp b1 b2).isGT
  within b1 b2 := (rangeCmpBounds cmp b1 b2).isLE

/-- The comparisons of the second loop, which descends. -/
def descendingTests : SweepTests (RangeBound α) where
  level b1 b2 := rangeCmpBounds cmp b1 b2 == .eq
  beyond b1 b2 := (rangeCmpBounds cmp b1 b2).isLT
  within b1 b2 := (rangeCmpBounds cmp b1 b2).isGE

/-- The call at a stop of the first loop. The cursors stand after what has been passed. -/
def lowerCall (nentries : ℕ) (stop : SweepStop (RangeBound α)) : SplitCall α :=
  ⟨stop.key, nentries - stop.aheadLo, stop.reach, nentries - stop.aheadHi⟩

/-- The call at a stop of the second loop. The cursors run down, so that one more than a cursor is
what is still ahead. -/
def upperCall (stop : SweepStop (RangeBound α)) : SplitCall α :=
  ⟨stop.reach, stop.aheadHi, stop.key, stop.aheadLo⟩

/-- The first loop: over the lower bounds of the right page, with the smallest possible upper bound
of the left page. -/
def sweepLower (consider : σ → SplitCall α → σ) (byLower byUpper : List (NonEmptyRange α))
    (context : σ) : σ :=
  match byLower, byUpper with
  | first :: _, first' :: _ =>
    -- the upper bound starts from a lower bound of an entry
    sweep (ascendingTests cmp) NonEmptyRange.lower NonEmptyRange.upper
      (fun context stop => consider context (lowerCall byLower.length stop))
      byLower.length first.lower first'.lower byLower byUpper context
  | _, _ => context

/-- The second loop: over the upper bounds of the left page, with the greatest possible lower bound
of the right page. -/
def sweepUpper (consider : σ → SplitCall α → σ) (byLower byUpper : List (NonEmptyRange α))
    (context : σ) : σ :=
  match byLower.reverse, byUpper.reverse with
  | last :: _, last' :: _ =>
    -- the lower bound starts from an upper bound of an entry
    sweep (descendingTests cmp) NonEmptyRange.upper NonEmptyRange.lower
      (fun context stop => consider context (upperCall stop))
      byUpper.length last'.upper last.upper byUpper.reverse byLower.reverse context
  | _, _ => context

/-- The calls that the first loop makes. -/
def lowerCalls (byLower byUpper : List (NonEmptyRange α)) : List (SplitCall α) :=
  sweepLower cmp (fun calls call => calls ++ [call]) byLower byUpper []

/-- The calls that the second loop makes. -/
def upperCalls (byLower byUpper : List (NonEmptyRange α)) : List (SplitCall α) :=
  sweepUpper cmp (fun calls call => calls ++ [call]) byLower byUpper []

end Sweeps

/-! ### The split -/

section Split

variable (q : Qsort) (typcache : TypeCacheEntry α) (entryvec : GistEntryVector α)

/-- `by_lower`. -/
def byLower : List (NonEmptyRange α) := q.run (intervalCmpLower typcache.cmp) entryvec.ranges

/-- `by_upper`. -/
def byUpper : List (NonEmptyRange α) := q.run (intervalCmpUpper typcache.cmp) entryvec.ranges

/-- The context after the two loops. -/
def selectedSplit : Option (SelectedSplit α) :=
  let consider := considerSplit typcache entryvec.maxoff
  let context := sweepLower typcache.cmp consider (byLower q typcache entryvec)
    (byUpper q typcache entryvec) none
  sweepUpper typcache.cmp consider (byLower q typcache entryvec) (byUpper q typcache entryvec)
    context

/-- `CommonEntry`. -/
structure CommonEntry where
  index : ℕ
  delta : FloatQ

/-- `common_entry_cmp`. -/
def commonEntryCmp (i1 i2 : CommonEntry) : Ordering :=
  if i1.delta.lt i2.delta then .lt else if i2.delta.lt i1.delta then .gt else .eq

/-- The side of an entry that fits on one side only; `none` for a common entry. -/
def placeOf (selected : SelectedSplit α) (range : RangeType α) : Option SplitLR :=
  let parts := rangeDeserialize range
  if (rangeCmpBounds typcache.cmp parts.upper selected.leftUpper).isLE then
    if (rangeCmpBounds typcache.cmp parts.lower selected.rightLower).isGE then none
    else some .splitLeft
  else some .splitRight

/-- How much closer a common entry is to the left page. -/
def commonDelta (selected : SelectedSplit α) (range : RangeType α) : FloatQ :=
  let parts := rangeDeserialize range
  match typcache.rngSubdiff with
  | some subdiff =>
    CFloat.float8.sub (.fin (callSubtypeDiff subdiff parts.lower.val selected.rightLower.val))
      (.fin (callSubtypeDiff subdiff selected.leftUpper.val parts.upper.val))
  | none => .fin 0

/-- The placements that need no choice. -/
def clearPlacements (selected : SelectedSplit α) : List (SplitLR × ℕ) :=
  entryvec.offsets.filterMap fun i => (placeOf typcache selected (entryvec.key i)).map (·, i)

/-- `common_entries`. -/
def commonEntries (selected : SelectedSplit α) : List CommonEntry :=
  (entryvec.offsets.filter fun i => (placeOf typcache selected (entryvec.key i)).isNone).map
    fun i => ⟨i, commonDelta typcache selected (entryvec.key i)⟩

/-- `range_gist_double_sorting_split`, for any sorting function. -/
def rangeGistDoubleSortingSplit : Except Fault (GistSplitvec α) :=
  match selectedSplit q typcache entryvec with
  | none => rangeGistFallbackSplit typcache entryvec
  | some selected => do
    let v ← placeAll typcache entryvec (clearPlacements typcache entryvec selected) .nothing
    let commons := q.run commonEntryCmp (commonEntries typcache entryvec selected)
    placeAll typcache entryvec (placeFirst selected.commonLeft (commons.map (·.index))) v

end Split

/-! ### The calls of the sweeps -/

section Calls

variable {cmp : α → α → Ordering} {σ : Type}

omit [Inhabited α] in
/-- A fold that only collects. -/
theorem foldl_collect {γ δ : Type} (f : γ → δ) (l : List γ) :
    l.foldl (fun calls x => calls ++ [f x]) [] = l.map f := by
  rw [List.foldl_append_eq_append, List.nil_append, ← List.flatMap_def, List.map_eq_flatMap]

omit [Inhabited α] in
/-- What the first loop does at its calls does not change which calls it makes. -/
theorem sweepLower_eq_foldl (consider : σ → SplitCall α → σ)
    (byLower byUpper : List (NonEmptyRange α)) (context : σ) :
    sweepLower cmp consider byLower byUpper context =
      (lowerCalls cmp byLower byUpper).foldl consider context := by
  unfold lowerCalls sweepLower
  split
  · rw [sweep_eq_foldl, sweep_eq_foldl, foldl_collect, List.foldl_map]
  · rfl

omit [Inhabited α] in
theorem sweepUpper_eq_foldl (consider : σ → SplitCall α → σ)
    (byLower byUpper : List (NonEmptyRange α)) (context : σ) :
    sweepUpper cmp consider byLower byUpper context =
      (upperCalls cmp byLower byUpper).foldl consider context := by
  unfold upperCalls sweepUpper
  split
  · rw [sweep_eq_foldl, sweep_eq_foldl, foldl_collect, List.foldl_map]
  · rfl

/-- What the arguments of a call say about the entries: the counts are those of the entries that
only fit to the left, and of those that fit to the left at all, and every entry fits on a side. -/
structure SplitCall.Spec (cmp : α → α → Ordering) (xs : List (NonEmptyRange α))
    (call : SplitCall α) : Prop where
  minLeftCount :
    call.minLeftCount = xs.countP fun x => (rangeCmpBounds cmp x.lower call.rightLower).isLT
  maxLeftCount :
    call.maxLeftCount = xs.countP fun x => (rangeCmpBounds cmp x.upper call.leftUpper).isLE
  fits : ∀ x ∈ xs, (rangeCmpBounds cmp x.upper call.leftUpper).isLE ∨
    (rangeCmpBounds cmp x.lower call.rightLower).isGE

/-- The candidates of the first loop: one for each lower bound but the smallest, with the largest
upper bound among the entries that begin before it. -/
structure LowerCandidates (cmp : α → α → Ordering) (xs : List (NonEmptyRange α))
    (calls : List (SplitCall α)) : Prop where
  ascending : calls.Pairwise fun call call' =>
    rangeCmpBounds cmp call.rightLower call'.rightLower = .lt
  exactly : ∀ b, (∃ call ∈ calls, rangeCmpBounds cmp call.rightLower b = .eq) ↔
    (∃ x ∈ xs, rangeCmpBounds cmp x.lower b = .eq) ∧ ∃ x ∈ xs, rangeCmpBounds cmp x.lower b = .lt
  isLargest : ∀ call ∈ calls,
    (∃ x ∈ xs, rangeCmpBounds cmp x.lower call.rightLower = .lt ∧
      rangeCmpBounds cmp x.upper call.leftUpper = .eq) ∧
    ∀ x ∈ xs, rangeCmpBounds cmp x.lower call.rightLower = .lt →
      (rangeCmpBounds cmp x.upper call.leftUpper).isLE

/-- The candidates of the second loop: one for each upper bound but the largest, with the smallest
lower bound among the entries that end after it. -/
structure UpperCandidates (cmp : α → α → Ordering) (xs : List (NonEmptyRange α))
    (calls : List (SplitCall α)) : Prop where
  descending : calls.Pairwise fun call call' =>
    rangeCmpBounds cmp call'.leftUpper call.leftUpper = .lt
  exactly : ∀ a, (∃ call ∈ calls, rangeCmpBounds cmp a call.leftUpper = .eq) ↔
    (∃ x ∈ xs, rangeCmpBounds cmp a x.upper = .eq) ∧ ∃ x ∈ xs, rangeCmpBounds cmp a x.upper = .lt
  isSmallest : ∀ call ∈ calls,
    (∃ x ∈ xs, rangeCmpBounds cmp call.leftUpper x.upper = .lt ∧
      rangeCmpBounds cmp call.rightLower x.lower = .eq) ∧
    ∀ x ∈ xs, rangeCmpBounds cmp call.leftUpper x.upper = .lt →
      (rangeCmpBounds cmp call.rightLower x.lower).isLE

variable [Std.TransCmp cmp] {xs byLower byUpper : List (NonEmptyRange α)}

omit [Inhabited α] in
instance : Std.TransCmp (intervalCmpLower cmp) := transCmp_on (rangeCmpBounds cmp) _

omit [Inhabited α] in
instance : Std.TransCmp (intervalCmpUpper cmp) := transCmp_on (rangeCmpBounds cmp) _

omit [Inhabited α] [Std.TransCmp cmp] in
theorem ascendingTests_decides : (ascendingTests cmp).Decides (rangeCmpBounds cmp) where
  level_iff := by simp [ascendingTests]
  beyond_iff := by simp [ascendingTests]
  within_iff := by simp [ascendingTests]

omit [Inhabited α] in
theorem descendingTests_decides :
    (descendingTests cmp).Decides fun b1 b2 => rangeCmpBounds cmp b2 b1 where
  level_iff := by
    intro b1 b2
    rw [Std.OrientedCmp.eq_comm]
    simp [descendingTests]
  beyond_iff := by
    intro b1 b2
    rw [Std.OrientedCmp.gt_iff_lt]
    simp [descendingTests]
  within_iff := by
    intro b1 b2
    rw [← Std.OrientedCmp.isGE_iff_isLE]
    rfl

omit [Inhabited α] in
/-- The entries that begin before the right page are no more than those that fit to the left. -/
theorem SplitCall.Spec.min_le_max {call : SplitCall α} (h : call.Spec cmp xs) :
    call.minLeftCount ≤ call.maxLeftCount := by
  rw [h.minLeftCount, h.maxLeftCount]
  apply List.countP_mono_left
  intro x hx hlt
  refine (h.fits x hx).resolve_right fun hge => ?_
  rw [isLT_eq_not_isLE, Std.OrientedCmp.isGE_iff_isLE.mp hge] at hlt
  simp at hlt

omit [Inhabited α] [Std.TransCmp cmp] in
theorem lowerCall_spec {stop : SweepStop (RangeBound α)}
    (h : stop.Spec (rangeCmpBounds cmp) NonEmptyRange.lower NonEmptyRange.upper xs) :
    (lowerCall xs.length stop).Spec cmp xs where
  minLeftCount := Nat.sub_eq_of_eq_add h.countLo.symm
  maxLeftCount := Nat.sub_eq_of_eq_add h.countHi.symm
  fits := by
    intro x hx
    by_cases hlt : rangeCmpBounds cmp x.lower stop.key = .lt
    · exact Or.inl (h.furthest x hx hlt)
    · exact Or.inr (Ordering.isGE_iff_ne_lt.mpr hlt)

omit [Inhabited α] in
/-- The second loop counts what is not yet passed, so that the counts are those of the entries on
the other side of its bounds. -/
theorem upperCall_spec {stop : SweepStop (RangeBound α)}
    (h : stop.Spec (fun b1 b2 => rangeCmpBounds cmp b2 b1) NonEmptyRange.upper
      NonEmptyRange.lower xs) :
    (upperCall stop).Spec cmp xs where
  minLeftCount := eq_countP_of_not h.countHi fun _ => isLT_eq_not_isLE
  maxLeftCount := eq_countP_of_not h.countLo fun _ => by simp [isLT_eq_not_isLE, upperCall]
  fits := by
    intro x hx
    by_cases hlt : rangeCmpBounds cmp stop.key x.upper = .lt
    · exact Or.inr (Std.OrientedCmp.isGE_iff_isLE.mpr (h.furthest x hx hlt))
    · exact Or.inl (Std.OrientedCmp.isGE_iff_isLE.mp (Ordering.isGE_iff_ne_lt.mpr hlt))

omit [Inhabited α] in
/-- The calls of the first loop. -/
theorem lowerCalls_spec (hlower : IsSortOf (intervalCmpLower cmp) byLower xs)
    (hupper : IsSortOf (intervalCmpUpper cmp) byUpper xs) (hne : xs ≠ [])
    (hordered : ∀ x ∈ xs, (rangeCmpBounds cmp x.lower x.upper).isLE) :
    (∀ call ∈ lowerCalls cmp byLower byUpper, call.Spec cmp xs) ∧
      LowerCandidates cmp xs (lowerCalls cmp byLower byUpper) := by
  obtain ⟨first, rest, rfl⟩ := hlower.exists_cons hne
  obtain ⟨first', rest', rfl⟩ := hupper.exists_cons hne
  -- the smallest upper bound is not before the lower bound of its entry
  have hreach : ∀ y ∈ xs, (rangeCmpBounds cmp first'.lower y.upper).isLE := fun y hy =>
    Std.TransCmp.isLE_trans (hordered first' (hupper.perm.mem_iff.mp List.mem_cons_self))
      (hupper.head_isLE hy)
  obtain ⟨hspec, hasc, hexactly⟩ := sweepStops_spec ascendingTests_decides hlower hupper hreach
  have hcalls : lowerCalls cmp (first :: rest) (first' :: rest') =
      (sweepStops (ascendingTests cmp) NonEmptyRange.lower NonEmptyRange.upper xs.length
        first.lower first'.lower (first :: rest) (first' :: rest')).map (lowerCall xs.length) := by
    rw [lowerCalls, sweepLower, sweep_eq_foldl, foldl_collect, hlower.perm.length_eq]
  rw [hcalls]
  refine ⟨?_, ?_, ?_, ?_⟩
  · intro call hcall
    obtain ⟨stop, hstop, rfl⟩ := List.mem_map.mp hcall
    exact lowerCall_spec (hspec stop hstop)
  · exact List.pairwise_map.mpr hasc
  · intro b
    simp only [List.mem_map, exists_exists_and_eq_and]
    exact hexactly b
  · intro call hcall
    obtain ⟨stop, hstop, rfl⟩ := List.mem_map.mp hcall
    exact ⟨(hspec stop hstop).notFirst, (hspec stop hstop).furthest⟩

omit [Inhabited α] in
/-- The calls of the second loop: the first loop on the reversed lists, with the two bounds
exchanged and the order turned round. -/
theorem upperCalls_spec (hlower : IsSortOf (intervalCmpLower cmp) byLower xs)
    (hupper : IsSortOf (intervalCmpUpper cmp) byUpper xs) (hne : xs ≠ [])
    (hordered : ∀ x ∈ xs, (rangeCmpBounds cmp x.lower x.upper).isLE) :
    (∀ call ∈ upperCalls cmp byLower byUpper, call.Spec cmp xs) ∧
      UpperCandidates cmp xs (upperCalls cmp byLower byUpper) := by
  obtain ⟨last, rest, hlast⟩ := hlower.reverse.exists_cons hne
  obtain ⟨last', rest', hlast'⟩ := hupper.reverse.exists_cons hne
  have hlower' := hlast ▸ hlower.reverse
  have hupper' := hlast' ▸ hupper.reverse
  -- the greatest lower bound is not after the upper bound of its entry
  have hreach : ∀ y ∈ xs, (rangeCmpBounds cmp y.lower last.upper).isLE := fun y hy =>
    Std.TransCmp.isLE_trans (hlower'.head_isLE hy)
      (hordered last (hlower'.perm.mem_iff.mp List.mem_cons_self))
  obtain ⟨hspec, hdesc, hexactly⟩ := sweepStops_spec descendingTests_decides hupper' hlower' hreach
  have hcalls : upperCalls cmp byLower byUpper =
      (sweepStops (descendingTests cmp) NonEmptyRange.upper NonEmptyRange.lower xs.length
        last'.upper last.upper (last' :: rest') (last :: rest)).map upperCall := by
    rw [upperCalls, sweepUpper, hlast, hlast']
    simp only
    rw [sweep_eq_foldl, foldl_collect, hupper.perm.length_eq]
  rw [hcalls]
  refine ⟨?_, ?_, ?_, ?_⟩
  · intro call hcall
    obtain ⟨stop, hstop, rfl⟩ := List.mem_map.mp hcall
    exact upperCall_spec (hspec stop hstop)
  · exact List.pairwise_map.mpr hdesc
  · intro a
    simp only [List.mem_map, exists_exists_and_eq_and]
    exact hexactly a
  · intro call hcall
    obtain ⟨stop, hstop, rfl⟩ := List.mem_map.mp hcall
    exact ⟨(hspec stop hstop).notFirst, (hspec stop hstop).furthest⟩

end Calls

/-! ### The candidates of a split -/

section Candidates

variable {q : Qsort} {typcache : TypeCacheEntry α} {entryvec : GistEntryVector α}

/-- All calls of `range_gist_consider_split`, in their order. -/
def splitCalls (q : Qsort) (typcache : TypeCacheEntry α) (entryvec : GistEntryVector α) :
    List (SplitCall α) :=
  lowerCalls typcache.cmp (byLower q typcache entryvec) (byUpper q typcache entryvec) ++
    upperCalls typcache.cmp (byLower q typcache entryvec) (byUpper q typcache entryvec)

/-- The context is what the calls make of it. -/
theorem selectedSplit_eq_foldl : selectedSplit q typcache entryvec =
    (splitCalls q typcache entryvec).foldl (considerSplit typcache entryvec.maxoff) none := by
  rw [splitCalls, List.foldl_append, ← sweepLower_eq_foldl, ← sweepUpper_eq_foldl]
  rfl

/-- The lower bound of every entry is at or before its upper bound. -/
def GistEntryVector.Ordered (cmp : α → α → Ordering) (entryvec : GistEntryVector α) : Prop :=
  ∀ x ∈ entryvec.ranges, (rangeCmpBounds cmp x.lower x.upper).isLE

theorem ordered_of_isKey (hkeys : ∀ k ∈ entryvec.keys, IsKey typcache k ∧ k.flags.empty = false) :
    entryvec.Ordered typcache.cmp := by
  intro x hx
  obtain ⟨k, hk, rfl⟩ := List.mem_map.mp hx
  exact (hkeys k hk).1.ordered (hkeys k hk).2

theorem GistEntryVector.ranges_ne_nil (entryvec : GistEntryVector α) (hn : 1 ≤ entryvec.maxoff) :
    entryvec.ranges ≠ [] := by
  intro hnil
  rw [GistEntryVector.ranges, List.map_eq_nil_iff] at hnil
  simp [GistEntryVector.maxoff, hnil] at hn

theorem isSortOf_byLower [Std.TransCmp typcache.cmp] (q : Qsort) :
    IsSortOf (intervalCmpLower typcache.cmp) (byLower q typcache entryvec) entryvec.ranges :=
  q.isSortOf _ _

theorem isSortOf_byUpper [Std.TransCmp typcache.cmp] (q : Qsort) :
    IsSortOf (intervalCmpUpper typcache.cmp) (byUpper q typcache entryvec) entryvec.ranges :=
  q.isSortOf _ _

theorem splitCall_spec [Std.TransCmp typcache.cmp] (hn : 1 ≤ entryvec.maxoff)
    (hordered : entryvec.Ordered typcache.cmp) {call : SplitCall α}
    (hcall : call ∈ splitCalls q typcache entryvec) : call.Spec typcache.cmp entryvec.ranges := by
  have hne := entryvec.ranges_ne_nil hn
  rcases List.mem_append.mp hcall with hcall | hcall
  · exact (lowerCalls_spec (isSortOf_byLower q) (isSortOf_byUpper q) hne hordered).1 call hcall
  · exact (upperCalls_spec (isSortOf_byLower q) (isSortOf_byUpper q) hne hordered).1 call hcall

/-- The two loops consider exactly the right candidates: the first one each lower bound but the
smallest, the second one each upper bound but the largest, with the closest bound of the other
page and the counts that belong to the two. -/
theorem splitCalls_candidates [Std.TransCmp typcache.cmp] (q : Qsort) (hn : 1 ≤ entryvec.maxoff)
    (hordered : entryvec.Ordered typcache.cmp) :
    selectedSplit q typcache entryvec =
      (splitCalls q typcache entryvec).foldl (considerSplit typcache entryvec.maxoff) none ∧
    LowerCandidates typcache.cmp entryvec.ranges
      (lowerCalls typcache.cmp (byLower q typcache entryvec) (byUpper q typcache entryvec)) ∧
    UpperCandidates typcache.cmp entryvec.ranges
      (upperCalls typcache.cmp (byLower q typcache entryvec) (byUpper q typcache entryvec)) ∧
    ∀ call ∈ splitCalls q typcache entryvec,
      call.Spec typcache.cmp entryvec.ranges ∧ call.minLeftCount ≤ call.maxLeftCount := by
  have hne := entryvec.ranges_ne_nil hn
  refine ⟨selectedSplit_eq_foldl, ?_, ?_, ?_⟩
  · exact (lowerCalls_spec (isSortOf_byLower q) (isSortOf_byUpper q) hne hordered).2
  · exact (upperCalls_spec (isSortOf_byLower q) (isSortOf_byUpper q) hne hordered).2
  · intro call hcall
    have hspec := splitCall_spec hn hordered hcall
    exact ⟨hspec, hspec.min_le_max⟩

/-- Three ranges that start at the same bound. -/
def nestedRanges : GistEntryVector ℤ :=
  ⟨[int4Between 0 1, int4Between 0 2, int4Between 0 3], by decide⟩

/-- Ranges with one lower bound: the first loop finds no candidate, the second one two. -/
theorem splitCalls_candidates_nested :
    lowerCalls int4range.cmp (byLower .insertion int4range nestedRanges)
      (byUpper .insertion int4range nestedRanges) = [] ∧
    UpperCandidates int4range.cmp nestedRanges.ranges
      (upperCalls int4range.cmp (byLower .insertion int4range nestedRanges)
        (byUpper .insertion int4range nestedRanges)) ∧
    (splitCalls .insertion int4range nestedRanges).map
      (fun call => (call.leftUpper.val, call.minLeftCount, call.maxLeftCount)) =
        [(2, 0, 2), (1, 0, 1)] := by
  have htrans : Std.TransCmp int4range.cmp := inferInstanceAs (Std.TransCmp btintcmp)
  have hordered : nestedRanges.Ordered int4range.cmp := by
    unfold GistEntryVector.Ordered
    decide
  obtain ⟨-, -, hupper, -⟩ :=
    splitCalls_candidates .insertion (show 1 ≤ nestedRanges.maxoff by decide) hordered
  exact ⟨by decide, hupper, by decide⟩

end Candidates

/-! ### The best candidate -/

section Best

variable {cmp : α → α → Ordering} {xs : List (NonEmptyRange α)}

/-- A candidate of the first loop: its lower bound is that of an entry but not the smallest, and its
upper bound the largest of the entries that begin before. -/
structure SplitCall.OfLower (cmp : α → α → Ordering) (xs : List (NonEmptyRange α))
    (call : SplitCall α) : Prop where
  isLower : ∃ x ∈ xs, rangeCmpBounds cmp x.lower call.rightLower = .eq
  attained : ∃ x ∈ xs, rangeCmpBounds cmp x.lower call.rightLower = .lt ∧
    rangeCmpBounds cmp x.upper call.leftUpper = .eq
  largest : ∀ x ∈ xs, rangeCmpBounds cmp x.lower call.rightLower = .lt →
    (rangeCmpBounds cmp x.upper call.leftUpper).isLE

/-- A candidate of the second loop: its upper bound is that of an entry but not the largest, and its
lower bound the smallest of the entries that end after. -/
structure SplitCall.OfUpper (cmp : α → α → Ordering) (xs : List (NonEmptyRange α))
    (call : SplitCall α) : Prop where
  isUpper : ∃ x ∈ xs, rangeCmpBounds cmp call.leftUpper x.upper = .eq
  attained : ∃ x ∈ xs, rangeCmpBounds cmp call.leftUpper x.upper = .lt ∧
    rangeCmpBounds cmp call.rightLower x.lower = .eq
  smallest : ∀ x ∈ xs, rangeCmpBounds cmp call.leftUpper x.upper = .lt →
    (rangeCmpBounds cmp call.rightLower x.lower).isLE

/-- A split to choose from, with the counts that belong to it. -/
structure SplitCall.Candidate (cmp : α → α → Ordering) (xs : List (NonEmptyRange α))
    (call : SplitCall α) : Prop where
  spec : call.Spec cmp xs
  kind : call.OfLower cmp xs ∨ call.OfUpper cmp xs

/-- A candidate is tried before another one: those of the first loop with ascending lower bounds,
then those of the second loop with descending upper bounds. -/
def SplitCall.Precedes (cmp : α → α → Ordering) (xs : List (NonEmptyRange α))
    (call call' : SplitCall α) : Prop :=
  call.OfLower cmp xs ∧ (call'.OfLower cmp xs →
      rangeCmpBounds cmp call.rightLower call'.rightLower = .lt) ∨
    ¬ call.OfLower cmp xs ∧ ¬ call'.OfLower cmp xs ∧
      rangeCmpBounds cmp call'.leftUpper call.leftUpper = .lt

/-- An acceptable candidate with the smallest overlap, with the best ratio among these, and the first
one of these. -/
structure SplitCall.Best (typcache : TypeCacheEntry α) (entryvec : GistEntryVector α)
    (call : SplitCall α) : Prop where
  candidate : call.Candidate typcache.cmp entryvec.ranges
  acceptable : call.acceptable entryvec.maxoff = true
  best : ∀ call' : SplitCall α, call'.Candidate typcache.cmp entryvec.ranges →
    call'.acceptable entryvec.maxoff = true →
      SplitCall.better typcache entryvec.maxoff call' call = false
  first : ∀ call' : SplitCall α, call'.Candidate typcache.cmp entryvec.ranges →
    call'.acceptable entryvec.maxoff = true →
      call'.Precedes typcache.cmp entryvec.ranges call →
        SplitCall.better typcache entryvec.maxoff call call' = true

/-- Two calls with the same bounds, up to the order. -/
structure SplitCall.Same (cmp : α → α → Ordering) (call call' : SplitCall α) : Prop where
  rightLower : rangeCmpBounds cmp call.rightLower call'.rightLower = .eq
  leftUpper : rangeCmpBounds cmp call.leftUpper call'.leftUpper = .eq

variable [Std.TransCmp cmp] {call call' : SplitCall α}

omit [Inhabited α] in
/-- The counts are those of the bounds. -/
theorem SplitCall.Same.counts (h : call.Same cmp call') (hspec : call.Spec cmp xs)
    (hspec' : call'.Spec cmp xs) :
    call.minLeftCount = call'.minLeftCount ∧ call.maxLeftCount = call'.maxLeftCount := by
  rw [hspec.minLeftCount, hspec.maxLeftCount, hspec'.minLeftCount, hspec'.maxLeftCount]
  constructor
  · refine List.countP_congr fun x _ => ?_
    rw [Std.TransCmp.congr_right h.rightLower]
  · refine List.countP_congr fun x _ => ?_
    rw [Std.TransCmp.congr_right h.leftUpper]

omit [Inhabited α] in
/-- Candidates of the first loop with the same lower bound have the same upper bound. -/
theorem SplitCall.OfLower.same (h : call.OfLower cmp xs) (h' : call'.OfLower cmp xs)
    (heq : rangeCmpBounds cmp call.rightLower call'.rightLower = .eq) : call.Same cmp call' := by
  refine ⟨heq, ?_⟩
  have hle : ∀ {c c' : SplitCall α}, c.OfLower cmp xs → c'.OfLower cmp xs →
      rangeCmpBounds cmp c.rightLower c'.rightLower = .eq →
      (rangeCmpBounds cmp c.leftUpper c'.leftUpper).isLE := by
    intro c c' hc hc' heq
    obtain ⟨x, hx, hlt, hup⟩ := hc.attained
    rw [← Std.TransCmp.congr_left hup]
    refine hc'.largest x hx ?_
    rwa [← Std.TransCmp.congr_right heq]
  exact Std.OrientedCmp.isLE_antisymm (hle h h' heq) (hle h' h (Std.OrientedCmp.eq_symm heq))

omit [Inhabited α] in
/-- Candidates of the second loop with the same upper bound have the same lower bound. -/
theorem SplitCall.OfUpper.same (h : call.OfUpper cmp xs) (h' : call'.OfUpper cmp xs)
    (heq : rangeCmpBounds cmp call.leftUpper call'.leftUpper = .eq) : call.Same cmp call' := by
  refine ⟨?_, heq⟩
  have hle : ∀ {c c' : SplitCall α}, c.OfUpper cmp xs → c'.OfUpper cmp xs →
      rangeCmpBounds cmp c.leftUpper c'.leftUpper = .eq →
      (rangeCmpBounds cmp c'.rightLower c.rightLower).isLE := by
    intro c c' hc hc' heq
    obtain ⟨x, hx, hlt, hlow⟩ := hc.attained
    rw [Std.TransCmp.congr_right hlow]
    refine hc'.smallest x hx ?_
    rwa [← Std.TransCmp.congr_left heq]
  exact Std.OrientedCmp.isLE_antisymm (hle h' h (Std.OrientedCmp.eq_symm heq)) (hle h h' heq)

omit [Inhabited α] in
theorem LowerCandidates.ofLower {calls : List (SplitCall α)} (h : LowerCandidates cmp xs calls)
    (hcall : call ∈ calls) : call.OfLower cmp xs where
  isLower := ((h.exactly call.rightLower).mp ⟨call, hcall, Std.ReflCmp.compare_self⟩).1
  attained := (h.isLargest call hcall).1
  largest := (h.isLargest call hcall).2

omit [Inhabited α] in
theorem UpperCandidates.ofUpper {calls : List (SplitCall α)} (h : UpperCandidates cmp xs calls)
    (hcall : call ∈ calls) : call.OfUpper cmp xs where
  isUpper := ((h.exactly call.leftUpper).mp ⟨call, hcall, Std.ReflCmp.compare_self⟩).1
  attained := (h.isSmallest call hcall).1
  smallest := (h.isSmallest call hcall).2

omit [Inhabited α] in
/-- The first loop tries every candidate of its kind. -/
theorem LowerCandidates.exists_same {calls : List (SplitCall α)} (h : LowerCandidates cmp xs calls)
    (hcall : call.OfLower cmp xs) : ∃ call' ∈ calls, call'.Same cmp call := by
  obtain ⟨x, hx, hlt, -⟩ := hcall.attained
  obtain ⟨call', hmem, heq⟩ := (h.exactly call.rightLower).mpr ⟨hcall.isLower, x, hx, hlt⟩
  exact ⟨call', hmem, (h.ofLower hmem).same hcall heq⟩

omit [Inhabited α] in
/-- And so does the second one. -/
theorem UpperCandidates.exists_same {calls : List (SplitCall α)} (h : UpperCandidates cmp xs calls)
    (hcall : call.OfUpper cmp xs) : ∃ call' ∈ calls, call'.Same cmp call := by
  obtain ⟨x, hx, hlt, -⟩ := hcall.attained
  obtain ⟨call', hmem, heq⟩ := (h.exactly call.leftUpper).mpr ⟨hcall.isUpper, x, hx, hlt⟩
  exact ⟨call', hmem, (h.ofUpper hmem).same hcall (Std.OrientedCmp.eq_symm heq)⟩

omit [Inhabited α] [Std.TransCmp cmp] in
/-- A bound that is equal to a finite one is finite. -/
theorem finite_of_eq {a b : RangeBound α} (h : rangeCmpBounds cmp a b = .eq)
    (ha : a.infinite = false) : b.infinite = false := by
  by_contra hb
  rw [Bool.not_eq_false] at hb
  simp only [rangeCmpBounds, ha, hb, Bool.false_and, Bool.false_eq_true, if_false, if_true] at h
  split_ifs at h

omit [Inhabited α] in
theorem val_eq_of_eq {a b : RangeBound α} (h : rangeCmpBounds cmp a b = .eq)
    (ha : a.infinite = false) : cmp a.val b.val = .eq := by
  have hb := finite_of_eq h ha
  exact Std.OrientedCmp.isLE_antisymm (val_isLE_of_isLE ha hb (by simp [h]))
    (val_isLE_of_isLE hb ha (by simp [Std.OrientedCmp.eq_symm h]))

omit [Inhabited α] in
/-- The bounds of a candidate are those of entries. -/
theorem SplitCall.Candidate.finite (h : call.Candidate cmp xs)
    (hfin : ∀ x ∈ xs, x.lower.infinite = false ∧ x.upper.infinite = false) :
    call.rightLower.infinite = false ∧ call.leftUpper.infinite = false := by
  rcases h.kind with hlower | hupper
  · obtain ⟨x, hx, heq⟩ := hlower.isLower
    obtain ⟨y, hy, -, heq'⟩ := hlower.attained
    exact ⟨finite_of_eq heq (hfin x hx).1, finite_of_eq heq' (hfin y hy).2⟩
  · obtain ⟨x, hx, heq⟩ := hupper.isUpper
    obtain ⟨y, hy, -, heq'⟩ := hupper.attained
    exact ⟨finite_of_eq (Std.OrientedCmp.eq_symm heq') (hfin y hy).1,
      finite_of_eq (Std.OrientedCmp.eq_symm heq) (hfin x hx).2⟩

end Best

/-! ### The selected split -/

section Selected

variable {q : Qsort} {typcache : TypeCacheEntry α} {entryvec : GistEntryVector α}

omit [Inhabited α] in
/-- What is saved of the calls is saved of the one that is kept. -/
theorem foldl_considerSplit (typcache : TypeCacheEntry α) (entriesCount : ℕ) (calls : List (SplitCall α))
    (best : Option (SplitCall α)) :
    calls.foldl (considerSplit typcache entriesCount)
        (best.map (SplitCall.select · typcache entriesCount)) =
      (calls.foldl (keepBest (SplitCall.acceptable · entriesCount)
        (SplitCall.better typcache entriesCount)) best).map
          (SplitCall.select · typcache entriesCount) := by
  induction calls generalizing best with
  | nil => rfl
  | cons call calls ih =>
    rw [List.foldl_cons, List.foldl_cons, ← ih]
    congr 1
    cases hacc : call.acceptable entriesCount with
    | false => simp [considerSplit, keepBest, hacc]
    | true =>
      cases best with
      | none => simp [considerSplit, keepBest, hacc]
      | some call' =>
        simp only [considerSplit, keepBest, hacc, Option.map_some, Option.all_some, Bool.true_and,
          if_true]
        change (if SplitCall.better typcache entriesCount call call' = true then _ else _) = _
        split_ifs <;> rfl

omit [Inhabited α] in
theorem overlap_ne_nan (typcache : TypeCacheEntry α) (call : SplitCall α) : call.overlap typcache ≠ .nan := by
  unfold SplitCall.overlap
  split
  · exact CFloat.float4.round_ne_nan _
  · exact CFloat.float4.round_ne_nan _

omit [Inhabited α] in
theorem ratio_ne_nan (call : SplitCall α) (entriesCount : ℕ) : call.ratio entriesCount ≠ .nan :=
  CFloat.float4.round_ne_nan _

omit [Inhabited α] in
theorem better_asymm {entriesCount : ℕ} {call call' : SplitCall α}
    (h : SplitCall.better typcache entriesCount call call' = true) :
    SplitCall.better typcache entriesCount call' call = false := by
  by_contra hback
  rw [Bool.not_eq_false] at hback
  simp only [SplitCall.better, Bool.or_eq_true, Bool.and_eq_true, FloatQ.isEq, decide_eq_true_eq]
    at h hback
  rcases h with h | ⟨⟨-, heq⟩, h⟩ <;> rcases hback with hback | ⟨⟨-, heq'⟩, hback⟩
  · exact absurd (FloatQ.lt_trans h hback) (by simp [FloatQ.lt_irrefl])
  · exact FloatQ.ne_of_lt h heq'.symm
  · exact FloatQ.ne_of_lt hback heq.symm
  · exact absurd (FloatQ.lt_trans h hback) (by simp [FloatQ.lt_irrefl])

omit [Inhabited α] in
theorem better_or_better {entriesCount : ℕ} {call call' : SplitCall α}
    (h : SplitCall.better typcache entriesCount call call' = true) (other : SplitCall α) :
    SplitCall.better typcache entriesCount call other = true ∨
      SplitCall.better typcache entriesCount other call' = true := by
  simp only [SplitCall.better, Bool.or_eq_true, Bool.and_eq_true, FloatQ.isEq, decide_eq_true_eq]
    at h ⊢
  have hother := overlap_ne_nan typcache other
  rcases h with h | ⟨⟨hne, heq⟩, h⟩
  · exact (FloatQ.lt_or_lt hother h).imp Or.inl Or.inl
  · rcases FloatQ.trichotomy hother hne with hlt | hsame | hgt
    · exact Or.inr (Or.inl (heq ▸ hlt))
    · rcases FloatQ.lt_or_lt (ratio_ne_nan other entriesCount) h with hlt | hlt
      · exact Or.inr (Or.inr ⟨⟨hother, hsame.trans heq⟩, hlt⟩)
      · exact Or.inl (Or.inr ⟨⟨hne, hsame.symm⟩, hlt⟩)
    · exact Or.inl (Or.inl hgt)

/-- What is selected: nothing if no call is acceptable, else the first best one. -/
theorem selectedSplit_cases (q : Qsort) (typcache : TypeCacheEntry α)
    (entryvec : GistEntryVector α) :
    (selectedSplit q typcache entryvec = none ∧
        ∀ call ∈ splitCalls q typcache entryvec, call.acceptable entryvec.maxoff = false) ∨
      ∃ call, selectedSplit q typcache entryvec = some (call.select typcache entryvec.maxoff) ∧
        IsFirstBest (SplitCall.acceptable · entryvec.maxoff)
          (SplitCall.better typcache entryvec.maxoff) (splitCalls q typcache entryvec) call := by
  have hfold := foldl_considerSplit typcache entryvec.maxoff
    (splitCalls q typcache entryvec) none
  rw [Option.map_none, ← selectedSplit_eq_foldl] at hfold
  rcases foldl_keepBest (SplitCall.acceptable · entryvec.maxoff)
      (SplitCall.better typcache entryvec.maxoff) better_asymm (fun h => better_or_better h)
      (splitCalls q typcache entryvec) with
    ⟨hnone, hall⟩ | ⟨call, hsome, hbest⟩
  · rw [hnone] at hfold
    exact Or.inl ⟨hfold, hall⟩
  · rw [hsome] at hfold
    exact Or.inr ⟨call, hfold, hbest⟩

theorem exists_call_of_selected {selected : SelectedSplit α}
    (h : selectedSplit q typcache entryvec = some selected) :
    ∃ call ∈ splitCalls q typcache entryvec, call.acceptable entryvec.maxoff = true ∧
      call.select typcache entryvec.maxoff = selected := by
  rcases selectedSplit_cases q typcache entryvec with
    ⟨hnone, -⟩ | ⟨call, hsome, before, after, hl, hok, -⟩
  · rw [hnone] at h
    cases h
  · refine ⟨call, by simp [hl], hok, ?_⟩
    exact Option.some.inj (hsome.symm.trans h)

/-- Entries that the method is made for: finite, and with their bounds in order. -/
structure GistEntryVector.Bounded (cmp : α → α → Ordering) (entryvec : GistEntryVector α) :
    Prop where
  ordered : entryvec.Ordered cmp
  finite : ∀ x ∈ entryvec.ranges, x.lower.infinite = false ∧ x.upper.infinite = false

theorem bounded_of_isKey (hkeys : ∀ k ∈ entryvec.keys, IsKey typcache k ∧ k.flags.empty = false ∧
    k.flags.lbInf = false ∧ k.flags.ubInf = false) : entryvec.Bounded typcache.cmp where
  ordered := ordered_of_isKey fun k hk => ⟨(hkeys k hk).1, (hkeys k hk).2.1⟩
  finite x hx := by
    obtain ⟨k, hk, rfl⟩ := List.mem_map.mp hx
    exact (hkeys k hk).2.2

variable [Std.TransCmp typcache.cmp] {call call' : SplitCall α}

omit [Inhabited α] in
/-- Calls with the same bounds are judged alike. -/
theorem SplitCall.Same.judged {xs : List (NonEmptyRange α)} (h : call.Same typcache.cmp call')
    (hdiff : DiffCongr typcache)
    (hfin : ∀ x ∈ xs, x.lower.infinite = false ∧ x.upper.infinite = false)
    (hcall : call.Candidate typcache.cmp xs) (hcall' : call'.Candidate typcache.cmp xs)
    (entriesCount : ℕ) : call.overlap typcache = call'.overlap typcache ∧
      call.ratio entriesCount = call'.ratio entriesCount := by
  obtain ⟨hmin, hmax⟩ := h.counts hcall.spec hcall'.spec
  obtain ⟨hlower, hupper⟩ := hcall.finite hfin
  constructor
  · unfold SplitCall.overlap
    split
    · rename_i subdiff hsome
      rw [callSubtypeDiff, callSubtypeDiff, hdiff subdiff hsome _ _ _ _
        (val_eq_of_eq h.leftUpper hupper) (val_eq_of_eq h.rightLower hlower)]
    · rw [hmin, hmax]
  · have hcount : call.leftCount entriesCount = call'.leftCount entriesCount := by
      rw [SplitCall.leftCount, SplitCall.leftCount, hmin, hmax]
    rw [SplitCall.ratio, SplitCall.ratio, SplitCall.rightCount, SplitCall.rightCount, hcount]

/-- In a list in strict order, what is smaller than an element is before it. -/
theorem mem_before_of_lt {γ : Type} {lt : γ → γ → Prop} (hasymm : ∀ {x y}, lt x y → ¬ lt y x)
    {before after : List γ} {x y : γ} (hpair : (before ++ x :: after).Pairwise lt)
    (hmem : y ∈ before ++ x :: after) (hlt : lt y x) : y ∈ before := by
  rcases List.mem_append.mp hmem with hmem | hmem
  · exact hmem
  · exfalso
    rcases List.mem_cons.mp hmem with rfl | hmem
    · exact hasymm hlt hlt
    · exact hasymm hlt ((List.pairwise_cons.mp (List.pairwise_append.mp hpair).2.1).1 y hmem)

section Loops

variable (q) (hn : 1 ≤ entryvec.maxoff) (hbounded : entryvec.Bounded typcache.cmp)

include hn hbounded

theorem lowerCandidates : LowerCandidates typcache.cmp entryvec.ranges
    (lowerCalls typcache.cmp (byLower q typcache entryvec) (byUpper q typcache entryvec)) :=
  (splitCalls_candidates q hn hbounded.ordered).2.1

theorem upperCandidates : UpperCandidates typcache.cmp entryvec.ranges
    (upperCalls typcache.cmp (byLower q typcache entryvec) (byUpper q typcache entryvec)) :=
  (splitCalls_candidates q hn hbounded.ordered).2.2.1

/-- The loops try candidates, -/
theorem candidate_of_mem (hcall : call ∈ splitCalls q typcache entryvec) :
    call.Candidate typcache.cmp entryvec.ranges := by
  refine ⟨splitCall_spec hn hbounded.ordered hcall, ?_⟩
  rcases List.mem_append.mp hcall with hcall | hcall
  · exact Or.inl ((lowerCandidates q hn hbounded).ofLower hcall)
  · exact Or.inr ((upperCandidates q hn hbounded).ofUpper hcall)

/-- and all of them. -/
theorem exists_same_mem (hcall : call.Candidate typcache.cmp entryvec.ranges) :
    ∃ call' ∈ splitCalls q typcache entryvec, call'.Same typcache.cmp call := by
  rcases hcall.kind with hlower | hupper
  · obtain ⟨call', hmem, hsame⟩ := (lowerCandidates q hn hbounded).exists_same hlower
    exact ⟨call', List.mem_append_left _ hmem, hsame⟩
  · obtain ⟨call', hmem, hsame⟩ := (upperCandidates q hn hbounded).exists_same hupper
    exact ⟨call', List.mem_append_right _ hmem, hsame⟩

/-- A candidate that is tried before the one at this place is among the calls before it. -/
theorem exists_same_before {before after : List (SplitCall α)}
    (hsplit : splitCalls q typcache entryvec = before ++ call :: after)
    (hcall' : call'.Candidate typcache.cmp entryvec.ranges)
    (hprec : call'.Precedes typcache.cmp entryvec.ranges call) :
    ∃ call'' ∈ before, call''.Same typcache.cmp call' := by
  have hlower := lowerCandidates q hn hbounded
  have hupper := upperCandidates q hn hbounded
  have hplace : (∃ rest, before = lowerCalls typcache.cmp (byLower q typcache entryvec)
        (byUpper q typcache entryvec) ++ rest ∧ upperCalls typcache.cmp
          (byLower q typcache entryvec) (byUpper q typcache entryvec) = rest ++ call :: after) ∨
      ∃ rest, lowerCalls typcache.cmp (byLower q typcache entryvec)
        (byUpper q typcache entryvec) = before ++ call :: rest := by
    rcases List.append_eq_append_iff.mp hsplit with hupper | ⟨rest, hbefore, hrest⟩
    · exact Or.inl hupper
    · cases rest with
      | nil => exact Or.inl ⟨[], by simpa using hbefore.symm, by simpa using hrest.symm⟩
      | cons first rest =>
        obtain ⟨rfl, -⟩ := List.cons.inj hrest
        exact Or.inr ⟨rest, hbefore⟩
  rcases hplace with ⟨rest, hbefore, hrest⟩ | ⟨rest, hbefore⟩
  · -- the call is one of the second loop, and all of the first loop come before
    rcases hprec with ⟨hof, -⟩ | ⟨hnot, -, hlt⟩
    · obtain ⟨call'', hmem, hsame⟩ := hlower.exists_same hof
      exact ⟨call'', hbefore ▸ List.mem_append_left _ hmem, hsame⟩
    · obtain ⟨call'', hmem, hsame⟩ := hupper.exists_same (hcall'.kind.resolve_left hnot)
      rw [← Std.TransCmp.congr_right hsame.leftUpper] at hlt
      have hdesc := hupper.descending
      rw [hrest] at hmem hdesc
      exact ⟨call'', hbefore ▸ List.mem_append_right _ 
        (mem_before_of_lt Std.OrientedCmp.not_lt_of_lt hdesc hmem hlt), hsame⟩
  · -- it is one of the first loop
    have hcall := hlower.ofLower (hbefore ▸ List.mem_append_right before List.mem_cons_self)
    obtain ⟨hof, hlt⟩ | ⟨-, hnot, -⟩ := hprec
    · obtain ⟨call'', hmem, hsame⟩ := hlower.exists_same hof
      have hlt' := hlt hcall
      rw [← Std.TransCmp.congr_left hsame.rightLower] at hlt'
      have hasc := hlower.ascending
      rw [hbefore] at hmem hasc
      exact ⟨call'', mem_before_of_lt Std.OrientedCmp.not_lt_of_lt hasc hmem hlt', hsame⟩
    · exact absurd hcall hnot

/-- The split that is selected is the best candidate. -/
theorem exists_best_of_selected (hdiff : DiffCongr typcache) {selected : SelectedSplit α}
    (h : selectedSplit q typcache entryvec = some selected) :
    ∃ call : SplitCall α, call.Best typcache entryvec ∧
      call.select typcache entryvec.maxoff = selected := by
  rcases selectedSplit_cases q typcache entryvec with
    ⟨hnone, -⟩ | ⟨call, hsome, before, after, hl, hok, hbefore, hafter⟩
  · rw [hnone] at h
    cases h
  have hcall := candidate_of_mem q hn hbounded (show call ∈ splitCalls q typcache entryvec by
    simp [hl])
  -- a candidate is judged like the call with its bounds
  have hjudged : ∀ {c c' : SplitCall α}, c ∈ splitCalls q typcache entryvec →
      c'.Candidate typcache.cmp entryvec.ranges → c.Same typcache.cmp c' →
      c'.acceptable entryvec.maxoff = true → c.acceptable entryvec.maxoff = true ∧
        SplitCall.better typcache entryvec.maxoff c' call =
          SplitCall.better typcache entryvec.maxoff c call ∧
        SplitCall.better typcache entryvec.maxoff call c' =
          SplitCall.better typcache entryvec.maxoff call c := by
    intro c c' hc hc' hsame hacc
    obtain ⟨hoverlap, hratio⟩ := hsame.judged hdiff hbounded.finite
      (candidate_of_mem q hn hbounded hc) hc' entryvec.maxoff
    unfold SplitCall.acceptable SplitCall.better
    rw [hoverlap, hratio]
    exact ⟨hacc, rfl, rfl⟩
  refine ⟨call, ⟨hcall, hok, fun c' hc' hacc => ?_, fun c' hc' hacc hprec => ?_⟩,
    Option.some.inj (hsome.symm.trans h)⟩
  · obtain ⟨c, hmem, hsame⟩ := exists_same_mem q hn hbounded hc'
    obtain ⟨hok', hbetter, -⟩ := hjudged hmem hc' hsame hacc
    rw [hbetter]
    rw [hl] at hmem
    rcases List.mem_append.mp hmem with hmem | hmem
    · exact better_asymm (hbefore c hmem hok')
    · rcases List.mem_cons.mp hmem with rfl | hmem
      · by_contra hself
        rw [Bool.not_eq_false] at hself
        exact absurd (better_asymm hself) (by simp [hself])
      · exact hafter c hmem hok'
  · obtain ⟨c, hmem, hsame⟩ := exists_same_before q hn hbounded hl hc' hprec
    obtain ⟨hok', -, hbetter⟩ := hjudged (hl ▸ List.mem_append_left _ hmem) hc' hsame hacc
    rw [hbetter]
    exact hbefore c hmem hok'

/-- No split is selected if no candidate is acceptable. -/
theorem selectedSplit_eq_none_iff (hdiff : DiffCongr typcache) :
    selectedSplit q typcache entryvec = none ↔
      ∀ call : SplitCall α, call.Candidate typcache.cmp entryvec.ranges →
        call.acceptable entryvec.maxoff = false := by
  constructor
  · intro hnone c hc
    rcases selectedSplit_cases q typcache entryvec with ⟨-, hall⟩ | ⟨call, hsome, -⟩
    · obtain ⟨c', hmem, hsame⟩ := exists_same_mem q hn hbounded hc
      have hratio := (hsame.judged hdiff hbounded.finite (candidate_of_mem q hn hbounded hmem) hc
        entryvec.maxoff).2
      have hc' := hall c' hmem
      rwa [SplitCall.acceptable, hratio] at hc'
    · rw [hsome] at hnone
      cases hnone
  · intro hall
    by_contra hne
    obtain ⟨selected, hsome⟩ := Option.ne_none_iff_exists'.mp hne
    obtain ⟨call, hbest, -⟩ := exists_best_of_selected q hn hbounded hdiff hsome
    have hacc := hbest.acceptable
    rw [hall call hbest.candidate] at hacc
    cases hacc

end Loops

/-- There is one best candidate, up to equal bounds. -/
theorem SplitCall.Best.counts_eq (h : call.Best typcache entryvec)
    (h' : call'.Best typcache entryvec) :
    call.minLeftCount = call'.minLeftCount ∧ call.maxLeftCount = call'.maxLeftCount := by
  have hnot : ∀ {c c' : SplitCall α}, c.Best typcache entryvec → c'.Best typcache entryvec →
      ¬ c.Precedes typcache.cmp entryvec.ranges c' := by
    intro c c' hc hc' hprec
    have hbetter := hc'.first c hc.candidate hc.acceptable hprec
    rw [hc.best c' hc'.candidate hc'.acceptable] at hbetter
    cases hbetter
  suffices hsame : call.Same typcache.cmp call' from
    hsame.counts h.candidate.spec h'.candidate.spec
  by_cases hl : call.OfLower typcache.cmp entryvec.ranges <;>
    by_cases hl' : call'.OfLower typcache.cmp entryvec.ranges
  · cases heq : rangeCmpBounds typcache.cmp call.rightLower call'.rightLower with
    | lt => exact absurd (Or.inl ⟨hl, fun _ => heq⟩) (hnot h h')
    | eq => exact hl.same hl' heq
    | gt => exact absurd (Or.inl ⟨hl', fun _ => Std.OrientedCmp.gt_iff_lt.mp heq⟩) (hnot h' h)
  · exact absurd (Or.inl ⟨hl, fun hof => absurd hof hl'⟩) (hnot h h')
  · exact absurd (Or.inl ⟨hl', fun hof => absurd hof hl⟩) (hnot h' h)
  · cases heq : rangeCmpBounds typcache.cmp call.leftUpper call'.leftUpper with
    | lt => exact absurd (Or.inr ⟨hl', hl, heq⟩) (hnot h' h)
    | eq => exact (h.candidate.kind.resolve_left hl).same (h'.candidate.kind.resolve_left hl') heq
    | gt => exact absurd (Or.inr ⟨hl, hl', Std.OrientedCmp.gt_iff_lt.mp heq⟩) (hnot h h')

omit [Inhabited α] [Std.TransCmp typcache.cmp] in
/-- The counts on which a split is judged lie between those of the entries that have no choice. -/
theorem SplitCall.leftCount_bounds {call : SplitCall α} (entriesCount : ℕ)
    (h : call.minLeftCount ≤ call.maxLeftCount) :
    call.minLeftCount ≤ call.leftCount entriesCount ∧
      call.leftCount entriesCount ≤ call.maxLeftCount := by
  unfold SplitCall.leftCount
  split_ifs <;> omega

/-- The rounded quotient of two counts exceeds the limit only if the exact one does: below it,
the quotient is at least a tenth of the denominator's inverse away from three tenths. -/
theorem limitRatio_mul_lt {k : ℤ} {n : ℕ} (hk0 : 0 ≤ k) (hkn : k ≤ n) (hn : n < 65535)
    (h : (FloatQ.fin limitRatio).lt (float4 (k / n)) = true) : limitRatio * n < k := by
  have hk0' : (0 : ℚ) ≤ k := by exact_mod_cast hk0
  have hkn' : (k : ℚ) ≤ n := by exact_mod_cast hkn
  have hn0 : (0 : ℚ) ≤ n := Nat.cast_nonneg n
  have hle1 := div_le_one_of_le₀ hkn' hn0
  have hclose : |BinaryFormat.single.nearest (k / n) - k / n| ≤ 2 ^ (-24 : ℤ) :=
    BinaryFormat.abs_nearest_sub_le_of_le_one (div_nonneg hk0' hn0) hle1
  have hfin : |BinaryFormat.single.nearest (k / n)| < 2 ^ BinaryFormat.single.top := by
    rw [abs_of_nonneg (BinaryFormat.nearest_nonneg (div_nonneg hk0' hn0))]
    have hone := BinaryFormat.nearest_mono (f := .single) hle1
    rw [BinaryFormat.nearest_one] at hone
    exact hone.trans_lt (by norm_num [BinaryFormat.single])
  rw [float4, BinaryFormat.round_of_lt hfin] at h
  set y := BinaryFormat.single.nearest (k / n)
  have hlt : limitRatio < y := of_decide_eq_true h
  by_contra hnot
  rw [not_lt] at hnot
  have hpos : (0 : ℚ) < n := by
    -- a quotient by zero is zero, which is rounded to less than the limit
    rcases hn0.lt_or_eq with hpos | hzero
    · exact hpos
    · rw [← hzero, div_zero, sub_zero, abs_le] at hclose
      unfold limitRatio at hlt
      norm_num at hlt hclose
      linarith
  -- the limit is below three tenths, and ten times a count is an integer
  have hten : 10 * k < 3 * n := by
    have hlimit : limitRatio < 3 / 10 := by norm_num [limitRatio]
    have hcast : (10 : ℚ) * k < 3 * n := by nlinarith
    exact_mod_cast hcast
  have hten' : (10 : ℚ) * k + 1 ≤ 3 * n := by exact_mod_cast hten
  have hquot : (k : ℚ) / n ≤ 3 / 10 - 1 / 655350 := by
    have hsmall : (n : ℚ) < 65535 := by exact_mod_cast hn
    rw [div_le_iff₀ hpos]
    linarith
  rw [abs_le] at hclose
  unfold limitRatio at hlt
  norm_num at hlt hclose hquot
  linarith

end Selected

/-! ### The distribution -/

section Distribution

variable {q : Qsort} {typcache : TypeCacheEntry α} {entryvec : GistEntryVector α}
  {selected : SelectedSplit α}

/-- The placements of a selected split: the clear ones, then the common entries as sorted. -/
def selectedPlacements (q : Qsort) (typcache : TypeCacheEntry α) (entryvec : GistEntryVector α)
    (selected : SelectedSplit α) : List (SplitLR × ℕ) :=
  clearPlacements typcache entryvec selected ++
    placeFirst selected.commonLeft
      ((q.run commonEntryCmp (commonEntries typcache entryvec selected)).map (·.index))

theorem rangeGistDoubleSortingSplit_of_selected
    (h : selectedSplit q typcache entryvec = some selected) :
    rangeGistDoubleSortingSplit q typcache entryvec =
      placeAll typcache entryvec (selectedPlacements q typcache entryvec selected) .nothing := by
  rw [rangeGistDoubleSortingSplit, h, selectedPlacements, placeAll, List.foldlM_append]
  rfl

/-- The common entries, in whatever order they are sorted. -/
theorem commonIndices_perm (q : Qsort) (typcache : TypeCacheEntry α)
    (entryvec : GistEntryVector α) (selected : SelectedSplit α) :
    ((q.run commonEntryCmp (commonEntries typcache entryvec selected)).map (·.index)).Perm
      (entryvec.offsets.filter fun i =>
        (placeOf typcache selected (entryvec.key i)).isNone) := by
  have hperm := (q.perm commonEntryCmp (commonEntries typcache entryvec selected)).map (·.index)
  simpa [commonEntries, Function.comp_def] using hperm

/-- The clear placements on one side. -/
theorem sideOf_clearPlacements (lr : SplitLR) :
    sideOf lr (clearPlacements typcache entryvec selected) =
      entryvec.offsets.filter fun i => placeOf typcache selected (entryvec.key i) = some lr := by
  unfold clearPlacements
  induction entryvec.offsets with
  | nil => rfl
  | cons i rest ih =>
    cases hplace : placeOf typcache selected (entryvec.key i) with
    | none => simpa [sideOf, hplace] using ih
    | some lr' => by_cases hlr : lr' = lr <;> simpa [sideOf, hplace, hlr] using ih

/-- Every entry is placed, and placed once. -/
theorem selectedPlacements_perm :
    ((selectedPlacements q typcache entryvec selected).map (·.2)).Perm entryvec.offsets := by
  have hclear : (clearPlacements typcache entryvec selected).map (·.2) =
      entryvec.offsets.filter fun i =>
        !(placeOf typcache selected (entryvec.key i)).isNone := by
    unfold clearPlacements
    induction entryvec.offsets with
    | nil => rfl
    | cons i rest ih =>
      cases hplace : placeOf typcache selected (entryvec.key i) <;> simpa [hplace] using ih
  rw [selectedPlacements, List.map_append, map_snd_placeFirst, hclear]
  -- the common entries are what the clear placements leave out
  refine (List.Perm.append_left _ (commonIndices_perm ..)).trans ?_
  refine List.perm_append_comm.trans ?_
  exact List.filter_append_perm _ _

/-- A loop over the offsets counts the keys. -/
theorem GistEntryVector.length_filter_key (entryvec : GistEntryVector α)
    (p : RangeType α → Bool) :
    (entryvec.offsets.filter fun i => p (entryvec.key i)).length = entryvec.keys.countP p := by
  rw [← List.countP_eq_length_filter, ← entryvec.map_key_offsets, List.countP_map]
  rfl

/-- The place of an entry in terms of its bounds. -/
theorem placeOf_eq (k : RangeType α) : placeOf typcache selected k =
    if (rangeCmpBounds typcache.cmp (upperOf k) selected.leftUpper).isLE then
      if (rangeCmpBounds typcache.cmp (lowerOf k) selected.rightLower).isGE then none
      else some .splitLeft
    else some .splitRight :=
  rfl

theorem placeOf_eq_left_iff {k : RangeType α} :
    placeOf typcache selected k = some .splitLeft ↔
      (rangeCmpBounds typcache.cmp (upperOf k) selected.leftUpper).isLE ∧
        rangeCmpBounds typcache.cmp (lowerOf k) selected.rightLower = .lt := by
  rw [placeOf_eq]
  split_ifs with hupper hlower
  · simp [hupper, Ordering.isGE_iff_ne_lt.mp hlower]
  · simpa [hupper, Ordering.isGE_iff_ne_lt] using hlower
  · simp [hupper]

theorem isNone_placeOf_iff {k : RangeType α} :
    (placeOf typcache selected k).isNone = true ↔
      (rangeCmpBounds typcache.cmp (upperOf k) selected.leftUpper).isLE ∧
        rangeCmpBounds typcache.cmp (lowerOf k) selected.rightLower ≠ .lt := by
  rw [placeOf_eq]
  split_ifs with hupper hlower
  · simp [hupper, Ordering.isGE_iff_ne_lt.mp hlower]
  · simpa [hupper, Ordering.isGE_iff_ne_lt] using hlower
  · simp [hupper]

variable {call : SplitCall α}

/-- The entries that only fit to the left are those that begin before the right page. -/
theorem countP_placeOf_left (h : call.Spec typcache.cmp entryvec.ranges) (entriesCount : ℕ) :
    (entryvec.keys.countP fun k =>
      placeOf typcache (call.select typcache entriesCount) k = some .splitLeft) =
        call.minLeftCount := by
  rw [h.minLeftCount, GistEntryVector.ranges, List.countP_map]
  apply List.countP_congr
  intro k hk
  rw [decide_eq_true_eq, placeOf_eq_left_iff, Function.comp_apply, Ordering.isLT_iff_eq_lt]
  refine and_iff_right_of_imp fun hlt => ?_
  -- it begins before the right page, so it has to fit to the left
  exact (h.fits _ (List.mem_map_of_mem hk)).resolve_right fun hge =>
    Ordering.isGE_iff_ne_lt.mp hge hlt

/-- The entries that fit to the left are those that only fit there and the common ones. -/
theorem countP_placeOf_none (h : call.Spec typcache.cmp entryvec.ranges) (entriesCount : ℕ) :
    call.minLeftCount + (entryvec.keys.countP fun k =>
      (placeOf typcache (call.select typcache entriesCount) k).isNone) = call.maxLeftCount := by
  -- what fits to the left, by whether it begins before the right page
  have hsplit := List.countP_eq_countP_filter_add entryvec.keys
    (fun k => (rangeCmpBounds typcache.cmp (upperOf k) call.leftUpper).isLE)
    fun k => (rangeCmpBounds typcache.cmp (lowerOf k) call.rightLower).isLT
  rw [← countP_placeOf_left h entriesCount, h.maxLeftCount, GistEntryVector.ranges, List.countP_map]
  refine Eq.trans ?_ hsplit.symm
  rw [List.countP_filter, List.countP_filter]
  congr 1
  · apply List.countP_congr
    intro k _
    rw [decide_eq_true_eq, placeOf_eq_left_iff]
    simp [SplitCall.select]
  · apply List.countP_congr
    intro k _
    rw [isNone_placeOf_iff]
    simp [SplitCall.select, Ordering.isGE_iff_ne_lt]

/-- How many entries a selected split puts to the left. What is placed by choice is what the
judged count leaves of the entries that fit to the left. -/
theorem length_left_add_leftCount (q : Qsort) (h : call.Spec typcache.cmp entryvec.ranges)
    (hle : call.minLeftCount ≤ call.maxLeftCount) (entriesCount : ℕ) :
    (sideOf .splitLeft (selectedPlacements q typcache entryvec
      (call.select typcache entriesCount))).length + call.leftCount entriesCount =
        call.minLeftCount + call.maxLeftCount := by
  have hclear : (sideOf .splitLeft (clearPlacements typcache entryvec
      (call.select typcache entriesCount))).length = call.minLeftCount := by
    rw [sideOf_clearPlacements, entryvec.length_filter_key fun k =>
      placeOf typcache (call.select typcache entriesCount) k = some .splitLeft]
    exact countP_placeOf_left h entriesCount
  have hcommon := (commonIndices_perm q typcache entryvec
    (call.select typcache entriesCount)).length_eq
  rw [entryvec.length_filter_key fun k =>
    (placeOf typcache (call.select typcache entriesCount) k).isNone] at hcommon
  have hmax := countP_placeOf_none h entriesCount
  -- the left share is between zero and the number of common entries
  obtain ⟨hmin, hmax'⟩ := call.leftCount_bounds entriesCount hle
  rw [selectedPlacements, sideOf_append, List.length_append, hclear, (sideOf_placeFirst _ _).1,
    List.length_take, hcommon, call.commonLeft_select]
  omega

/-- The two sides hold all entries. -/
theorem length_left_add_length_right (q : Qsort) (typcache : TypeCacheEntry α)
    (entryvec : GistEntryVector α) (selected : SelectedSplit α) :
    (sideOf .splitLeft (selectedPlacements q typcache entryvec selected)).length +
      (sideOf .splitRight (selectedPlacements q typcache entryvec selected)).length =
        entryvec.maxoff := by
  have hperm := (sideOf_perm (selectedPlacements q typcache entryvec selected)).trans
    selectedPlacements_perm
  rw [← entryvec.length_offsets, ← hperm.length_eq, List.length_append]

/-- In the best split no entry can go to both pages, or as many entries have to go to the left as to
the right, one less if their number is odd. -/
def GistEntryVector.EvenlyForced (typcache : TypeCacheEntry α) (entryvec : GistEntryVector α) :
    Prop :=
  ∀ call : SplitCall α, call.Best typcache entryvec → call.minLeftCount = call.maxLeftCount ∨
    call.minLeftCount + call.maxLeftCount = 2 * (entryvec.maxoff / 2)

/-- The method places as many entries on the sides as the split was accepted for exactly if the
entries that have no choice are as evenly shared as all of them. Then the smaller side holds more
than `LIMIT_RATIO` of all. The split is accepted for the left count, but the share of common entries
that the left page gets is what the left count leaves for the right page. -/
theorem rangeGistDoubleSortingSplit_counts_iff (h : typcache.Regular) (hdiff : DiffCongr typcache)
    (q : Qsort) (hn : 2 ≤ entryvec.maxoff)
    (hkeys : ∀ k ∈ entryvec.keys, IsKey typcache k ∧ k.flags.empty = false ∧
      k.flags.lbInf = false ∧ k.flags.ubInf = false)
    (hsel : selectedSplit q typcache entryvec = some selected) :
    ∃ (v : GistSplitvec α) (call : SplitCall α),
      rangeGistDoubleSortingSplit q typcache entryvec = .ok v ∧
      call.Best typcache entryvec ∧ selected = call.select typcache entryvec.maxoff ∧
      (v.left.offsets.length = call.leftCount entryvec.maxoff ∧
          (v.right.offsets.length : ℤ) = call.rightCount entryvec.maxoff ∧
          limitRatio * entryvec.maxoff <
            (min v.left.offsets.length v.right.offsets.length : ℕ) ↔
        entryvec.EvenlyForced typcache) := by
  have htrans := h.transCmp
  obtain ⟨call, hbest, rfl⟩ :=
    exists_best_of_selected q (by omega) (bounded_of_isKey hkeys) hdiff hsel
  have hspec := hbest.candidate.spec
  have hacc := hbest.acceptable
  have hle := hspec.min_le_max
  have heven : entryvec.EvenlyForced typcache ↔ call.minLeftCount = call.maxLeftCount ∨
      call.minLeftCount + call.maxLeftCount = 2 * (entryvec.maxoff / 2) := by
    refine ⟨fun hall => hall call hbest, fun hcall call' hbest' => ?_⟩
    obtain ⟨hmin, hmax⟩ := hbest'.counts_eq hbest
    rwa [hmin, hmax]
  obtain ⟨v, hv, hleft, hright, -⟩ := placeAll_spec h (fun k hk => (hkeys k hk).1)
    (selectedPlacements q typcache entryvec (call.select typcache entryvec.maxoff)) (by
      intro p hp
      exact selectedPlacements_perm.mem_iff.mp (List.mem_map_of_mem hp))
  refine ⟨v, call, (rangeGistDoubleSortingSplit_of_selected hsel).trans hv, hbest, rfl, ?_⟩
  have hcount := length_left_add_leftCount q hspec hle entryvec.maxoff
  have hsum := length_left_add_length_right q typcache entryvec
    (call.select typcache entryvec.maxoff)
  rw [← hleft] at hcount hsum
  rw [← hright] at hsum
  rw [heven]
  constructor
  · rintro ⟨hl, -, -⟩
    rw [hl, SplitCall.leftCount] at hcount
    split_ifs at hcount <;> omega
  · intro heq
    have hl : v.left.offsets.length = call.leftCount entryvec.maxoff := by
      suffices hhalf : 2 * call.leftCount entryvec.maxoff =
          call.minLeftCount + call.maxLeftCount by omega
      unfold SplitCall.leftCount
      split_ifs <;> omega
    have hr : (v.right.offsets.length : ℤ) = call.rightCount entryvec.maxoff := by
      rw [SplitCall.rightCount]
      omega
    refine ⟨hl, hr, ?_⟩
    -- on equal counts, the test on the ratio is about the sides themselves
    have hmin : (min (call.leftCount entryvec.maxoff : ℤ) (call.rightCount entryvec.maxoff)) =
        (min v.left.offsets.length v.right.offsets.length : ℕ) := by
      rw [← hl, ← hr, Nat.cast_min]
    rw [SplitCall.acceptable, SplitCall.ratio, hmin] at hacc
    have hlt := limitRatio_mul_lt (n := entryvec.maxoff) (Int.natCast_nonneg _) (by omega)
      entryvec.small hacc
    exact_mod_cast hlt

end Distribution

/-- Two ranges that are apart. -/
def apartRanges : GistEntryVector ℤ := ⟨[int4Between 0 1, int4Between 2 3], by decide⟩

theorem diffCongr_int4range : DiffCongr int4range := by
  rintro subdiff - v v' w w' hv hw
  rw [compareInt_eq_iff.mp hv, compareInt_eq_iff.mp hw]

/-- Two ranges that are apart: no entry is common, and each page gets the entry it is to have. -/
theorem rangeGistDoubleSortingSplit_counts_apart :
    ∃ (v : GistSplitvec ℤ) (call : SplitCall ℤ),
      rangeGistDoubleSortingSplit .insertion int4range apartRanges = .ok v ∧
      call.Best int4range apartRanges ∧
      v.left.offsets.length = call.leftCount 2 ∧
      (v.right.offsets.length : ℤ) = call.rightCount 2 ∧
      limitRatio * 2 < (min v.left.offsets.length v.right.offsets.length : ℕ) := by
  have htrans : Std.TransCmp int4range.cmp := inferInstanceAs (Std.TransCmp btintcmp)
  have hkeys : ∀ k ∈ apartRanges.keys, IsKey int4range k ∧ k.flags.empty = false ∧
      k.flags.lbInf = false ∧ k.flags.ubInf = false := by
    simp only [apartRanges, List.forall_mem_cons, List.not_mem_nil, false_implies, implies_true,
      and_true]
    exact ⟨⟨isKey_int4Between (by decide), rfl, rfl, rfl⟩, isKey_int4Between (by decide), rfl, rfl,
      rfl⟩
  have hsel : selectedSplit .insertion int4range apartRanges =
      some ((⟨⟨2, false, true, true⟩, 1, ⟨1, false, false, false⟩, 1⟩ : SplitCall ℤ).select
        int4range 2) := by
    decide +kernel
  obtain ⟨v, call, hv, hbest, hcall, hiff⟩ := rangeGistDoubleSortingSplit_counts_iff .int4range
    diffCongr_int4range .insertion (show 2 ≤ apartRanges.maxoff by decide) hkeys hsel
  obtain ⟨hl, hr, hlt⟩ := hiff.mpr fun call' hbest' => by
    obtain ⟨hmin, hmax⟩ := hbest'.counts_eq hbest
    have hleft := congrArg SelectedSplit.commonLeft hcall
    have hright := congrArg SelectedSplit.commonRight hcall
    change (0 : ℤ) = call.maxLeftCount - call.leftCount 2 at hleft
    change (0 : ℤ) = call.leftCount 2 - call.minLeftCount at hright
    omega
  exact ⟨v, call, hv, hbest, hl, hr, hlt⟩

/-- The nested ranges are split at the upper bound of the first, for one entry on the left and two
on the right, but all of them are placed on the right. -/
theorem rangeGistDoubleSortingSplit_nested :
    ∃ call ∈ splitCalls .insertion int4range nestedRanges,
      selectedSplit .insertion int4range nestedRanges = some (call.select int4range 3) ∧
      call.leftCount 3 = 1 ∧ call.rightCount 3 = 2 ∧
      (rangeGistDoubleSortingSplit .insertion int4range nestedRanges).map
        (fun v => (v.left.offsets, v.right.offsets)) = .ok ([], [2, 3, 1]) := by
  refine ⟨⟨⟨0, false, true, true⟩, 0, ⟨1, false, false, false⟩, 1⟩, ?_, ?_, ?_, ?_, ?_⟩
  all_goals decide +kernel

end PgRange.Gist
