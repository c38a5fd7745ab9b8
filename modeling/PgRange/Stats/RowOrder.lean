import PgRange.Range.Canonical
import PgRange.Stats.ComputeRangeStats
import Mathlib.Order.WithBot

/-!
# The order of the rows in a sample

`compute_range_stats` reads the rows of a sample one after the other. Its counters and sums do
not depend on the order of the rows, but its arrays of bounds and lengths do. They are sorted
before anything else is made of them.

A sort by a comparison fixes the positions of bounds only up to bounds that compare equal, and
`qsort` says nothing about the order of those. But two bounds on the same side of values compare
equal only if they are the same in every field, and so do lengths. Nothing of the order of the
rows is left after the sorts, whatever they do with equal elements.

## Main results

* `computeRangeStats_perm` — a permuted sample has the same statistics
-/

set_option autoImplicit false

namespace PgRange.Stats

open Math

/-! ### The scan -/

section Scan

variable {α : Type}

/-- The counts of two scans added up, and the arrays one behind the other. -/
def SampleScan.append (s t : SampleScan α) : SampleScan α where
  nullCnt := s.nullCnt + t.nullCnt
  nonNullCnt := s.nonNullCnt + t.nonNullCnt
  nonEmptyCnt := s.nonEmptyCnt + t.nonEmptyCnt
  emptyCnt := s.emptyCnt + t.emptyCnt
  totalWidth := s.totalWidth + t.totalWidth
  lowers := s.lowers ++ t.lowers
  uppers := s.uppers ++ t.uppers
  lengths := s.lengths ++ t.lengths

/-- Two scans have the same counts, and the same entries in their arrays. -/
structure SameScan (s t : SampleScan α) : Prop where
  nullCnt : s.nullCnt = t.nullCnt
  nonNullCnt : s.nonNullCnt = t.nonNullCnt
  nonEmptyCnt : s.nonEmptyCnt = t.nonEmptyCnt
  emptyCnt : s.emptyCnt = t.emptyCnt
  totalWidth : s.totalWidth = t.totalWidth
  lowers : s.lowers.Perm t.lowers
  uppers : s.uppers.Perm t.uppers
  lengths : s.lengths.Perm t.lengths

namespace SameScan

variable {s t u : SampleScan α}

theorem refl (s : SampleScan α) : SameScan s s :=
  ⟨rfl, rfl, rfl, rfl, rfl, .refl _, .refl _, .refl _⟩

theorem trans (h : SameScan s t) (h' : SameScan t u) : SameScan s u :=
  ⟨h.nullCnt.trans h'.nullCnt, h.nonNullCnt.trans h'.nonNullCnt,
    h.nonEmptyCnt.trans h'.nonEmptyCnt, h.emptyCnt.trans h'.emptyCnt,
    h.totalWidth.trans h'.totalWidth, h.lowers.trans h'.lowers, h.uppers.trans h'.uppers,
    h.lengths.trans h'.lengths⟩

theorem append (h : SameScan s t) (r : SampleScan α) : SameScan (s.append r) (t.append r) where
  nullCnt := congrArg (· + r.nullCnt) h.nullCnt
  nonNullCnt := congrArg (· + r.nonNullCnt) h.nonNullCnt
  nonEmptyCnt := congrArg (· + r.nonEmptyCnt) h.nonEmptyCnt
  emptyCnt := congrArg (· + r.emptyCnt) h.emptyCnt
  totalWidth := congrArg (· + r.totalWidth) h.totalWidth
  lowers := h.lowers.append_right _
  uppers := h.uppers.append_right _
  lengths := h.lengths.append_right _

/-- What comes first does not matter. -/
theorem append_swap (s r r' : SampleScan α) :
    SameScan ((s.append r).append r') ((s.append r').append r) := by
  have hlist : ∀ {β : Type} (l m m' : List β), (l ++ m ++ m').Perm (l ++ m' ++ m) := by
    intro β l m m'
    rw [List.append_assoc, List.append_assoc]
    exact List.perm_append_comm.append_left l
  exact ⟨Nat.add_right_comm _ _ _, Nat.add_right_comm _ _ _, Nat.add_right_comm _ _ _,
    Nat.add_right_comm _ _ _, Nat.add_right_comm _ _ _, hlist _ _ _, hlist _ _ _, hlist _ _ _⟩

end SameScan

variable [Inhabited α] (typcache : TypeCacheEntry α)

/-- A row adds the same to every scan. -/
theorem scanRow_eq_append (s : SampleScan α) (row : Option (SampleValue α)) :
    scanRow typcache s row = s.append (scanRow typcache {} row) := by
  cases row with
  | none => simp [scanRow, SampleScan.append]
  | some value =>
    cases hempty : value.range.flags.empty with
    | true => simp [scanRow, SampleScan.append, hempty]
    | false => simp [scanRow, SampleScan.append, hempty]

namespace SameScan

variable {s t : SampleScan α}

theorem row (h : SameScan s t) (row : Option (SampleValue α)) :
    SameScan (scanRow typcache s row) (scanRow typcache t row) := by
  rw [scanRow_eq_append typcache s, scanRow_eq_append typcache t]
  exact h.append _

theorem row_swap (s : SampleScan α) (row row' : Option (SampleValue α)) :
    SameScan (scanRow typcache (scanRow typcache s row) row')
      (scanRow typcache (scanRow typcache s row') row) := by
  rw [scanRow_eq_append typcache _ row', scanRow_eq_append typcache s row,
    scanRow_eq_append typcache (scanRow typcache s row'), scanRow_eq_append typcache s row']
  exact append_swap s _ _

theorem foldl (h : SameScan s t) (rows : List (Option (SampleValue α))) :
    SameScan (rows.foldl (scanRow typcache) s) (rows.foldl (scanRow typcache) t) := by
  induction rows generalizing s t with
  | nil => exact h
  | cons row rows ih => exact ih (h.row typcache row)

/-- Scans of permuted rows have the same counts and the same entries. -/
theorem foldl_perm {rows rows' : List (Option (SampleValue α))} (hperm : rows.Perm rows')
    (s : SampleScan α) :
    SameScan (rows.foldl (scanRow typcache) s) (rows'.foldl (scanRow typcache) s) := by
  induction hperm generalizing s with
  | nil => exact refl s
  | cons row _ ih => exact ih _
  | swap row row' rows => exact (row_swap typcache s row' row).foldl typcache rows
  | trans _ _ ih ih' => exact (ih s).trans (ih' s)

end SameScan

end Scan

/-! ### Entries that compare equal -/

section Level

variable {α : Type} {cmp : α → α → Ordering} [Std.LawfulEqCmp cmp]

/-- Two bounds on one side that compare equal are the same, unless what an infinite bound
holds besides differs. -/
theorem eq_of_level {b b' : RangeBound α} (hside : b.lower = b'.lower)
    (hinf : b.infinite = true → b'.infinite = true → b = b')
    (h : rangeCmpBounds cmp b b' = .eq) : b = b' := by
  obtain ⟨v, inf, inc, low⟩ := b
  obtain ⟨v', inf', inc', low'⟩ := b'
  obtain rfl : low = low' := hside
  cases inf <;> cases inf'
  · -- finite bounds have level values and are inclusive alike
    cases hcmp : cmp v v' with
    | lt => simp [rangeCmpBounds, hcmp] at h
    | gt => simp [rangeCmpBounds, hcmp] at h
    | eq =>
      obtain rfl := Std.LawfulEqCmp.eq_of_compare hcmp
      cases inc <;> cases inc' <;> cases low <;> simp [rangeCmpBounds, hcmp] at h ⊢
  · cases low <;> simp [rangeCmpBounds] at h
  · cases low <;> simp [rangeCmpBounds] at h
  · exact hinf rfl rfl

variable [Inhabited α] {r r' : RangeType α}

theorem lowerOf_eq_of_level (hr : r.flags.Proper) (hr' : r'.flags.Proper)
    (h : rangeCmpBounds cmp (lowerOf r) (lowerOf r') = .eq) : lowerOf r = lowerOf r' :=
  eq_of_level rfl (fun hinf hinf' => (hr.lowerOf_normal hinf).trans (hr'.lowerOf_normal hinf').symm)
    h

theorem upperOf_eq_of_level (hr : r.flags.Proper) (hr' : r'.flags.Proper)
    (h : rangeCmpBounds cmp (upperOf r) (upperOf r') = .eq) : upperOf r = upperOf r' :=
  eq_of_level rfl (fun hinf hinf' => (hr.upperOf_normal hinf).trans (hr'.upperOf_normal hinf').symm)
    h

end Level

/-! ### Lengths -/

/-- A length as a floating-point number: a rational number or infinity. -/
def lengthOf : WithTop ℚ → FloatQ
  | none => .posInf
  | some q => .fin q

theorem float8QsortCmp_lengthOf (x y : WithTop ℚ) :
    float8QsortCmp (lengthOf x) (lengthOf y) = compare x y := by
  cases x using WithTop.recTopCoe with
  | top =>
    cases y using WithTop.recTopCoe with
    | top => rw [compare_eq_iff_eq.mpr rfl]; rfl
    | coe q => rw [compare_gt_iff_gt.mpr (WithTop.coe_lt_top q)]; rfl
  | coe p =>
    cases y using WithTop.recTopCoe with
    | top => rw [compare_lt_iff_lt.mpr (WithTop.coe_lt_top p)]; rfl
    | coe q =>
      change float8QsortCmp (.fin p) (.fin q) = _
      rcases lt_trichotomy p q with hlt | rfl | hgt
      · rw [compare_lt_iff_lt.mpr (WithTop.coe_lt_coe.mpr hlt)]
        simp [float8QsortCmp, hlt]
      · rw [compare_eq_iff_eq.mpr rfl]
        simp [float8QsortCmp]
      · rw [compare_gt_iff_gt.mpr (WithTop.coe_lt_coe.mpr hgt)]
        simp [float8QsortCmp, hgt.not_gt, hgt.ne']

theorem rangeLength_eq {α : Type} (typcache : TypeCacheEntry α) (lower upper : RangeBound α) :
    ∃ x, rangeLength typcache lower upper = lengthOf x := by
  unfold rangeLength
  split_ifs
  · exact ⟨none, rfl⟩
  · cases typcache.rngSubdiff with
    | none => exact ⟨some 1, rfl⟩
    | some subdiff => exact ⟨some _, rfl⟩

/-! ### The sorts -/

section Sorts

variable {α : Type} [Inhabited α] (typcache : TypeCacheEntry α)

theorem foldl_scanRow_lengths (sample : List (Option (SampleValue α))) (s : SampleScan α) :
    (sample.foldl (scanRow typcache) s).lengths =
      s.lengths ++ (nonEmptyParts sample).map fun p => rangeLength typcache p.lower p.upper := by
  induction sample generalizing s with
  | nil => simp [nonEmptyParts]
  | cons row sample ih =>
    rw [List.foldl_cons, ih]
    cases row with
    | none => simp [scanRow, nonEmptyParts]
    | some value => cases hempty : value.range.flags.empty <;> simp [scanRow, nonEmptyParts, hempty]

/-- The lengths are numbers or infinite. -/
theorem exists_lengths (sample : List (Option (SampleValue α))) :
    ∃ xs : List (WithTop ℚ), (scanSample typcache sample).lengths = xs.map lengthOf := by
  choose x hx using rangeLength_eq typcache
  refine ⟨(nonEmptyParts sample).map fun p => x p.lower p.upper, ?_⟩
  rw [scanSample, foldl_scanRow_lengths, List.map_map]
  exact List.map_congr_left fun p _ => hx p.lower p.upper

/-- The lengths are sorted, though the comparison would not sort others. -/
theorem isSortOf_lengths (sample : List (Option (SampleValue α))) :
    IsSortOf float8QsortCmp (sortBy float8QsortCmp (scanSample typcache sample).lengths)
      (scanSample typcache sample).lengths := by
  obtain ⟨xs, hxs⟩ := exists_lengths typcache sample
  rw [hxs]
  refine ⟨sortBy_perm _ _, ?_⟩
  rw [sortBy_map float8QsortCmp_lengthOf, List.pairwise_map]
  refine (sortBy_pairwise compare xs).imp fun hle => ?_
  rw [float8QsortCmp_lengthOf]
  exact hle

theorem eq_of_level_lengths {sample : List (Option (SampleValue α))} {x y : FloatQ}
    (hx : x ∈ (scanSample typcache sample).lengths) (hy : y ∈ (scanSample typcache sample).lengths)
    (hle : (float8QsortCmp x y).isLE) (hle' : (float8QsortCmp y x).isLE) : x = y := by
  obtain ⟨xs, hxs⟩ := exists_lengths typcache sample
  rw [hxs] at hx hy
  obtain ⟨a, -, rfl⟩ := List.mem_map.mp hx
  obtain ⟨b, -, rfl⟩ := List.mem_map.mp hy
  rw [float8QsortCmp_lengthOf] at hle hle'
  exact congrArg lengthOf (Std.LawfulEqCmp.eq_of_compare (Std.OrientedCmp.isLE_antisymm hle hle'))

variable {typcache} {sample sample' : List (Option (SampleValue α))}

theorem exists_of_mem_lowers {x : RangeBound α} (hx : x ∈ (scanSample typcache sample).lowers) :
    ∃ value, some value ∈ sample ∧ x = lowerOf value.range := by
  rw [scanSample_lowers] at hx
  obtain ⟨p, hp, rfl⟩ := List.mem_map.mp hx
  obtain ⟨value, hvalue, -, rfl⟩ := exists_of_mem_nonEmptyParts hp
  exact ⟨value, hvalue, rfl⟩

theorem exists_of_mem_uppers {x : RangeBound α} (hx : x ∈ (scanSample typcache sample).uppers) :
    ∃ value, some value ∈ sample ∧ x = upperOf value.range := by
  rw [scanSample_uppers] at hx
  obtain ⟨p, hp, rfl⟩ := List.mem_map.mp hx
  obtain ⟨value, hvalue, -, rfl⟩ := exists_of_mem_nonEmptyParts hp
  exact ⟨value, hvalue, rfl⟩

/-- Whatever the three sorts do with equal elements of the second sample, they return what is
made of the first one. -/
structure SortsAgree (typcache : TypeCacheEntry α)
    (sample sample' : List (Option (SampleValue α))) : Prop where
  lowers : ∀ s, IsSortOf (rangeCmpBounds typcache.cmp) s (scanSample typcache sample').lowers →
    s = sortBy (rangeCmpBounds typcache.cmp) (scanSample typcache sample).lowers
  uppers : ∀ s, IsSortOf (rangeCmpBounds typcache.cmp) s (scanSample typcache sample').uppers →
    s = sortBy (rangeCmpBounds typcache.cmp) (scanSample typcache sample).uppers
  lengths : ∀ s, IsSortOf float8QsortCmp s (scanSample typcache sample').lengths →
    s = sortBy float8QsortCmp (scanSample typcache sample).lengths

variable [Std.TransCmp typcache.cmp] [Std.LawfulEqCmp typcache.cmp]

theorem sortsAgree_of_perm (hvalues : ∀ value, some value ∈ sample → value.range.flags.Proper)
    (hperm : sample.Perm sample') : SortsAgree typcache sample sample' := by
  have hscan : SameScan (scanSample typcache sample) (scanSample typcache sample') :=
    SameScan.foldl_perm typcache hperm {}
  refine ⟨fun s hs => ?_, fun s hs => ?_, fun s hs => ?_⟩
  · refine ((isSortOf_sortBy _ _).eq hs hscan.lowers fun x hx y hy hle hle' => ?_).symm
    obtain ⟨v, hv, rfl⟩ := exists_of_mem_lowers hx
    obtain ⟨w, hw, rfl⟩ := exists_of_mem_lowers hy
    exact lowerOf_eq_of_level (hvalues v hv) (hvalues w hw) (Std.OrientedCmp.isLE_antisymm hle hle')
  · refine ((isSortOf_sortBy _ _).eq hs hscan.uppers fun x hx y hy hle hle' => ?_).symm
    obtain ⟨v, hv, rfl⟩ := exists_of_mem_uppers hx
    obtain ⟨w, hw, rfl⟩ := exists_of_mem_uppers hy
    exact upperOf_eq_of_level (hvalues v hv) (hvalues w hw) (Std.OrientedCmp.isLE_antisymm hle hle')
  · exact ((isSortOf_lengths typcache sample).eq hs hscan.lengths fun x hx y hy =>
      eq_of_level_lengths typcache hx hy).symm

/-- Permuted samples have the same statistics. -/
theorem computeRangeStats_eq_of_perm (A : CInt) (R : CFloat) (word : α → Datum)
    (target : StatTarget)
    (hvalues : ∀ value, some value ∈ sample → value.range.flags.Proper)
    (hperm : sample.Perm sample') :
    computeRangeStats A R word typcache target sample =
      computeRangeStats A R word typcache target sample' := by
  have hscan : SameScan (scanSample typcache sample) (scanSample typcache sample') :=
    SameScan.foldl_perm typcache hperm {}
  have hsorts : SortsAgree typcache sample sample' := sortsAgree_of_perm hvalues hperm
  have hbounds : ∀ bins, boundsHistogram typcache (scanSample typcache sample).lowers
      (scanSample typcache sample).uppers bins = boundsHistogram typcache
        (scanSample typcache sample').lowers (scanSample typcache sample').uppers bins := by
    intro bins
    unfold boundsHistogram
    rw [hsorts.lowers _ (isSortOf_sortBy _ _), hsorts.uppers _ (isSortOf_sortBy _ _)]
  have hlengths : ∀ bins, lengthHistogram (scanSample typcache sample).lengths bins =
      lengthHistogram (scanSample typcache sample').lengths bins := by
    intro bins
    unfold lengthHistogram
    rw [hsorts.lengths _ (isSortOf_lengths typcache sample')]
  unfold computeRangeStats frequencyCall
  simp only [hscan.nullCnt, hscan.nonNullCnt, hscan.nonEmptyCnt, hscan.emptyCnt, hscan.totalWidth,
    hbounds, hlengths, hperm.length_eq]

end Sorts

instance : Std.LawfulEqCmp int4range.cmp where
  eq_of_compare h := compareInt_eq_iff.mp h

/-- The statistics of an `int4range` column do not depend on the order of the sampled rows,
nor on what the three sorts do with equal elements. -/
theorem computeRangeStats_perm (A : CInt) (R : CFloat) (word : ℤ → Datum) (target : StatTarget)
    {sample sample' : List (Option (SampleValue ℤ))}
    (hvalues : ∀ value, some value ∈ sample → int4range.IsValue value.range)
    (hperm : sample.Perm sample') :
    computeRangeStats A R word int4range target sample =
        computeRangeStats A R word int4range target sample' ∧
      SortsAgree int4range sample sample' :=
  ⟨computeRangeStats_eq_of_perm A R word target (fun value hvalue => (hvalues value hvalue).proper)
    hperm, sortsAgree_of_perm (fun value hvalue => (hvalues value hvalue).proper) hperm⟩

/-- The rows `[10,45)`, null and `[0,30)`, and the same with the two ranges exchanged. -/
theorem computeRangeStats_perm_exchange :
    computeRangeStats .int32 .float4 int4Word int4range ⟨100, by decide, by decide⟩
        [some ⟨17, ⟨{ lbInc := true }, 10, 45⟩⟩, none, some ⟨17, ⟨{ lbInc := true }, 0, 30⟩⟩] =
      computeRangeStats .int32 .float4 int4Word int4range ⟨100, by decide, by decide⟩
        [some ⟨17, ⟨{ lbInc := true }, 0, 30⟩⟩, none, some ⟨17, ⟨{ lbInc := true }, 10, 45⟩⟩] := by
  refine (computeRangeStats_perm .int32 .float4 int4Word _ (fun value hvalue => ?_)
    (List.reverse_perm [_, none, _])).1
  simp only [List.mem_reverse, List.mem_cons, Option.some.injEq, List.not_mem_nil, or_false,
    reduceCtorEq, false_or] at hvalue
  rcases hvalue with rfl | rfl
  · exact int4range_isValue (by decide)
  · exact int4range_isValue (by decide)

end PgRange.Stats
