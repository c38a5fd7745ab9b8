import PgRange.Math.RoutedTree
import PgRange.Math.SortBy
import PgRange.Range.Canonical

/-!
# The quadrants of an SP-GiST range index

`getQuadrant`, `spg_range_quad_choose` and `spg_range_quad_picksplit`. A range is a point
in the plane of lower and upper bounds, a centroid divides the plane into four quadrants,
and empty ranges are a fifth one. `spg_range_quad_picksplit` takes the centroid's bounds
from the ranges to be split, the lower and the upper bound from different ones in general.

## Main definitions

* `InnerTuple`, `Tree` — the inner tuples of the index and the index as a tree
* `IsCentroid` — the bounds of a centroid come from ranges of the region it divides

## Main results

* `picksplit_cases` — what a successful split returns
* `isCentroid_of_picksplit` — the centroid of a split of values is a centroid
-/

set_option autoImplicit false

namespace PgRange.Spgist

open Math

variable {α : Type} [Inhabited α]

/-! ### The functions of the source -/

/-- `getQuadrant`. -/
def getQuadrant (cmp : α → α → Ordering) (centroid tst : RangeType α) : ℕ :=
  let pc := rangeDeserialize centroid
  let p := rangeDeserialize tst
  if p.empty then 5
  else if (rangeCmpBounds cmp p.lower pc.lower).isGE then
    if (rangeCmpBounds cmp p.upper pc.upper).isGE then 1 else 2
  else
    if (rangeCmpBounds cmp p.upper pc.upper).isGE then 4 else 3

/-- An inner tuple of the index, without its nodes: whether it is marked `allTheSame`,
and its prefix if it has one, which is the centroid. -/
structure InnerTuple (α : Type) where
  allTheSame : Bool
  prefixDatum : Option (RangeType α)
  deriving DecidableEq, Repr

/-- An index. A leaf is the chain of leaf tuples below a node, and empty if there is
none. -/
abbrev Tree (α : Type) := RoutedTree (RangeType α) (InnerTuple α)

/-- The result `spgMatchNode` of a choose function. At an `allTheSame` tuple the node is
set by the core. -/
structure SpgMatchNode (α : Type) where
  nodeN : Option ℕ
  levelAdd : ℕ
  restDatum : RangeType α
  deriving DecidableEq, Repr

/-- `spg_range_quad_choose`. -/
def spgRangeQuadChoose (cmp : α → α → Ordering) (inRange : RangeType α) (tuple : InnerTuple α) :
    SpgMatchNode α :=
  if tuple.allTheSame then ⟨none, 0, inRange⟩
  else
    match tuple.prefixDatum with
    | none => ⟨some (if rangeIsEmpty inRange then 0 else 1), 1, inRange⟩
    | some centroid => ⟨some (getQuadrant cmp centroid inRange - 1), 1, inRange⟩

/-- What a picksplit function returns. -/
structure SpgPickSplitOut (α : Type) where
  prefixDatum : Option (RangeType α)
  nNodes : ℕ
  mapTuplesToNodes : List ℕ
  leafTupleDatums : List (RangeType α)
  deriving DecidableEq, Repr

/-- The median that `spg_range_quad_picksplit` takes of the bounds it has collected. -/
def median (cmp : α → α → Ordering) (bounds : List (RangeBound α)) : RangeBound α :=
  (sortBy (rangeCmpBounds cmp) bounds).getD (bounds.length / 2) default

/-- `spg_range_quad_picksplit`. -/
def spgRangeQuadPicksplit (cmp : α → α → Ordering) (level : ℕ) (datums : List (RangeType α)) :
    Except Fault (SpgPickSplitOut α) :=
  let nonEmpty := datums.filter fun range => !(rangeDeserialize range).empty
  if nonEmpty.length = 0 then
    -- all the ranges are empty
    .ok ⟨none, 2, datums.map fun _ => 0, datums⟩
  else do
    let centroid ← rangeSerialize cmp (median cmp (nonEmpty.map lowerOf))
      (median cmp (nonEmpty.map upperOf)) false
    return ⟨some centroid, if level = 0 then 5 else 4,
      datums.map fun range => getQuadrant cmp centroid range - 1, datums⟩

/-! ### Quadrants -/

section Quadrant

variable {cmp : α → α → Ordering} {c r : RangeType α}

theorem getQuadrant_of_empty (h : r.flags.empty = true) : getQuadrant cmp c r = 5 := by
  simp [getQuadrant, h]

theorem getQuadrant_pos (cmp : α → α → Ordering) (c r : RangeType α) :
    1 ≤ getQuadrant cmp c r := by
  unfold getQuadrant
  dsimp only
  split_ifs <;> decide

theorem getQuadrant_le_five (cmp : α → α → Ordering) (c r : RangeType α) :
    getQuadrant cmp c r ≤ 5 := by
  unfold getQuadrant
  dsimp only
  split_ifs <;> decide

theorem getQuadrant_le_four_iff : getQuadrant cmp c r ≤ 4 ↔ r.flags.empty = false := by
  cases he : r.flags.empty with
  | true => simp [getQuadrant_of_empty he]
  | false =>
    simp only [getQuadrant, rangeDeserialize_empty, he, Bool.false_eq_true, if_false, iff_true]
    split_ifs <;> decide

/-- The four quadrants of the non-empty ranges, by the sides of the two axes. -/
theorem getQuadrant_cases (cmp : α → α → Ordering) [Std.TransCmp cmp] (c : RangeType α)
    (h : r.flags.empty = false) :
    ((rangeCmpBounds cmp (lowerOf c) (lowerOf r)).isLE ∧
      (rangeCmpBounds cmp (upperOf c) (upperOf r)).isLE ∧ getQuadrant cmp c r = 1) ∨
    ((rangeCmpBounds cmp (lowerOf c) (lowerOf r)).isLE ∧
      ¬ (rangeCmpBounds cmp (upperOf c) (upperOf r)).isLE ∧ getQuadrant cmp c r = 2) ∨
    (¬ (rangeCmpBounds cmp (lowerOf c) (lowerOf r)).isLE ∧
      ¬ (rangeCmpBounds cmp (upperOf c) (upperOf r)).isLE ∧ getQuadrant cmp c r = 3) ∨
    (¬ (rangeCmpBounds cmp (lowerOf c) (lowerOf r)).isLE ∧
      (rangeCmpBounds cmp (upperOf c) (upperOf r)).isLE ∧ getQuadrant cmp c r = 4) := by
  simp only [getQuadrant, rangeDeserialize_empty, h, Bool.false_eq_true, if_false,
    Std.OrientedCmp.isGE_eq_isLE]
  split_ifs with hl hu hu
  · exact Or.inl ⟨hl, hu, rfl⟩
  · exact Or.inr (Or.inl ⟨hl, hu, rfl⟩)
  · exact Or.inr (Or.inr (Or.inr ⟨hl, hu, rfl⟩))
  · exact Or.inr (Or.inr (Or.inl ⟨hl, hu, rfl⟩))

variable [Std.TransCmp cmp]

/-- On which side of the centroid's lower bound a range lies. -/
theorem lower_side_iff (h : r.flags.empty = false) :
    (rangeCmpBounds cmp (lowerOf c) (lowerOf r)).isLE ↔
      getQuadrant cmp c r = 1 ∨ getQuadrant cmp c r = 2 := by
  rcases getQuadrant_cases cmp c h with
    ⟨hl, -, hq⟩ | ⟨hl, -, hq⟩ | ⟨hl, -, hq⟩ | ⟨hl, -, hq⟩ <;> simp [hl, hq]

/-- On which side of the centroid's upper bound a range lies. -/
theorem upper_side_iff (h : r.flags.empty = false) :
    (rangeCmpBounds cmp (upperOf c) (upperOf r)).isLE ↔
      getQuadrant cmp c r = 1 ∨ getQuadrant cmp c r = 4 := by
  rcases getQuadrant_cases cmp c h with
    ⟨-, hu, hq⟩ | ⟨-, hu, hq⟩ | ⟨-, hu, hq⟩ | ⟨-, hu, hq⟩ <;> simp [hu, hq]

theorem lower_side_not_iff (h : r.flags.empty = false) :
    ¬ (rangeCmpBounds cmp (lowerOf c) (lowerOf r)).isLE ↔
      getQuadrant cmp c r = 3 ∨ getQuadrant cmp c r = 4 := by
  rcases getQuadrant_cases cmp c h with
    ⟨hl, -, hq⟩ | ⟨hl, -, hq⟩ | ⟨hl, -, hq⟩ | ⟨hl, -, hq⟩ <;> simp [hl, hq]

theorem upper_side_not_iff (h : r.flags.empty = false) :
    ¬ (rangeCmpBounds cmp (upperOf c) (upperOf r)).isLE ↔
      getQuadrant cmp c r = 2 ∨ getQuadrant cmp c r = 3 := by
  rcases getQuadrant_cases cmp c h with
    ⟨-, hu, hq⟩ | ⟨-, hu, hq⟩ | ⟨-, hu, hq⟩ | ⟨-, hu, hq⟩ <;> simp [hu, hq]

/-- Ranges with level bounds lie in the same quadrant. -/
theorem getQuadrant_congr {r' : RangeType α} (h : rangeEqInternal cmp r r' = true) :
    getQuadrant cmp c r = getQuadrant cmp c r' := by
  rcases rangeEqInternal_iff.mp h with ⟨he, he'⟩ | ⟨he, he', hlower, hupper⟩
  · rw [getQuadrant_of_empty he, getQuadrant_of_empty he']
  · simp only [getQuadrant, rangeDeserialize_empty, he, he', Bool.false_eq_true, if_false,
      Std.TransCmp.congr_left hlower, Std.TransCmp.congr_left hupper]

end Quadrant

/-! ### What a split returns -/

section Picksplit

variable {cmp : α → α → Ordering} {level : ℕ} {datums : List (RangeType α)}
  {out : SpgPickSplitOut α}

/-- The ranges of which `spg_range_quad_picksplit` collects the bounds. -/
theorem mem_nonEmpty {r : RangeType α} :
    r ∈ datums.filter (fun range => !(rangeDeserialize range).empty) ↔
      r ∈ datums ∧ r.flags.empty = false := by
  simp

/-- A split has no centroid if all ranges are empty, and else divides them by
quadrants. -/
theorem picksplit_cases (h : spgRangeQuadPicksplit cmp level datums = .ok out) :
    out.leafTupleDatums = datums ∧
    ((out.prefixDatum = none ∧ out.nNodes = 2 ∧ out.mapTuplesToNodes = datums.map (fun _ => 0) ∧
        ∀ r ∈ datums, r.flags.empty = true) ∨
      ∃ c, out.prefixDatum = some c ∧ out.nNodes = (if level = 0 then 5 else 4) ∧
        out.mapTuplesToNodes = datums.map (fun r => getQuadrant cmp c r - 1) ∧
        (∃ r ∈ datums, r.flags.empty = false) ∧
        rangeSerialize cmp
          (median cmp ((datums.filter fun r => !(rangeDeserialize r).empty).map lowerOf))
          (median cmp ((datums.filter fun r => !(rangeDeserialize r).empty).map upperOf)) false =
          .ok c) := by
  rw [spgRangeQuadPicksplit] at h
  -- the code counts the ranges whose bounds it collects
  by_cases hnone : (datums.filter fun range => !(rangeDeserialize range).empty).length = 0
  · rw [if_pos hnone] at h
    obtain rfl := Except.ok.inj h
    refine ⟨rfl, Or.inl ⟨rfl, rfl, rfl, fun r hr => ?_⟩⟩
    by_contra hne
    have hmem := mem_nonEmpty.mpr ⟨hr, by simpa using hne⟩
    rw [List.eq_nil_of_length_eq_zero hnone] at hmem
    exact List.not_mem_nil hmem
  · rw [if_neg hnone] at h
    obtain ⟨c, hc, h⟩ := bind_eq_ok_iff.mp h
    obtain rfl := Except.ok.inj h
    obtain ⟨r, hr⟩ := List.exists_mem_of_length_pos (Nat.pos_of_ne_zero hnone)
    exact ⟨rfl, Or.inr ⟨c, rfl, rfl, rfl, ⟨r, mem_nonEmpty.mp hr⟩, hc⟩⟩

end Picksplit

/-! ### Centroids -/

/-- A centroid of a region: a non-empty value whose lower and whose upper bound are those
of non-empty ranges of the region. -/
structure IsCentroid (typcache : TypeCacheEntry α) (region : RangeType α → Prop)
    (c : RangeType α) : Prop where
  isValue : typcache.IsValue c
  nonempty : c.flags.empty = false
  lower : ∃ r, region r ∧ r.flags.empty = false ∧ lowerOf c = lowerOf r
  upper : ∃ r, region r ∧ r.flags.empty = false ∧ upperOf c = upperOf r

section Centroid

variable {typcache : TypeCacheEntry α} [Std.TransCmp typcache.cmp]

/-- The two medians of ordered ranges are in order, though they come from different
ranges. -/
theorem median_isLE {ranges : List (RangeType α)} (hne : ranges ≠ [])
    (hordered : ∀ r ∈ ranges, (rangeCmpBounds typcache.cmp (lowerOf r) (upperOf r)).isLE) :
    (rangeCmpBounds typcache.cmp (median typcache.cmp (ranges.map lowerOf))
      (median typcache.cmp (ranges.map upperOf))).isLE := by
  have hpos : 0 < ranges.length := List.length_pos_iff.mpr hne
  unfold median
  rw [List.length_map, List.length_map]
  exact sort_pairing (isSortOf_sortBy _ _) (isSortOf_sortBy _ _) hordered
    (Nat.div_lt_self hpos one_lt_two) default

omit [Std.TransCmp typcache.cmp] in
/-- A median is the bound of one of the ranges. -/
theorem median_mem (cmp : α → α → Ordering) (f : RangeType α → RangeBound α)
    {ranges : List (RangeType α)} (hne : ranges ≠ []) :
    ∃ r ∈ ranges, median cmp (ranges.map f) = f r := by
  have hpos : 0 < ranges.length := List.length_pos_iff.mpr hne
  have hmem := sortBy_getD_mem (rangeCmpBounds cmp) (l := ranges.map f)
    (k := (ranges.map f).length / 2) (by simp; omega) default
  obtain ⟨r, hr, heq⟩ := List.mem_map.mp hmem
  exact ⟨r, hr, heq.symm⟩

omit [Std.TransCmp typcache.cmp] in
/-- The range that is packed from the bounds of two values is a value, if it is in
order. -/
theorem isValue_packRange {r1 r2 : RangeType α} (h1 : typcache.IsValue r1)
    (h2 : typcache.IsValue r2) (he1 : r1.flags.empty = false) (he2 : r2.flags.empty = false)
    (hle : (rangeCmpBounds typcache.cmp (lowerOf r1) (upperOf r2)).isLE) :
    typcache.IsValue (packRange (lowerOf r1) (upperOf r2)) where
  proper := (wellFormed_packRange rfl rfl hle).proper
  ordered := (wellFormed_packRange rfl rfl hle).ordered
  canonical := by
    intro hcanon _
    constructor
    · intro hinf
      have hinf' : r1.flags.lbInf = false := hinf
      simp [packRange, hinf', (h1.canonical hcanon he1).1 hinf']
    · intro hinf
      have hinf' : r2.flags.ubInf = false := hinf
      simp [packRange, hinf', (h2.canonical hcanon he2).2 hinf']

/-- The centroid of a split is a centroid of every region that holds the ranges. -/
theorem isCentroid_of_picksplit {region : RangeType α → Prop}
    (hregion : ∀ r, region r → typcache.IsValue r) {level : ℕ} {datums : List (RangeType α)}
    {out : SpgPickSplitOut α} {c : RangeType α} (hdatums : ∀ r ∈ datums, region r)
    (h : spgRangeQuadPicksplit typcache.cmp level datums = .ok out)
    (hc : out.prefixDatum = some c) : IsCentroid typcache region c := by
  obtain ⟨-, ⟨hnone, -⟩ | ⟨c', hc', -, -, ⟨r, hr, he⟩, hser⟩⟩ := picksplit_cases h
  · simp [hnone] at hc
  obtain rfl : c' = c := Option.some.inj (hc'.symm.trans hc)
  generalize hranges : (datums.filter fun r => !(rangeDeserialize r).empty) = ranges at hser
  have hmem : ∀ r ∈ ranges, region r ∧ r.flags.empty = false := by
    intro r hr
    rw [← hranges] at hr
    exact ⟨hdatums r (mem_nonEmpty.mp hr).1, (mem_nonEmpty.mp hr).2⟩
  have hne : ranges ≠ [] := by
    rw [← hranges]
    exact List.ne_nil_of_mem (mem_nonEmpty.mpr ⟨hr, he⟩)
  have hle := median_isLE hne fun r hr =>
    (hregion r (hmem r hr).1).ordered (hmem r hr).2
  -- the two medians are bounds of two ranges, in general different ones
  obtain ⟨r1, hr1, hlow⟩ := median_mem typcache.cmp lowerOf hne
  obtain ⟨r2, hr2, hup⟩ := median_mem typcache.cmp upperOf hne
  rw [hlow, hup] at hser hle
  have hv1 := hregion r1 (hmem r1 hr1).1
  have hv2 := hregion r2 (hmem r2 hr2).1
  rcases (rangeSerialize_eq_ok_iff rfl rfl).mp hser with ⟨-, hempty⟩ | ⟨rfl, -, -⟩
  · -- bounds in order do not enclose nothing
    rcases hempty with hfalse | ⟨heq, hinc⟩
    · exact absurd hfalse (by decide)
    · rw [lower_isLE_upper_iff rfl rfl, heq, hinc] at hle
      simp at hle
  · have hparts := rangeDeserialize_packRange (rfl : (lowerOf r1).lower = true)
      (rfl : (upperOf r2).lower = false) hv1.proper.lowerOf_normal hv2.proper.upperOf_normal
    refine ⟨isValue_packRange hv1 hv2 (hmem r1 hr1).2 (hmem r2 hr2).2 hle, rfl,
      ⟨r1, (hmem r1 hr1).1, (hmem r1 hr1).2, ?_⟩, ⟨r2, (hmem r2 hr2).1, (hmem r2 hr2).2, ?_⟩⟩
    · rw [lowerOf, hparts]
    · rw [upperOf, hparts]

end Centroid

end PgRange.Spgist
