import PgRange.Gist.Consistent
import PgRange.Spgist.Insert

/-!
# What the scan keys of an SP-GiST range index ask for

`spg_range_quad_inner_consistent` turns the scan keys into a set of quadrants to visit.
Most strategies bound the corners of an answer by a box; `=` and the tests for emptiness
name the quadrants themselves. For adjacency the function also looks at the centroid one
level up, which it has passed down as the traversal value: an answer below the present
tuple lies on the same side of that centroid as the present centroid does, since the
bounds of a centroid come from ranges of its own region.

This file shows that the quadrants left by one scan key have all its answers.

## Main definitions

* `spgRangeQuadInnerConsistent`, `spgRangeQuadLeafConsistent` — the support functions
* `Admits` — a range is not excluded by what one scan key asks for
* `IsPrevious` — a centroid that was passed down to a subtree

## Main results

* `Admits.testBit_applyRestriction` — the quadrant of an admitted range is visited
* `restrict_admits` — what a scan key asks for admits its answers
-/

set_option autoImplicit false

namespace PgRange.Spgist

open Math
open PgRange.Gist (Strategy rangeGistConsistentLeaf)

variable {α : Type} [Inhabited α]

/-! ### The functions of the source -/

/-- A scan key. -/
structure ScanKey (α : Type) where
  strategy : Strategy
  argument : strategy.Query α

/-- Whether the argument of a scan key is the empty range. -/
def argumentIsEmpty : (strategy : Strategy) → strategy.Query α → Bool
  | .before, range | .overleft, range | .overlaps, range | .overright, range | .after, range
  | .adjacent, range | .contains, range | .containedBy, range | .eq, range => rangeIsEmpty range
  | .containsElem, _ => false

/-- `adjacent_cmp_bounds`: `-1` for left and `1` for right. -/
def adjacentCmpBounds (typcache : TypeCacheEntry α) (arg centroid : RangeBound α) :
    Except Fault ℤ :=
  let cmp := rangeCmpBounds typcache.cmp arg centroid
  if centroid.lower then
    if cmp.isLT then do
      let adjacent ← boundsAdjacent typcache arg centroid
      return if adjacent then 1 else -1
    else .ok 1
  else .ok (if cmp.isLE then -1 else 1)

/-- `adjacent_inner_consistent`: `0` if the previous level has excluded both sides. -/
def adjacentInnerConsistent (typcache : TypeCacheEntry α) (arg centroid : RangeBound α) :
    Option (RangeBound α) → Except Fault ℤ
  | none => adjacentCmpBounds typcache arg centroid
  | some prev => do
    let prevcmp ← adjacentCmpBounds typcache arg prev
    let cmp := rangeCmpBounds typcache.cmp centroid prev
    if prevcmp < 0 ∧ cmp.isGE ∨ 0 < prevcmp ∧ cmp.isLT then return 0
    else adjacentCmpBounds typcache arg centroid

/-- What one scan key asks for: the quadrants that are left, a box for the bounds of an
answer, and whether the centroid must be passed down. -/
structure Restriction (α : Type) where
  which : ℕ
  needPrevious : Bool
  minLower : Option (RangeBound α) := none
  maxLower : Option (RangeBound α) := none
  minUpper : Option (RangeBound α) := none
  maxUpper : Option (RangeBound α) := none
  inclusive : Bool := true
  strictEmpty : Bool := true

/-- The quadrants on the side that `adjacent_inner_consistent` names. -/
def adjacentQuadrants (cmp : ℤ) (right left : ℕ) : ℕ :=
  if 0 < cmp then right else if cmp < 0 then left else 0

/-- The case of `RANGESTRAT_CONTAINS`. -/
def restrictContains (start : Restriction α) (lower upper : RangeBound α) (empty : Bool) :
    Restriction α :=
  if empty then { start with strictEmpty := false }
  else
    { start with
      which := start.which &&& (1 <<< 1 ||| 1 <<< 2 ||| 1 <<< 3 ||| 1 <<< 4)
      maxLower := some lower
      minUpper := some upper
      strictEmpty := false }

/-- The switch over the strategies at a tuple with a centroid. -/
def restrict (typcache : TypeCacheEntry α) (centroid : RangeType α)
    (traversalValue : Option (RangeType α)) (start : Restriction α) :
    (strategy : Strategy) → strategy.Query α → Except Fault (Restriction α)
  | .before, range =>
    .ok { start with maxUpper := some (lowerOf range), inclusive := false }
  | .overleft, range => .ok { start with maxUpper := some (upperOf range) }
  | .overlaps, range =>
    .ok { start with maxLower := some (upperOf range), minUpper := some (lowerOf range) }
  | .overright, range => .ok { start with minLower := some (lowerOf range) }
  | .after, range =>
    .ok { start with minLower := some (upperOf range), inclusive := false }
  | .adjacent, range =>
    if rangeIsEmpty range then .ok start
    else do
      let cmp1 ← adjacentInnerConsistent typcache (lowerOf range) (upperOf centroid)
        (traversalValue.map upperOf)
      let cmp2 ← adjacentInnerConsistent typcache (upperOf range) (lowerOf centroid)
        (traversalValue.map lowerOf)
      let which1 := adjacentQuadrants cmp1 (1 <<< 1 ||| 1 <<< 4) (1 <<< 2 ||| 1 <<< 3)
      let which2 := adjacentQuadrants cmp2 (1 <<< 1 ||| 1 <<< 2) (1 <<< 3 ||| 1 <<< 4)
      return { start with which := start.which &&& (which1 ||| which2), needPrevious := true }
  | .contains, range =>
    .ok (restrictContains start (lowerOf range) (upperOf range) (rangeIsEmpty range))
  | .containsElem, val =>
    -- like `RANGESTRAT_CONTAINS` with the range of this element only
    .ok (restrictContains start ⟨val, false, true, true⟩ ⟨val, false, true, false⟩ false)
  | .containedBy, range =>
    if rangeIsEmpty range then
      .ok { start with which := start.which &&& 1 <<< 5, strictEmpty := false }
    else
      .ok { start with
        minLower := some (lowerOf range)
        maxUpper := some (upperOf range)
        strictEmpty := false }
  | .eq, range =>
    .ok { start with
      which := start.which &&& 1 <<< getQuadrant typcache.cmp centroid range
      strictEmpty := false }

/-- The use of `minLower` and `minUpper`: if the centroid's bound is not above the
minimum, only the quadrants of the mask are left. -/
def applyMin (cmp : α → α → Ordering) (centroidBound : RangeBound α) (mask : ℕ) :
    Option (RangeBound α) → ℕ → ℕ
  | none, which => which
  | some bound, which =>
    if (rangeCmpBounds cmp centroidBound bound).isLE then which &&& mask else which

/-- The use of `maxLower` and `maxUpper`. -/
def applyMax (cmp : α → α → Ordering) (inclusive : Bool) (centroidBound : RangeBound α)
    (mask : ℕ) : Option (RangeBound α) → ℕ → ℕ
  | none, which => which
  | some bound, which =>
    let order := rangeCmpBounds cmp centroidBound bound
    if order == .gt || !inclusive && order == .eq then which &&& mask else which

/-- The quadrants that are left by what a scan key asks for. -/
def applyRestriction (cmp : α → α → Ordering) (centroid : RangeType α) (empty : Bool)
    (r : Restriction α) : ℕ :=
  if r.strictEmpty && empty then 0
  else
    let which :=
      if r.strictEmpty then r.which &&& (1 <<< 1 ||| 1 <<< 2 ||| 1 <<< 3 ||| 1 <<< 4)
      else r.which
    let which := applyMin cmp (lowerOf centroid) (1 <<< 1 ||| 1 <<< 2 ||| 1 <<< 5) r.minLower which
    let which := applyMax cmp r.inclusive (lowerOf centroid) (1 <<< 3 ||| 1 <<< 4 ||| 1 <<< 5)
      r.maxLower which
    let which := applyMin cmp (upperOf centroid) (1 <<< 1 ||| 1 <<< 4 ||| 1 <<< 5) r.minUpper which
    applyMax cmp r.inclusive (upperOf centroid) (1 <<< 2 ||| 1 <<< 3 ||| 1 <<< 5) r.maxUpper which

/-- The loop over the scan keys at a tuple with a centroid, with the quadrants that are
left and whether the centroid must be passed down. -/
def centroidLoop (typcache : TypeCacheEntry α) (centroid : RangeType α)
    (traversalValue : Option (RangeType α)) :
    List (ScanKey α) → ℕ → Bool → Except Fault (ℕ × Bool)
  | [], which, needPrevious => .ok (which, needPrevious)
  | key :: keys, which, needPrevious => do
    let r ← restrict typcache centroid traversalValue { which, needPrevious } key.strategy
      key.argument
    let which := applyRestriction typcache.cmp centroid
      (argumentIsEmpty key.strategy key.argument) r
    if which = 0 then return (0, r.needPrevious)
    else centroidLoop typcache centroid traversalValue keys which r.needPrevious

/-- The switch over the strategies at a tuple without a centroid, where bit 1 is the node
of the empty ranges and bit 2 that of the others. -/
def restrictEmptiness : (strategy : Strategy) → strategy.Query α → ℕ → ℕ
  | .before, range, which | .overleft, range, which | .overlaps, range, which
  | .overright, range, which | .after, range, which | .adjacent, range, which =>
    if rangeIsEmpty range then 0 else which &&& 1 <<< 2
  | .contains, range, which => if rangeIsEmpty range then which else which &&& 1 <<< 2
  | .containedBy, range, which => if rangeIsEmpty range then which &&& 1 <<< 1 else which
  | .containsElem, _, which => which &&& 1 <<< 2
  | .eq, range, which => if rangeIsEmpty range then which &&& 1 <<< 1 else which &&& 1 <<< 2

/-- The loop over the scan keys at a tuple without a centroid. -/
def emptinessLoop : List (ScanKey α) → ℕ → ℕ
  | [], which => which
  | key :: keys, which =>
    let which := restrictEmptiness key.strategy key.argument which
    if which = 0 then 0 else emptinessLoop keys which

/-- What an inner consistent function returns. -/
structure SpgInnerConsistentOut (α : Type) where
  nodeNumbers : List ℕ
  traversalValues : Option (List (RangeType α))
  deriving DecidableEq, Repr

/-- The nodes whose bit is set. -/
def nodesOf (nNodes which : ℕ) : List ℕ :=
  (List.range nNodes).filter fun n => which &&& 1 <<< (n + 1) != 0

/-- `spg_range_quad_inner_consistent`. -/
def spgRangeQuadInnerConsistent (typcache : TypeCacheEntry α) (keys : List (ScanKey α))
    (tuple : InnerTuple α) (nNodes : ℕ) (traversalValue : Option (RangeType α)) :
    Except Fault (SpgInnerConsistentOut α) :=
  if tuple.allTheSame then .ok ⟨List.range nNodes, none⟩
  else
    match tuple.prefixDatum with
    | none => .ok ⟨nodesOf nNodes (emptinessLoop keys (1 <<< 1 ||| 1 <<< 2)), none⟩
    | some centroid => do
      let (which, needPrevious) ← centroidLoop typcache centroid traversalValue keys
        (1 <<< 1 ||| 1 <<< 2 ||| 1 <<< 3 ||| 1 <<< 4 ||| 1 <<< 5) false
      let nodeNumbers := nodesOf nNodes which
      return ⟨nodeNumbers,
        if needPrevious then some (nodeNumbers.map fun _ => centroid) else none⟩

/-- `spg_range_quad_leaf_consistent`. Its switch calls the ten operators as that of
`range_gist_consistent_leaf` does. -/
def spgRangeQuadLeafConsistent (typcache : TypeCacheEntry α) :
    List (ScanKey α) → RangeType α → Except Fault Bool
  | [], _ => .ok true
  | key :: keys, leafRange => do
    let res ← rangeGistConsistentLeaf typcache key.strategy leafRange key.argument
    if res then spgRangeQuadLeafConsistent typcache keys leafRange else return false

/-! ### The box and the quadrants -/

section Box

variable {cmp : α → α → Ordering} {c x : RangeType α} {q which mask : ℕ}

/-- A range is not excluded by what one scan key asks for: its quadrant is among those
named, it is not empty if empty ranges are out, and its bounds lie in the box. -/
structure Admits (cmp : α → α → Ordering) (c : RangeType α) (empty : Bool) (r : Restriction α)
    (x : RangeType α) : Prop where
  which : r.which.testBit (getQuadrant cmp c x) = true
  strict : r.strictEmpty = true → empty = false ∧ x.flags.empty = false
  minLower : ∀ b, r.minLower = some b → x.flags.empty = false →
    (rangeCmpBounds cmp b (lowerOf x)).isLE
  maxLower : ∀ b, r.maxLower = some b → x.flags.empty = false →
    (rangeCmpBounds cmp (lowerOf x) b).isLE ∧
      (r.inclusive = false → rangeCmpBounds cmp (lowerOf x) b = .lt)
  minUpper : ∀ b, r.minUpper = some b → x.flags.empty = false →
    (rangeCmpBounds cmp b (upperOf x)).isLE
  maxUpper : ∀ b, r.maxUpper = some b → x.flags.empty = false →
    (rangeCmpBounds cmp (upperOf x) b).isLE ∧
      (r.inclusive = false → rangeCmpBounds cmp (upperOf x) b = .lt)

omit [Inhabited α] in
theorem testBit_applyMin {centroidBound : RangeBound α} {bound : Option (RangeBound α)}
    (hwhich : which.testBit q = true)
    (hmask : ∀ b, bound = some b → (rangeCmpBounds cmp centroidBound b).isLE →
      mask.testBit q = true) :
    (applyMin cmp centroidBound mask bound which).testBit q = true := by
  cases bound with
  | none => exact hwhich
  | some b =>
    unfold applyMin
    dsimp only
    split_ifs with hle
    · rw [Nat.testBit_and, hwhich, hmask b rfl hle]
      rfl
    · exact hwhich

omit [Inhabited α] in
theorem testBit_applyMax {inclusive : Bool} {centroidBound : RangeBound α}
    {bound : Option (RangeBound α)} (hwhich : which.testBit q = true)
    (hmask : ∀ b, bound = some b → (rangeCmpBounds cmp centroidBound b = .gt ∨
      inclusive = false ∧ rangeCmpBounds cmp centroidBound b = .eq) → mask.testBit q = true) :
    (applyMax cmp inclusive centroidBound mask bound which).testBit q = true := by
  cases bound with
  | none => exact hwhich
  | some b =>
    unfold applyMax
    dsimp only
    split_ifs with hout
    · rw [Nat.testBit_and, hwhich, hmask b rfl (by simpa using hout)]
      rfl
    · exact hwhich

omit [Inhabited α] in
/-- A centroid's bound outside a maximum is above every bound within it. -/
theorem not_isLE_of_out [Std.TransCmp cmp] {centroidBound bound b : RangeBound α}
    {inclusive : Bool}
    (hout : rangeCmpBounds cmp centroidBound b = .gt ∨
      inclusive = false ∧ rangeCmpBounds cmp centroidBound b = .eq)
    (hin : (rangeCmpBounds cmp bound b).isLE ∧
      (inclusive = false → rangeCmpBounds cmp bound b = .lt)) :
    ¬ (rangeCmpBounds cmp centroidBound bound).isLE := by
  intro hle
  rcases hout with hgt | ⟨hexcl, heq⟩
  · have hb := Std.TransCmp.isLE_trans hle hin.1
    rw [hgt] at hb
    exact absurd hb (by decide)
  · have hb := Std.TransCmp.lt_of_isLE_of_lt hle (hin.2 hexcl)
    rw [heq] at hb
    exact absurd hb (by decide)

theorem testBit_and_of (hwhich : which.testBit q = true) (hmask : mask.testBit q = true) :
    (which &&& mask).testBit q = true := by
  rw [Nat.testBit_and, hwhich, hmask]
  rfl

theorem testBit_of_or {q1 q2 : ℕ} (h : q = q1 ∨ q = q2) (h1 : mask.testBit q1 = true)
    (h2 : mask.testBit q2 = true) : mask.testBit q = true := by
  rcases h with rfl | rfl
  · exact h1
  · exact h2

/-- A mask with the fifth quadrant only has to be checked for ranges that are not
empty. -/
theorem testBit_of_nonempty (hfive : mask.testBit 5 = true)
    (h : x.flags.empty = false → mask.testBit (getQuadrant cmp c x) = true) :
    mask.testBit (getQuadrant cmp c x) = true := by
  cases hx : x.flags.empty with
  | true => rwa [getQuadrant_of_empty hx]
  | false => exact h hx

/-! The masks of the four sides, each with the fifth quadrant: an empty range has no
sides. -/

section Sides

variable [Std.TransCmp cmp]

theorem testBit_right (h : x.flags.empty = false →
      (rangeCmpBounds cmp (lowerOf c) (lowerOf x)).isLE) :
    (1 <<< 1 ||| 1 <<< 2 ||| 1 <<< 5).testBit (getQuadrant cmp c x) = true :=
  testBit_of_nonempty (by decide) fun hx =>
    testBit_of_or ((lower_side_iff hx).mp (h hx)) (by decide) (by decide)

theorem testBit_left (h : x.flags.empty = false →
      ¬ (rangeCmpBounds cmp (lowerOf c) (lowerOf x)).isLE) :
    (1 <<< 3 ||| 1 <<< 4 ||| 1 <<< 5).testBit (getQuadrant cmp c x) = true :=
  testBit_of_nonempty (by decide) fun hx =>
    testBit_of_or ((lower_side_not_iff hx).mp (h hx)) (by decide) (by decide)

theorem testBit_above (h : x.flags.empty = false →
      (rangeCmpBounds cmp (upperOf c) (upperOf x)).isLE) :
    (1 <<< 1 ||| 1 <<< 4 ||| 1 <<< 5).testBit (getQuadrant cmp c x) = true :=
  testBit_of_nonempty (by decide) fun hx =>
    testBit_of_or ((upper_side_iff hx).mp (h hx)) (by decide) (by decide)

theorem testBit_under (h : x.flags.empty = false →
      ¬ (rangeCmpBounds cmp (upperOf c) (upperOf x)).isLE) :
    (1 <<< 2 ||| 1 <<< 3 ||| 1 <<< 5).testBit (getQuadrant cmp c x) = true :=
  testBit_of_nonempty (by decide) fun hx =>
    testBit_of_or ((upper_side_not_iff hx).mp (h hx)) (by decide) (by decide)

theorem testBit_nonempty (h : x.flags.empty = false) :
    (1 <<< 1 ||| 1 <<< 2 ||| 1 <<< 3 ||| 1 <<< 4).testBit (getQuadrant cmp c x) = true := by
  by_cases hside : (rangeCmpBounds cmp (lowerOf c) (lowerOf x)).isLE
  · exact testBit_of_or ((lower_side_iff h).mp hside) (by decide) (by decide)
  · exact testBit_of_or ((lower_side_not_iff h).mp hside) (by decide) (by decide)

end Sides

/-- The masks of the box keep the quadrant of every range that is admitted. -/
theorem Admits.testBit_applyRestriction [Std.TransCmp cmp] {empty : Bool} {r : Restriction α}
    (h : Admits cmp c empty r x) :
    (applyRestriction cmp c empty r).testBit (getQuadrant cmp c x) = true := by
  have hstrict : ¬ ((r.strictEmpty && empty) = true) := by
    intro hboth
    rw [Bool.and_eq_true] at hboth
    rw [(h.strict hboth.1).1] at hboth
    exact absurd hboth.2 (by decide)
  have hwhich : (if r.strictEmpty then r.which &&& (1 <<< 1 ||| 1 <<< 2 ||| 1 <<< 3 ||| 1 <<< 4)
      else r.which).testBit (getQuadrant cmp c x) = true := by
    split_ifs with hs
    · exact testBit_and_of h.which (testBit_nonempty (h.strict hs).2)
    · exact h.which
  unfold applyRestriction
  rw [if_neg hstrict]
  -- the four masks in turn, the last one first
  apply testBit_applyMax
  · apply testBit_applyMin
    · apply testBit_applyMax
      · apply testBit_applyMin hwhich
        intro b hb hle
        exact testBit_right fun hx => Std.TransCmp.isLE_trans hle (h.minLower b hb hx)
      · intro b hb hout
        exact testBit_left fun hx => not_isLE_of_out hout (h.maxLower b hb hx)
    · intro b hb hle
      exact testBit_above fun hx => Std.TransCmp.isLE_trans hle (h.minUpper b hb hx)
  · intro b hb hout
    exact testBit_under fun hx => not_isLE_of_out hout (h.maxUpper b hb hx)

end Box

/-! ### Adjacency -/

section Adjacency

variable {typcache : TypeCacheEntry α} {a c x : RangeType α}

/-- On which side of a centroid's bound another bound lies. -/
def sideOf (cmp : α → α → Ordering) (centroid bound : RangeBound α) : ℤ :=
  if (rangeCmpBounds cmp centroid bound).isLE then 1 else -1

/-- The upper bounds next to the argument's lower bound are on the side that
`adjacent_cmp_bounds` names. -/
theorem adjacentCmpBounds_upper [Std.TransCmp typcache.cmp] (c : RangeType α)
    (h : Cut.Adjacent typcache.cmp (upperOf x).cut (lowerOf a).cut) :
    adjacentCmpBounds typcache (lowerOf a) (upperOf c) =
      .ok (sideOf typcache.cmp (upperOf c) (upperOf x)) := by
  change Except.ok (if (rangeCmpBounds typcache.cmp (lowerOf a) (upperOf c)).isLE then -1 else 1) =
    Except.ok (if (rangeCmpBounds typcache.cmp (upperOf c) (upperOf x)).isLE then 1 else -1)
  simp only [rangeCmpBounds_eq_cut]
  by_cases hle : (Cut.compareBy typcache.cmp (lowerOf a).cut (upperOf c).cut).isLE
  · have hlt := Std.TransCmp.lt_of_lt_of_isLE h.lt hle
    rw [if_pos hle, if_neg (lt_iff_not_isLE.mp hlt)]
  · have hside := h.isLE_left (lt_iff_not_isLE.mpr hle)
    rw [if_neg hle, if_pos hside]

/-- The lower bounds next to the argument's upper bound are on the side that
`adjacent_cmp_bounds` names. Here the centroid's bound can itself be next to the
argument's. -/
theorem adjacentCmpBounds_lower (hidx : typcache.Indexable) (ha : typcache.IsValue a)
    (hc : typcache.IsValue c) (hae : a.flags.empty = false) (hce : c.flags.empty = false)
    (h : Cut.Adjacent typcache.cmp (upperOf a).cut (lowerOf x).cut) :
    adjacentCmpBounds typcache (upperOf a) (lowerOf c) =
      .ok (sideOf typcache.cmp (lowerOf c) (lowerOf x)) := by
  have htrans := hidx.transCmp
  have hadj := boundsAdjacent_iff hidx ha hc hae hce
  obtain ⟨b, hb⟩ : ∃ b, boundsAdjacent typcache (upperOf a) (lowerOf c) = .ok b :=
    ⟨_, boundsAdjacent_eq hidx ha hc hae hce⟩
  rw [hb] at hadj
  unfold adjacentCmpBounds sideOf
  simp only [rangeDeserialize_lower_lower, if_true, isLT_eq_not_isLE, hb, rangeCmpBounds_eq_cut]
  by_cases hle : (Cut.compareBy typcache.cmp (lowerOf c).cut (upperOf a).cut).isLE
  · -- the centroid's bound is at or below the argument's, so below the one next to it
    have hside := Std.TransCmp.isLE_trans hle (isLE_of_lt h.lt)
    simp [hle, hside]
  · -- it is above the argument's: next to it, or beyond every bound that is
    have hside : (Cut.compareBy typcache.cmp (lowerOf c).cut (lowerOf x).cut).isLE ↔ b = true := by
      constructor
      · intro hside
        rcases h.of_isLE_right hside with hnext | hle'
        · exact Except.ok.inj (hadj.mpr hnext)
        · exact absurd hle' hle
      · rintro rfl
        exact (hadj.mp rfl).isLE_right h.lt
    cases b with
    | true => simp [hle, hside.mpr rfl]
    | false => simp [hle, mt hside.mp Bool.false_ne_true]

theorem adjacentCmpBounds_upper_total (typcache : TypeCacheEntry α) (a c : RangeType α) :
    ∃ d, adjacentCmpBounds typcache (lowerOf a) (upperOf c) = .ok d :=
  ⟨_, rfl⟩

theorem adjacentCmpBounds_lower_total (hidx : typcache.Indexable) (ha : typcache.IsValue a)
    (hc : typcache.IsValue c) (hae : a.flags.empty = false) (hce : c.flags.empty = false) :
    ∃ d, adjacentCmpBounds typcache (upperOf a) (lowerOf c) = .ok d := by
  unfold adjacentCmpBounds
  simp only [rangeDeserialize_lower_lower, if_true, boundsAdjacent_eq hidx ha hc hae hce]
  split_ifs
  · exact ⟨_, rfl⟩
  · exact ⟨_, rfl⟩

theorem adjacentInnerConsistent_total {arg centroid : RangeBound α}
    {prev : Option (RangeBound α)} (hc : ∃ d, adjacentCmpBounds typcache arg centroid = .ok d)
    (hp : ∀ p, prev = some p → ∃ d, adjacentCmpBounds typcache arg p = .ok d) :
    ∃ d, adjacentInnerConsistent typcache arg centroid prev = .ok d := by
  cases prev with
  | none => exact hc
  | some p =>
    obtain ⟨d, hd⟩ := hp p rfl
    simp only [adjacentInnerConsistent, hd, bind, Except.bind]
    split_ifs
    · exact ⟨0, rfl⟩
    · exact hc

/-- The previous centroid does not exclude a bound that lies on the same side of it as the
present centroid. -/
theorem adjacentInnerConsistent_eq [Std.TransCmp typcache.cmp] {arg centroid bound : RangeBound α}
    {prev : Option (RangeBound α)}
    (hc : adjacentCmpBounds typcache arg centroid = .ok (sideOf typcache.cmp centroid bound))
    (hp : ∀ p, prev = some p →
      adjacentCmpBounds typcache arg p = .ok (sideOf typcache.cmp p bound) ∧
      ((rangeCmpBounds typcache.cmp p bound).isLE ↔
        (rangeCmpBounds typcache.cmp p centroid).isLE)) :
    adjacentInnerConsistent typcache arg centroid prev =
      .ok (sideOf typcache.cmp centroid bound) := by
  cases prev with
  | none => exact hc
  | some p =>
    obtain ⟨hd, hside⟩ := hp p rfl
    rw [adjacentInnerConsistent, hd]
    -- the direction to take at the previous level is the one that was taken
    refine Eq.trans (if_neg ?_) hc
    rw [Std.OrientedCmp.isGE_eq_isLE, isLT_eq_not_isLE]
    unfold sideOf
    by_cases hle : (rangeCmpBounds typcache.cmp p bound).isLE
    · simp [hle, hside.mp hle]
    · simp [hle, mt hside.mpr hle]

end Adjacency

/-! ### What a scan key asks for admits its answers -/

/-- A centroid that was passed down to a subtree: the region of the subtree lies in one of
its quadrants. -/
structure IsPrevious (typcache : TypeCacheEntry α) (region : RangeType α → Prop)
    (p : RangeType α) : Prop where
  isValue : typcache.IsValue p
  nonempty : p.flags.empty = false
  quadrant : ∃ q, ∀ r, region r → getQuadrant typcache.cmp p r = q

section Keys

variable {typcache : TypeCacheEntry α} {region : RangeType α → Prop} {c p x : RangeType α}

/-- The previous centroid's lower bound has an answer and the present centroid on the same
side. -/
theorem IsPrevious.lower_iff [Std.TransCmp typcache.cmp] (hp : IsPrevious typcache region p)
    (hc : IsCentroid typcache region c) (hx : region x) (he : x.flags.empty = false) :
    (rangeCmpBounds typcache.cmp (lowerOf p) (lowerOf x)).isLE ↔
      (rangeCmpBounds typcache.cmp (lowerOf p) (lowerOf c)).isLE := by
  obtain ⟨q, hq⟩ := hp.quadrant
  obtain ⟨r, hr, hre, heq⟩ := hc.lower
  rw [heq, lower_side_iff he, lower_side_iff hre, hq x hx, hq r hr]

theorem IsPrevious.upper_iff [Std.TransCmp typcache.cmp] (hp : IsPrevious typcache region p)
    (hc : IsCentroid typcache region c) (hx : region x) (he : x.flags.empty = false) :
    (rangeCmpBounds typcache.cmp (upperOf p) (upperOf x)).isLE ↔
      (rangeCmpBounds typcache.cmp (upperOf p) (upperOf c)).isLE := by
  obtain ⟨q, hq⟩ := hp.quadrant
  obtain ⟨r, hr, hre, heq⟩ := hc.upper
  rw [heq, upper_side_iff he, upper_side_iff hre, hq x hx, hq r hr]

omit [Inhabited α] in
/-- The quadrants on the side of an adjacent bound. -/
theorem adjacentQuadrants_sideOf (cmp : α → α → Ordering) (centroid bound : RangeBound α)
    (right left : ℕ) :
    adjacentQuadrants (sideOf cmp centroid bound) right left =
      if (rangeCmpBounds cmp centroid bound).isLE then right else left := by
  unfold adjacentQuadrants sideOf
  split_ifs <;> simp_all

variable {prev : Option (RangeType α)}

/-- The two directions of `RANGESTRAT_ADJACENT` are always found. -/
theorem adjacent_total (hidx : typcache.Indexable) (hc : IsCentroid typcache region c)
    (hprev : ∀ p, prev = some p → IsPrevious typcache region p) {a : RangeType α}
    (ha : typcache.IsValue a) (hae : a.flags.empty = false) :
    (∃ d, adjacentInnerConsistent typcache (lowerOf a) (upperOf c) (prev.map upperOf) = .ok d) ∧
      ∃ d, adjacentInnerConsistent typcache (upperOf a) (lowerOf c) (prev.map lowerOf) =
        .ok d := by
  constructor
  · apply adjacentInnerConsistent_total (adjacentCmpBounds_upper_total typcache a c)
    intro b hb
    obtain ⟨p, -, rfl⟩ := Option.map_eq_some_iff.mp hb
    exact adjacentCmpBounds_upper_total typcache a p
  · apply adjacentInnerConsistent_total
      (adjacentCmpBounds_lower_total hidx ha hc.isValue hae hc.nonempty)
    intro b hb
    obtain ⟨p, hp, rfl⟩ := Option.map_eq_some_iff.mp hb
    exact adjacentCmpBounds_lower_total hidx ha (hprev p hp).isValue hae (hprev p hp).nonempty

/-- The quadrant of a range that is adjacent to the argument is among those named for one
of the two directions. -/
theorem adjacent_testBit (hidx : typcache.Indexable) (hc : IsCentroid typcache region c)
    (hprev : ∀ p, prev = some p → IsPrevious typcache region p) {a : RangeType α}
    (ha : typcache.IsValue a) (hx : region x) (hxv : typcache.IsValue x)
    (hadj : rangeAdjacentInternal typcache x a = .ok true) {d1 d2 : ℤ}
    (h1 : adjacentInnerConsistent typcache (lowerOf a) (upperOf c) (prev.map upperOf) = .ok d1)
    (h2 : adjacentInnerConsistent typcache (upperOf a) (lowerOf c) (prev.map lowerOf) = .ok d2) :
    (adjacentQuadrants d1 (1 <<< 1 ||| 1 <<< 4) (1 <<< 2 ||| 1 <<< 3) |||
      adjacentQuadrants d2 (1 <<< 1 ||| 1 <<< 2) (1 <<< 3 ||| 1 <<< 4)).testBit
        (getQuadrant typcache.cmp c x) = true := by
  have htrans := hidx.transCmp
  obtain ⟨hxe, hae⟩ := Gist.nonempty_of_adjacent hadj
  obtain ⟨b, hb, hiff⟩ := rangeAdjacentInternal_eq hidx hxv ha hxe hae
  obtain rfl : b = true := by simpa [hb] using hadj
  rw [Nat.testBit_or, Bool.or_eq_true]
  rcases hiff.mp rfl with hleft | hright
  · left
    -- the range ends where the argument starts
    have hd : d1 = sideOf typcache.cmp (upperOf c) (upperOf x) := by
      refine Except.ok.inj (h1.symm.trans ?_)
      apply adjacentInnerConsistent_eq (adjacentCmpBounds_upper c hleft)
      intro b hb
      obtain ⟨p, hp, rfl⟩ := Option.map_eq_some_iff.mp hb
      exact ⟨adjacentCmpBounds_upper p hleft, (hprev p hp).upper_iff hc hx hxe⟩
    rw [hd, adjacentQuadrants_sideOf]
    split_ifs with hle
    · exact testBit_of_or ((upper_side_iff hxe).mp hle) (by decide) (by decide)
    · exact testBit_of_or ((upper_side_not_iff hxe).mp hle) (by decide) (by decide)
  · right
    -- the range starts where the argument ends
    have hd : d2 = sideOf typcache.cmp (lowerOf c) (lowerOf x) := by
      refine Except.ok.inj (h2.symm.trans ?_)
      apply adjacentInnerConsistent_eq
        (adjacentCmpBounds_lower hidx ha hc.isValue hae hc.nonempty hright)
      intro b hb
      obtain ⟨p, hp, rfl⟩ := Option.map_eq_some_iff.mp hb
      exact ⟨adjacentCmpBounds_lower hidx ha (hprev p hp).isValue hae (hprev p hp).nonempty hright,
        (hprev p hp).lower_iff hc hx hxe⟩
    rw [hd, adjacentQuadrants_sideOf]
    split_ifs with hle
    · exact testBit_of_or ((lower_side_iff hxe).mp hle) (by decide) (by decide)
    · exact testBit_of_or ((lower_side_not_iff hxe).mp hle) (by decide) (by decide)

theorem restrict_adjacent {start : Restriction α} {a : RangeType α}
    (hae : a.flags.empty = false) {d1 d2 : ℤ}
    (h1 : adjacentInnerConsistent typcache (lowerOf a) (upperOf c) (prev.map upperOf) = .ok d1)
    (h2 : adjacentInnerConsistent typcache (upperOf a) (lowerOf c) (prev.map lowerOf) = .ok d2) :
    restrict typcache c prev start .adjacent a = .ok
      { start with
        which := start.which &&&
          (adjacentQuadrants d1 (1 <<< 1 ||| 1 <<< 4) (1 <<< 2 ||| 1 <<< 3) |||
            adjacentQuadrants d2 (1 <<< 1 ||| 1 <<< 2) (1 <<< 3 ||| 1 <<< 4))
        needPrevious := true } := by
  simp only [restrict, rangeIsEmpty, hae, Bool.false_eq_true, if_false, h1, h2, bind, Except.bind]
  rfl

/-- The switch over the strategies raises no error. -/
theorem restrict_total (hidx : typcache.Indexable) (hc : IsCentroid typcache region c)
    (hprev : ∀ p, prev = some p → IsPrevious typcache region p) (start : Restriction α)
    (strategy : Strategy) (argument : strategy.Query α)
    (hq : strategy.IsQuery typcache argument) :
    ∃ r, restrict typcache c prev start strategy argument = .ok r := by
  cases strategy with
  | adjacent =>
    cases he : rangeIsEmpty argument with
    | true => exact ⟨start, by simp [restrict, he]⟩
    | false =>
      obtain ⟨⟨d1, h1⟩, ⟨d2, h2⟩⟩ := adjacent_total hidx hc hprev hq he
      exact ⟨_, restrict_adjacent he h1 h2⟩
  | containedBy =>
    simp only [restrict]
    split_ifs
    · exact ⟨_, rfl⟩
    · exact ⟨_, rfl⟩
  | before | overleft | overlaps | overright | after | contains | containsElem | eq =>
    exact ⟨_, rfl⟩

/-- Only an empty range is contained in an empty one. -/
theorem empty_of_containedBy_empty {cmp : α → α → Ordering} [Std.TransCmp cmp]
    {range : RangeType α} (h : rangeContainedByInternal cmp x range = true)
    (hempty : range.flags.empty = true) : x.flags.empty = true := by
  by_contra hne
  have hrange := ((rangeContainsInternal_iff (by simpa using hne)).mp h).1
  rw [hempty] at hrange
  exact Bool.noConfusion hrange

omit [Inhabited α] in
theorem forall_of_some {bound : RangeBound α} {P : RangeBound α → Prop} (h : P bound) :
    ∀ b, some bound = some b → P b := by
  rintro b ⟨⟩
  exact h

/-- The answers of a key that asks for containment of a range or of an element lie in its
box. -/
theorem restrictContains_admits [Std.TransCmp typcache.cmp] {lower upper : RangeBound α}
    {which : ℕ} {needPrevious empty : Bool}
    (hwhich : which.testBit (getQuadrant typcache.cmp c x) = true)
    (h : empty = false → x.flags.empty = false ∧
      (rangeCmpBounds typcache.cmp (lowerOf x) lower).isLE ∧
      (rangeCmpBounds typcache.cmp upper (upperOf x)).isLE) :
    Admits typcache.cmp c empty (restrictContains { which, needPrevious } lower upper empty) x := by
  cases empty with
  | true => exact ⟨hwhich, nofun, nofun, nofun, nofun, nofun⟩
  | false =>
    obtain ⟨hxe, hlower, hupper⟩ := h rfl
    exact ⟨testBit_and_of hwhich (testBit_nonempty hxe), nofun, nofun,
      forall_of_some fun _ => ⟨hlower, nofun⟩, forall_of_some fun _ => hupper, nofun⟩

/-- What a scan key asks for admits its answers in the region. -/
theorem restrict_admits (hidx : typcache.Indexable) (hc : IsCentroid typcache region c)
    (hprev : ∀ p, prev = some p → IsPrevious typcache region p) {which : ℕ} {needPrevious : Bool}
    (strategy : Strategy) (argument : strategy.Query α)
    (hq : strategy.IsQuery typcache argument) {r : Restriction α}
    (hr : restrict typcache c prev { which, needPrevious } strategy argument = .ok r)
    (hx : region x) (hxv : typcache.IsValue x)
    (hleaf : rangeGistConsistentLeaf typcache strategy x argument = .ok true)
    (hwhich : which.testBit (getQuadrant typcache.cmp c x) = true) :
    Admits typcache.cmp c (argumentIsEmpty strategy argument) r x := by
  have htrans := hidx.transCmp
  -- an accepted range satisfies the inequalities that make up the box of its strategy
  cases strategy with
  | before =>
    obtain ⟨hxe, hqe, hnot⟩ := rangeBeforeInternal_iff.mp (Except.ok.inj hleaf)
    obtain rfl := Except.ok.inj hr
    have hlt := lt_iff_not_isLE.mpr hnot
    exact ⟨hwhich, fun _ => ⟨hqe, hxe⟩, nofun, nofun, nofun,
      forall_of_some fun _ => ⟨isLE_of_lt hlt, fun _ => hlt⟩⟩
  | overleft =>
    obtain ⟨hxe, hqe, hle⟩ := rangeOverleftInternal_iff.mp (Except.ok.inj hleaf)
    obtain rfl := Except.ok.inj hr
    exact ⟨hwhich, fun _ => ⟨hqe, hxe⟩, nofun, nofun, nofun,
      forall_of_some fun _ => ⟨hle, nofun⟩⟩
  | overlaps =>
    have hover := Except.ok.inj hleaf
    obtain ⟨hxe, hqe⟩ := Gist.nonempty_of_overlaps hover
    obtain ⟨hlower, hupper⟩ :=
      (rangeOverlapsInternal_iff hxe hqe (hxv.ordered hxe) (hq.ordered hqe)).mp hover
    obtain rfl := Except.ok.inj hr
    exact ⟨hwhich, fun _ => ⟨hqe, hxe⟩, nofun, forall_of_some fun _ => ⟨hlower, nofun⟩,
      forall_of_some fun _ => hupper, nofun⟩
  | overright =>
    obtain ⟨hxe, hqe, hle⟩ := rangeOverrightInternal_iff.mp (Except.ok.inj hleaf)
    obtain rfl := Except.ok.inj hr
    exact ⟨hwhich, fun _ => ⟨hqe, hxe⟩, forall_of_some fun _ => hle, nofun, nofun, nofun⟩
  | after =>
    obtain ⟨hxe, hqe, hnot⟩ := rangeAfterInternal_iff.mp (Except.ok.inj hleaf)
    obtain rfl := Except.ok.inj hr
    have hlt := lt_iff_not_isLE.mpr hnot
    exact ⟨hwhich, fun _ => ⟨hqe, hxe⟩, forall_of_some fun _ => isLE_of_lt hlt, nofun, nofun,
      nofun⟩
  | adjacent =>
    obtain ⟨hxe, hqe⟩ := Gist.nonempty_of_adjacent hleaf
    obtain ⟨⟨d1, h1⟩, ⟨d2, h2⟩⟩ := adjacent_total hidx hc hprev hq hqe
    obtain rfl := Except.ok.inj ((restrict_adjacent hqe h1 h2).symm.trans hr)
    have hmask := adjacent_testBit hidx hc hprev hq hx hxv hleaf h1 h2
    exact ⟨testBit_and_of hwhich hmask, fun _ => ⟨hqe, hxe⟩, nofun, nofun, nofun, nofun⟩
  | contains =>
    obtain rfl := Except.ok.inj hr
    refine restrictContains_admits hwhich fun hqe => ?_
    exact (rangeContainsInternal_iff hqe).mp (Except.ok.inj hleaf)
  | containsElem =>
    obtain rfl := Except.ok.inj hr
    obtain ⟨hxe, hlower, hupper⟩ := (rangeContainsElemInternal_iff argument).mp (Except.ok.inj hleaf)
    -- the two bounds made from the element stand at its place
    refine restrictContains_admits hwhich fun _ => ⟨hxe, ?_, ?_⟩
    · rw [rangeCmpBounds_eq_cut]
      exact hlower
    · rw [rangeCmpBounds_eq_cut]
      exact hupper
  | containedBy =>
    have hin : rangeContainsInternal typcache.cmp argument x = true := Except.ok.inj hleaf
    cases hqe : rangeIsEmpty argument with
    | true =>
      simp only [restrict, hqe, if_true] at hr
      obtain rfl := Except.ok.inj hr
      have hxe := empty_of_containedBy_empty hin hqe
      refine ⟨testBit_and_of hwhich ?_, nofun, nofun, nofun, nofun, nofun⟩
      rw [getQuadrant_of_empty hxe]
      decide
    | false =>
      simp only [restrict, hqe, Bool.false_eq_true, if_false] at hr
      obtain rfl := Except.ok.inj hr
      have hbox := fun hxe => ((rangeContainsInternal_iff hxe).mp hin).2
      exact ⟨hwhich, nofun, forall_of_some fun hxe => (hbox hxe).1, nofun, nofun,
        forall_of_some fun hxe => ⟨(hbox hxe).2, nofun⟩⟩
  | eq =>
    obtain rfl := Except.ok.inj hr
    -- an equal range lies in the quadrant of the argument
    refine ⟨testBit_and_of hwhich ?_, nofun, nofun, nofun, nofun, nofun⟩
    rw [getQuadrant_congr (Except.ok.inj hleaf)]
    simp [Nat.testBit_shiftLeft]

end Keys

end PgRange.Spgist
