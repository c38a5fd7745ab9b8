import PgRange.Gist.Columns
import PgRange.Gist.Union
import PgRange.Math.SortBy

/-!
# Placing the entries of a page on two pages

What the split methods of `rangetypes_gist.c` have in common, and the methods that need no more
than one pass over the entries. Every method decides for each offset on which side to place it,
in some order, and `PLACE_LEFT` and `PLACE_RIGHT` keep the union of what is on a side.

A sequence of placements is a list of sides and offsets. What becomes of it is said once, in
`placeAll_spec`: each side holds its offsets in the order of the placements, and its range is the
union of their keys. A method is then described by its placements alone.

## Main definitions

* `GistEntryVector`, `SplitSide`, `GistSplitvec` — the entries and the two sides
* `placeAll` — a sequence of `PLACE_LEFT` and `PLACE_RIGHT`
* `rangeGistFallbackSplit`, `rangeGistClassSplit`, `rangeGistSingleSortingSplit`

## Main results

* `placeAll_spec` — the sides after a sequence of placements
* `sideOf_perm` — no placement is lost, and none is made twice
-/

set_option autoImplicit false

namespace PgRange.Gist

open Math

variable {α : Type} [Inhabited α]

/-! ### The entries -/

/-- `GistEntryVector`: the keys at the offsets from `FirstOffsetNumber`, which is one, on. Offsets
are 16-bit numbers, and a loop over them ends only if the last one is not the largest. -/
structure GistEntryVector (α : Type) where
  keys : List (RangeType α)
  small : keys.length < 65535

namespace GistEntryVector

variable (entryvec : GistEntryVector α)

/-- The last offset. -/
def maxoff : ℕ := entryvec.keys.length

/-- The offsets, as the loops run through them. -/
def offsets : List ℕ := List.range' 1 entryvec.maxoff

/-- The key at an offset. -/
def key (off : ℕ) : RangeType α := entryvec.keys.getD (off - 1) emptyRange

omit [Inhabited α] in
@[simp] theorem mem_offsets {off : ℕ} :
    off ∈ entryvec.offsets ↔ 1 ≤ off ∧ off ≤ entryvec.maxoff := by
  rw [offsets, List.mem_range'_1]
  omega

omit [Inhabited α] in
@[simp] theorem length_offsets : entryvec.offsets.length = entryvec.maxoff := by simp [offsets]

/-- A loop over the offsets runs through the keys. -/
@[simp] theorem map_key_offsets : entryvec.offsets.map entryvec.key = entryvec.keys := by
  apply List.ext_getElem
  · simp [maxoff]
  · intro i hi hi'
    simp [offsets, key, hi']

theorem key_mem {off : ℕ} (h : off ∈ entryvec.offsets) : entryvec.key off ∈ entryvec.keys := by
  rw [← entryvec.map_key_offsets]
  exact List.mem_map_of_mem h

end GistEntryVector

/-! ### Placing entries -/

/-- `SplitLR`. -/
inductive SplitLR
  | splitLeft
  | splitRight
  deriving DecidableEq, Repr

/-- `GIST_SPLITVEC`. -/
structure GistSplitvec (α : Type) where
  left : SplitSide (RangeType α)
  right : SplitSide (RangeType α)

/-- Nothing is placed yet. -/
def SplitSide.nothing : SplitSide (RangeType α) := ⟨[], none, rfl⟩

/-- Nothing is placed yet on either side. -/
def GistSplitvec.nothing : GistSplitvec α := ⟨.nothing, .nothing⟩

/-- The macros `PLACE_LEFT` and `PLACE_RIGHT`, for their side. -/
def SplitSide.place (typcache : TypeCacheEntry α) (side : SplitSide (RangeType α))
    (range : RangeType α) (off : ℕ) : Except Fault (SplitSide (RangeType α)) := do
  -- there is a range exactly if the number of offsets is positive
  let union ← match side.datum with
    | some previous => rangeSuperUnion typcache previous range
    | none => .ok range
  return ⟨side.offsets ++ [off], some union, by simp⟩

/-- Place an entry on the given side. -/
def GistSplitvec.place (typcache : TypeCacheEntry α) (entryvec : GistEntryVector α)
    (v : GistSplitvec α) : SplitLR × ℕ → Except Fault (GistSplitvec α)
  | (.splitLeft, off) => do
    let left ← v.left.place typcache (entryvec.key off) off
    return { v with left }
  | (.splitRight, off) => do
    let right ← v.right.place typcache (entryvec.key off) off
    return { v with right }

/-- Place entries one after the other. -/
def placeAll (typcache : TypeCacheEntry α) (entryvec : GistEntryVector α)
    (placements : List (SplitLR × ℕ)) (v : GistSplitvec α) : Except Fault (GistSplitvec α) :=
  placements.foldlM (GistSplitvec.place typcache entryvec) v

/-- In a sorted order: what stands before `splitIdx` to the left, the rest to the right. -/
def placeFirst (splitIdx : ℤ) (sorted : List ℕ) : List (SplitLR × ℕ) :=
  sorted.zipIdx.map fun item => (if item.2 < splitIdx then .splitLeft else .splitRight, item.1)

/-! ### The simple methods -/

/-- `range_gist_fallback_split`. -/
def rangeGistFallbackSplit (typcache : TypeCacheEntry α) (entryvec : GistEntryVector α) :
    Except Fault (GistSplitvec α) :=
  let splitIdx := (entryvec.maxoff - 1) / 2 + 1
  placeAll typcache entryvec
    (entryvec.offsets.map fun i => (if i < splitIdx then .splitLeft else .splitRight, i)) .nothing

/-- `CLS_NORMAL`. -/
def clsNormal : BitVec 4 := 0

/-- `CLS_LOWER_INF`. -/
def clsLowerInf : BitVec 4 := 1

/-- `CLS_UPPER_INF`. -/
def clsUpperInf : BitVec 4 := 2

/-- `CLS_CONTAIN_EMPTY`. -/
def clsContainEmpty : BitVec 4 := 4

/-- `CLS_EMPTY`. -/
def clsEmpty : BitVec 4 := 8

/-- `get_gist_range_class`. -/
def getGistRangeClass (range : RangeType α) : BitVec 4 :=
  if range.flags.empty then clsEmpty
  else
    (if range.flags.lbInf then clsLowerInf else 0) |||
      (if range.flags.ubInf then clsUpperInf else 0) |||
      (if range.flags.containEmpty then clsContainEmpty else 0)

/-- `range_gist_class_split`. -/
def rangeGistClassSplit (typcache : TypeCacheEntry α) (entryvec : GistEntryVector α)
    (classesGroups : BitVec 4 → SplitLR) : Except Fault (GistSplitvec α) :=
  placeAll typcache entryvec
    (entryvec.offsets.map fun i => (classesGroups (getGistRangeClass (entryvec.key i)), i)) .nothing

/-- `SingleBoundSortItem`. -/
structure SingleBoundSortItem (α : Type) where
  index : ℕ
  bound : RangeBound α

/-- `single_bound_cmp`. -/
def singleBoundCmp (cmp : α → α → Ordering) (i1 i2 : SingleBoundSortItem α) : Ordering :=
  rangeCmpBounds cmp i1.bound i2.bound

/-- `range_gist_single_sorting_split`, for any sorting function. -/
def rangeGistSingleSortingSplit (q : Qsort) (typcache : TypeCacheEntry α)
    (entryvec : GistEntryVector α) (useUpperBound : Bool) : Except Fault (GistSplitvec α) :=
  let sortItems := entryvec.offsets.map fun i =>
    let parts := rangeDeserialize (entryvec.key i)
    (⟨i, if useUpperBound then parts.upper else parts.lower⟩ : SingleBoundSortItem α)
  let sortItems := q.run (singleBoundCmp typcache.cmp) sortItems
  let splitIdx := entryvec.maxoff / 2
  placeAll typcache entryvec (placeFirst splitIdx (sortItems.map (·.index))) .nothing

/-! ### What placing does -/

/-- The offsets placed on one side, in their order. -/
def sideOf (lr : SplitLR) (placements : List (SplitLR × ℕ)) : List ℕ :=
  (placements.filter (·.1 = lr)).map (·.2)

theorem sideOf_append (lr : SplitLR) (l l' : List (SplitLR × ℕ)) :
    sideOf lr (l ++ l') = sideOf lr l ++ sideOf lr l' := by
  simp [sideOf]

theorem mem_sideOf {lr : SplitLR} {l : List (SplitLR × ℕ)} {off : ℕ} :
    off ∈ sideOf lr l ↔ (lr, off) ∈ l := by
  simp [sideOf]

/-- The two sides together hold what is placed. -/
theorem sideOf_perm (placements : List (SplitLR × ℕ)) :
    (sideOf .splitLeft placements ++ sideOf .splitRight placements).Perm
      (placements.map (·.2)) := by
  have hright : placements.filter (·.1 = .splitRight) =
      placements.filter fun p => !decide (p.1 = .splitLeft) := by
    apply List.filter_congr
    rintro ⟨lr, off⟩ -
    cases lr <;> rfl
  rw [sideOf, sideOf, hright, ← List.map_append]
  exact (List.filter_append_perm _ placements).map _

@[simp] theorem map_snd_placeFirst (splitIdx : ℤ) (sorted : List ℕ) :
    (placeFirst splitIdx sorted).map (·.2) = sorted := by
  simp [placeFirst, Function.comp_def]

/-- The sides of a sorted order are its two parts. -/
theorem sideOf_placeFirst (splitIdx : ℤ) (sorted : List ℕ) :
    sideOf .splitLeft (placeFirst splitIdx sorted) = sorted.take splitIdx.toNat ∧
      sideOf .splitRight (placeFirst splitIdx sorted) = sorted.drop splitIdx.toNat := by
  -- counted from any index on
  suffices h : ∀ start : ℕ,
      sideOf .splitLeft ((sorted.zipIdx start).map fun item =>
        (if (item.2 : ℤ) < splitIdx then SplitLR.splitLeft else .splitRight, item.1)) =
          sorted.take (splitIdx.toNat - start) ∧
      sideOf .splitRight ((sorted.zipIdx start).map fun item =>
        (if (item.2 : ℤ) < splitIdx then SplitLR.splitLeft else .splitRight, item.1)) =
          sorted.drop (splitIdx.toNat - start) from h 0
  induction sorted with
  | nil => simp [sideOf]
  | cons off rest ih =>
    intro start
    obtain ⟨hleft, hright⟩ := ih (start + 1)
    rw [List.zipIdx_cons, List.map_cons]
    by_cases hlt : (start : ℤ) < splitIdx
    · have hsub : splitIdx.toNat - start = splitIdx.toNat - (start + 1) + 1 := by omega
      rw [if_pos hlt, hsub, List.take_succ_cons, List.drop_succ_cons, ← hleft, ← hright]
      simp [sideOf]
    · have hsub : splitIdx.toNat - start = 0 := by omega
      have hsub' : splitIdx.toNat - (start + 1) = 0 := by omega
      rw [hsub', List.take_zero] at hleft
      rw [hsub', List.drop_zero] at hright
      rw [if_neg hlt, hsub, List.take_zero, List.drop_zero]
      simp_all [sideOf]

section Place

variable {typcache : TypeCacheEntry α} {entryvec : GistEntryVector α} {side : SplitSide (RangeType α)}
  {v : GistSplitvec α}

/-- The range of a side is the union of what is placed there. -/
def SplitSide.Unites (typcache : TypeCacheEntry α) (entryvec : GistEntryVector α)
    (side : SplitSide (RangeType α)) : Prop :=
  ∀ u, side.datum = some u →
    rangeGistUnion typcache (side.offsets.map entryvec.key) = .ok u ∧ IsKey typcache u

theorem SplitSide.unites_nothing : SplitSide.nothing.Unites typcache entryvec := by
  intro u hu
  simp [SplitSide.nothing] at hu

/-- The union of some keys and one more. -/
theorem rangeGistUnion_concat {l : List (RangeType α)} {u : RangeType α}
    (hu : rangeGistUnion typcache l = .ok u) (r : RangeType α) :
    rangeGistUnion typcache (l ++ [r]) = rangeSuperUnion typcache u r := by
  cases l with
  | nil => exact absurd hu.symm ok_ne_error
  | cons ent entries =>
    rw [rangeGistUnion] at hu
    rw [List.cons_append, rangeGistUnion, List.foldlM_append, hu]
    change List.foldlM (rangeSuperUnion typcache) u [r] = _
    simp only [List.foldlM_cons, List.foldlM_nil, bind_pure]

/-- One placement: the offset is added, and the range is again the union. -/
theorem SplitSide.Unites.place (h : typcache.Regular) (hside : side.Unites typcache entryvec)
    {off : ℕ} (hoff : IsKey typcache (entryvec.key off)) :
    ∃ side', side.place typcache (entryvec.key off) off = .ok side' ∧
      side'.offsets = side.offsets ++ [off] ∧ side'.Unites typcache entryvec := by
  have hdefined := side.defined
  cases hrange : side.datum with
  | none =>
    -- the first one on this side
    have hempty : side.offsets = [] := by simpa [hrange] using hdefined
    refine ⟨⟨side.offsets ++ [off], some (entryvec.key off), by simp⟩, ?_, rfl, ?_⟩
    · simp only [SplitSide.place, hrange]
      rfl
    · rintro u ⟨⟩
      rw [hempty]
      exact ⟨rfl, hoff⟩
  | some previous =>
    obtain ⟨hunion, hkey⟩ := hside previous hrange
    obtain ⟨u, hu, hukey, -⟩ := rangeSuperUnion_covered h hkey hoff
    refine ⟨⟨side.offsets ++ [off], some u, by simp⟩, ?_, rfl, ?_⟩
    · simp only [SplitSide.place, hrange, hu]
      rfl
    · rintro _ ⟨⟩
      rw [List.map_append]
      exact ⟨(rangeGistUnion_concat hunion _).trans hu, hukey⟩

/-- One placement on the given side. The other side is left as it is. -/
theorem GistSplitvec.place_spec (h : typcache.Regular) (hleft : v.left.Unites typcache entryvec)
    (hright : v.right.Unites typcache entryvec) (lr : SplitLR) {off : ℕ}
    (hoff : IsKey typcache (entryvec.key off)) :
    ∃ v', v.place typcache entryvec (lr, off) = .ok v' ∧
      v'.left.offsets = v.left.offsets ++ sideOf .splitLeft [(lr, off)] ∧
      v'.right.offsets = v.right.offsets ++ sideOf .splitRight [(lr, off)] ∧
      v'.left.Unites typcache entryvec ∧ v'.right.Unites typcache entryvec := by
  cases lr with
  | splitLeft =>
    obtain ⟨side, hplace, hside, hunites⟩ := hleft.place h hoff
    refine ⟨{ v with left := side }, ?_, hside, ?_, hunites, hright⟩
    · simp only [GistSplitvec.place, hplace]
      rfl
    · simp [sideOf]
  | splitRight =>
    obtain ⟨side, hplace, hside, hunites⟩ := hright.place h hoff
    refine ⟨{ v with right := side }, ?_, ?_, hside, hleft, hunites⟩
    · simp only [GistSplitvec.place, hplace]
      rfl
    · simp [sideOf]

/-- A sequence of placements, from any state of the two sides. -/
theorem placeAll_from (h : typcache.Regular) (hkeys : ∀ k ∈ entryvec.keys, IsKey typcache k)
    (placements : List (SplitLR × ℕ)) (hoffs : ∀ p ∈ placements, p.2 ∈ entryvec.offsets)
    (hleft : v.left.Unites typcache entryvec) (hright : v.right.Unites typcache entryvec) :
    ∃ v', placeAll typcache entryvec placements v = .ok v' ∧
      v'.left.offsets = v.left.offsets ++ sideOf .splitLeft placements ∧
      v'.right.offsets = v.right.offsets ++ sideOf .splitRight placements ∧
      v'.left.Unites typcache entryvec ∧ v'.right.Unites typcache entryvec := by
  induction placements generalizing v with
  | nil => exact ⟨v, rfl, by simp [sideOf], by simp [sideOf], hleft, hright⟩
  | cons p rest ih =>
    have hoff : IsKey typcache (entryvec.key p.2) :=
      hkeys _ (entryvec.key_mem (hoffs p List.mem_cons_self))
    obtain ⟨v₁, hstep, hl₁, hr₁, hul₁, hur₁⟩ := v.place_spec h hleft hright p.1 hoff
    obtain ⟨v', hrest, hl', hr', hunites⟩ :=
      ih (fun p' hp' => hoffs p' (List.mem_cons_of_mem p hp')) hul₁ hur₁
    refine ⟨v', ?_, ?_, ?_, hunites⟩
    · rw [placeAll, List.foldlM_cons, hstep]
      exact hrest
    · rw [hl', hl₁, List.append_assoc, ← sideOf_append, List.singleton_append]
    · rw [hr', hr₁, List.append_assoc, ← sideOf_append, List.singleton_append]

/-- The sides after a sequence of placements. -/
theorem placeAll_spec (h : typcache.Regular) (hkeys : ∀ k ∈ entryvec.keys, IsKey typcache k)
    (placements : List (SplitLR × ℕ)) (hoffs : ∀ p ∈ placements, p.2 ∈ entryvec.offsets) :
    ∃ v, placeAll typcache entryvec placements .nothing = .ok v ∧
      v.left.offsets = sideOf .splitLeft placements ∧
      v.right.offsets = sideOf .splitRight placements ∧
      v.left.Unites typcache entryvec ∧ v.right.Unites typcache entryvec :=
  placeAll_from (v := .nothing) h hkeys placements hoffs SplitSide.unites_nothing
    SplitSide.unites_nothing

/-- The range of a side that is not empty is the union of its entries and covers each of them. -/
theorem SplitSide.Unites.covers (h : typcache.Regular)
    (hkeys : ∀ k ∈ entryvec.keys, IsKey typcache k) (hside : side.Unites typcache entryvec)
    (hoffs : ∀ off ∈ side.offsets, off ∈ entryvec.offsets) (hne : side.offsets ≠ []) :
    ∃ u, side.datum = some u ∧
      rangeGistUnion typcache (side.offsets.map entryvec.key) = .ok u ∧
      ∀ off ∈ side.offsets, CoversKey typcache.cmp u (entryvec.key off) := by
  have htrans := h.transCmp
  have hsome : side.datum.isSome = true := by
    rw [side.defined]
    simpa using hne
  obtain ⟨u, hu⟩ := Option.isSome_iff_exists.mp hsome
  obtain ⟨hunion, -⟩ := hside u hu
  refine ⟨u, hu, hunion, fun off hoff => ?_⟩
  have hl : ∀ k ∈ side.offsets.map entryvec.key, IsKey typcache k := by
    intro k hk
    obtain ⟨off', hoff', rfl⟩ := List.mem_map.mp hk
    exact hkeys _ (entryvec.key_mem (hoffs off' hoff'))
  obtain ⟨u', hu', -, hlub⟩ := rangeGistUnion_isLUB h (by simpa using hne) hl
  obtain rfl := Except.ok.inj (hunion.symm.trans hu')
  exact hlub.1 (List.mem_map_of_mem hoff)

end Place

end PgRange.Gist
