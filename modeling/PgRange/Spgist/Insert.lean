import PgRange.Spgist.Quad

/-!
# Insertions into an SP-GiST range index

The parts of `spgdoinsert.c` that decide the shape of the index: `spgdoinsert` descends by
`spg_range_quad_choose` and adds the new range to the leaf chain it arrives at, or
`doPickSplit` replaces the chain by an inner tuple. How much fits on a page, and which node
of an `allTheSame` tuple is taken, is left open. A split may have to leave the new range
out; the insertion then goes on from the new inner tuple, or, after an interrupt, from the
root. So the states of an index are those after any number of such steps.

The invariant is `Grown`. It carries down the region of the ranges that are routed to a
subtree. Below level 0 a region holds only empty or only non-empty ranges, which is why a
centroid tuple there needs no node for empty ranges.

## Main definitions

* `Inserts`, `Reachable` — the steps and the states of an index
* `Grown` — the invariant of a subtree at a level, for a region

## Main results

* `Reachable.grown` — every state of an index has the invariant
* `node_exists_of_reachable` — the node that is chosen exists
-/

set_option autoImplicit false

namespace PgRange.Spgist

open Math

variable {α : Type} [Inhabited α]

/-! ### The core -/

/-- What `checkAllTheSame` decides: the number of nodes and the node of each tuple, as
the picksplit function said or overridden, and whether the new tuple can be included. -/
structure CheckedSplit where
  allTheSame : Bool
  includeNew : Bool
  nNodes : ℕ
  mapTuplesToNodes : List ℕ
  deriving DecidableEq, Repr

/-- `checkAllTheSame`. If the tuples do not fit on one page, the new one, which is the
last, is ignored in the test. -/
def checkAllTheSame (nNodes : ℕ) (mapTuplesToNodes : List ℕ) (tooBig : Bool) : CheckedSplit :=
  let nTuples := mapTuplesToNodes.length
  let limit := if tooBig then nTuples - 1 else nTuples
  let theNode := mapTuplesToNodes.getD 0 0
  if nTuples ≤ 1 then ⟨false, true, nNodes, mapTuplesToNodes⟩
  else if (mapTuplesToNodes.take limit).any (· != theNode) then
    ⟨false, true, nNodes, mapTuplesToNodes⟩
  else
    ⟨true, !(tooBig && mapTuplesToNodes.getD (nTuples - 1) 0 != theNode), 8,
      (List.range nTuples).map (· % 8)⟩

/-- The tuples that go to a node. -/
def distribute (tuples : List (RangeType α)) (nodes : List ℕ) (n : ℕ) : List (RangeType α) :=
  ((tuples.zip nodes).filter fun p => p.2 == n).map Prod.fst

/-- `doPickSplit`: the inner tuple that replaces a leaf chain when the new range `x`
arrives. Any distribution of the tuples to the nodes of an `allTheSame` tuple is allowed;
the code takes that of `checkAllTheSame`. A node that does not exist raises an error. -/
inductive DoPickSplit (cmp : α → α → Ordering) (level : ℕ) (chain : List (RangeType α))
    (x : RangeType α) : Tree α → Prop
  | split {out : SpgPickSplitOut α} {checked : CheckedSplit} {tooBig insertedNew : Bool}
      {nodes : List ℕ} :
      spgRangeQuadPicksplit cmp level (chain ++ [x]) = .ok out →
      checkAllTheSame out.nNodes out.mapTuplesToNodes tooBig = checked →
      (checked.allTheSame = false → nodes = checked.mapTuplesToNodes) →
      (insertedNew = true → checked.includeNew = true) →
      (∀ n ∈ nodes, n < checked.nNodes) →
      DoPickSplit cmp level chain x
        (.inner ⟨checked.allTheSame, out.prefixDatum⟩ checked.nNodes fun n =>
          .leaf (distribute (if insertedNew then out.leafTupleDatums
            else out.leafTupleDatums.dropLast) nodes n))

/-- The node of an inner tuple that an insertion descends to. -/
def Descends (cmp : α → α → Ordering) (x : RangeType α) (tuple : InnerTuple α) (nNodes : ℕ)
    (n : ℕ) : Prop :=
  n < nNodes ∧ ∀ nodeN, (spgRangeQuadChoose cmp x tuple).nodeN = some nodeN → n = nodeN

/-- One step of `spgdoinsert` with the range `x` in a subtree at a level. -/
inductive Inserts (cmp : α → α → Ordering) : RangeType α → ℕ → Tree α → Tree α → Prop
  | addLeafTuple {x : RangeType α} {level : ℕ} {chain chain' : List (RangeType α)} :
      chain'.Perm (x :: chain) → Inserts cmp x level (.leaf chain) (.leaf chain')
  | doPickSplit {x : RangeType α} {level : ℕ} {chain : List (RangeType α)} {t : Tree α} :
      DoPickSplit cmp level chain x t → Inserts cmp x level (.leaf chain) t
  | matchNode {x : RangeType α} {level : ℕ} {tuple : InnerTuple α} {nNodes n : ℕ}
      {child : ℕ → Tree α} {t : Tree α} :
      Descends cmp x tuple nNodes n →
      Inserts cmp (spgRangeQuadChoose cmp x tuple).restDatum
        (level + (spgRangeQuadChoose cmp x tuple).levelAdd) (child n) t →
      Inserts cmp x level (.inner tuple nNodes child)
        (.inner tuple nNodes (Function.update child n t))

/-- The states of an index into which ranges with a property have been inserted. -/
inductive Reachable (cmp : α → α → Ordering) (P : RangeType α → Prop) : Tree α → Prop
  | empty : Reachable cmp P (.leaf [])
  | insert {x : RangeType α} {t t' : Tree α} :
      Reachable cmp P t → P x → Inserts cmp x 0 t t' → Reachable cmp P t'

/-- An insertion of `x` that is at a subtree at a level can arrive at another subtree
below it. -/
inductive Arrives (cmp : α → α → Ordering) :
    RangeType α → ℕ → Tree α → ℕ → Tree α → Prop
  | here {x : RangeType α} {level : ℕ} {t : Tree α} : Arrives cmp x level t level t
  | matchNode {x : RangeType α} {level level' : ℕ} {tuple : InnerTuple α} {nNodes n : ℕ}
      {child : ℕ → Tree α} {t : Tree α} :
      Descends cmp x tuple nNodes n →
      Arrives cmp (spgRangeQuadChoose cmp x tuple).restDatum
        (level + (spgRangeQuadChoose cmp x tuple).levelAdd) (child n) level' t →
      Arrives cmp x level (.inner tuple nNodes child) level' t

/-! ### The invariant -/

/-- Below level 0 a region has only empty or only non-empty ranges. -/
def Homogeneous (level : ℕ) (region : RangeType α → Prop) : Prop :=
  level = 0 ∨ ∃ e, ∀ r, region r → r.flags.empty = e

/-- The invariant of a subtree at a level, to which the ranges of a region are routed.
What is known of its centroids is the parameter `Centroid`. -/
inductive Grown (cmp : α → α → Ordering)
    (Centroid : (RangeType α → Prop) → RangeType α → Prop) :
    ℕ → (RangeType α → Prop) → Tree α → Prop
  | leaf {level : ℕ} {region : RangeType α → Prop} {chain : List (RangeType α)} :
      (∀ r ∈ chain, region r) → Grown cmp Centroid level region (.leaf chain)
  | allTheSame {level : ℕ} {region : RangeType α → Prop}
      {prefixDatum : Option (RangeType α)} {nNodes : ℕ} {child : ℕ → Tree α} :
      (∀ n < nNodes, Grown cmp Centroid level region (child n)) →
      Grown cmp Centroid level region (.inner ⟨true, prefixDatum⟩ nNodes child)
  | noCentroid {level : ℕ} {region : RangeType α → Prop} {child : ℕ → Tree α} :
      Grown cmp Centroid (level + 1) (fun r => region r ∧ r.flags.empty = true) (child 0) →
      Grown cmp Centroid (level + 1) (fun r => region r ∧ r.flags.empty = false) (child 1) →
      Grown cmp Centroid level region (.inner ⟨false, none⟩ 2 child)
  | centroid {level : ℕ} {region : RangeType α → Prop} {c : RangeType α} {child : ℕ → Tree α} :
      Centroid region c → (level ≠ 0 → ∀ r, region r → r.flags.empty = false) →
      (∀ n < if level = 0 then 5 else 4,
        Grown cmp Centroid (level + 1) (fun r => region r ∧ getQuadrant cmp c r = n + 1)
          (child n)) →
      Grown cmp Centroid level region
        (.inner ⟨false, some c⟩ (if level = 0 then 5 else 4) child)

section Regions

variable {cmp : α → α → Ordering} {level : ℕ} {region : RangeType α → Prop}

omit [Inhabited α] in
theorem homogeneous_empty (region : RangeType α → Prop) (e : Bool) :
    Homogeneous (level + 1) fun r => region r ∧ r.flags.empty = e :=
  Or.inr ⟨e, fun _ h => h.2⟩

/-- The ranges of one quadrant are all empty or all non-empty. -/
theorem homogeneous_quadrant (region : RangeType α → Prop) (c : RangeType α) (n : ℕ) :
    Homogeneous (level + 1) fun r => region r ∧ getQuadrant cmp c r = n + 1 := by
  by_cases hn : n + 1 ≤ 4
  · exact Or.inr ⟨false, fun r h => getQuadrant_le_four_iff.mp (h.2 ▸ hn)⟩
  · refine Or.inr ⟨true, fun r h => ?_⟩
    by_contra hne
    have hle : getQuadrant cmp c r ≤ 4 :=
      getQuadrant_le_four_iff.mpr (Bool.eq_false_iff.mpr hne)
    rw [h.2] at hle
    exact hn hle

omit [Inhabited α] in
/-- A region with a non-empty range has only such ranges below level 0. -/
theorem Homogeneous.nonempty (h : Homogeneous level region) (hlevel : level ≠ 0)
    {r : RangeType α} (hr : region r) (he : r.flags.empty = false) :
    ∀ r', region r' → r'.flags.empty = false := by
  rcases h with h | ⟨e, h⟩
  · exact absurd h hlevel
  · intro r' hr'
    rw [h r' hr', ← h r hr, he]

end Regions

/-! ### Every step keeps the invariant -/

section Distribute

omit [Inhabited α]

variable {tuples datums : List (RangeType α)} {r : RangeType α} {n : ℕ}

theorem mem_of_mem_distribute {nodes : List ℕ} (h : r ∈ distribute tuples nodes n) :
    r ∈ tuples := by
  obtain ⟨p, hp, rfl⟩ := List.mem_map.mp h
  exact (List.of_mem_zip (List.mem_filter.mp hp).1).1

/-- Where nodes are assigned by a function of the tuples, the tuples of a node are those
that the function sends there. -/
theorem eq_of_mem_distribute {f : RangeType α → ℕ} (hstart : tuples <+: datums)
    (h : r ∈ distribute tuples (datums.map f) n) : f r = n := by
  obtain ⟨rest, rfl⟩ := hstart
  obtain ⟨⟨a, b⟩, hp, rfl⟩ := List.mem_map.mp h
  obtain ⟨hzip, hb⟩ := List.mem_filter.mp hp
  have hab : f a = b := by
    clear h hp hb
    induction tuples with
    | nil => simp at hzip
    | cons t tuples ih =>
      rcases List.mem_cons.mp hzip with heq | hmem
      · obtain ⟨rfl, rfl⟩ := Prod.mk.inj heq
        rfl
      · exact ih hmem
  rw [hab]
  exact beq_iff_eq.mp hb

end Distribute

/-- Unless `checkAllTheSame` overrides them, the decisions of the picksplit function
stand. -/
theorem checkAllTheSame_of_false {nNodes : ℕ} {map : List ℕ} {tooBig : Bool}
    (h : (checkAllTheSame nNodes map tooBig).allTheSame = false) :
    (checkAllTheSame nNodes map tooBig).nNodes = nNodes ∧
      (checkAllTheSame nNodes map tooBig).mapTuplesToNodes = map := by
  unfold checkAllTheSame at h ⊢
  dsimp only at h ⊢
  generalize (if tooBig then map.length - 1 else map.length) = limit at h ⊢
  split_ifs at h ⊢ with hone hdiffer
  · exact ⟨rfl, rfl⟩
  · exact ⟨rfl, rfl⟩

section Step

variable {cmp : α → α → Ordering} {Centroid : (RangeType α → Prop) → RangeType α → Prop}

/-- What is said of centroids holds of the centroid of every split. -/
def CentroidOfSplit (cmp : α → α → Ordering)
    (Centroid : (RangeType α → Prop) → RangeType α → Prop) : Prop :=
  ∀ (region : RangeType α → Prop) (level : ℕ) (datums : List (RangeType α))
    (out : SpgPickSplitOut α) (c : RangeType α), (∀ r ∈ datums, region r) →
    spgRangeQuadPicksplit cmp level datums = .ok out → out.prefixDatum = some c →
    Centroid region c

/-- A split leaves a subtree with the invariant, whether or not the new range is
included. -/
theorem DoPickSplit.grown (hC : CentroidOfSplit cmp Centroid) {level : ℕ}
    {region : RangeType α → Prop} (hhom : Homogeneous level region)
    {chain : List (RangeType α)} {x : RangeType α} (hdatums : ∀ r ∈ chain ++ [x], region r)
    {t : Tree α} (h : DoPickSplit cmp level chain x t) :
    Grown cmp Centroid level region t := by
  cases h with
  | @split out checked tooBig insertedNew nodes hout hchecked hnodes _ hlt =>
    obtain ⟨hleafs, hcases⟩ := picksplit_cases hout
    have hincluded : (if insertedNew then out.leafTupleDatums
        else out.leafTupleDatums.dropLast) <+: chain ++ [x] := by
      rw [hleafs]
      split_ifs
      · exact List.prefix_refl _
      · exact List.dropLast_prefix _
    generalize (if insertedNew then out.leafTupleDatums
      else out.leafTupleDatums.dropLast) = included at hincluded ⊢
    have hregion : ∀ n, ∀ r ∈ distribute included nodes n, region r := fun n r hr =>
      hdatums r (hincluded.subset (mem_of_mem_distribute hr))
    obtain ⟨same, includeNew, nNodes, map⟩ := checked
    cases same with
    | true =>
      -- any distribution keeps the tuples in the region
      exact .allTheSame fun n _ => .leaf (hregion n)
    | false =>
      have hkeep := checkAllTheSame_of_false (by rw [hchecked])
      rw [hchecked] at hkeep
      obtain ⟨rfl, rfl⟩ : nNodes = out.nNodes ∧ map = out.mapTuplesToNodes := hkeep
      obtain rfl : nodes = out.mapTuplesToNodes := hnodes rfl
      rcases hcases with ⟨hpre, hn, hmap, hempty⟩ | ⟨c, hpre, hn, hmap, ⟨r0, hr0, he0⟩, -⟩
      · -- all ranges are empty and go to node 0
        rw [hpre, hn]
        rw [hmap] at hregion ⊢
        refine .noCentroid (.leaf fun r hr => ⟨hregion 0 r hr, ?_⟩) (.leaf fun r hr => ?_)
        · exact hempty r (hincluded.subset (mem_of_mem_distribute hr))
        · exact absurd (eq_of_mem_distribute hincluded hr) (by decide)
      · rw [hpre, hn]
        rw [hmap] at hregion ⊢
        refine .centroid (hC region level _ out c hdatums hout hpre) ?_ ?_
        · intro hlevel
          exact hhom.nonempty hlevel (hdatums r0 hr0) he0
        · intro n _
          refine .leaf fun r hr => ⟨hregion n r hr, ?_⟩
          have hquad := eq_of_mem_distribute hincluded hr
          have hpos := getQuadrant_pos cmp c r
          omega

@[simp] theorem restDatum_choose (cmp : α → α → Ordering) (x : RangeType α)
    (tuple : InnerTuple α) : (spgRangeQuadChoose cmp x tuple).restDatum = x := by
  unfold spgRangeQuadChoose
  split
  · rfl
  · split
    · rfl
    · rfl

omit [Inhabited α] in
/-- Exchanging one child keeps a property of all children. -/
theorem forall_lt_update {P : ℕ → Tree α → Prop} {child : ℕ → Tree α} {nNodes n : ℕ}
    {t : Tree α} (hchild : ∀ k < nNodes, P k (child k)) (ht : P n t) :
    ∀ k < nNodes, P k (Function.update child n t k) := by
  intro k hk
  rcases eq_or_ne k n with rfl | hne
  · rwa [Function.update_self]
  · rw [Function.update_of_ne hne]
    exact hchild k hk

/-- Descending from an inner tuple leads to a subtree with the invariant for a region that
holds the range, and any other such subtree may take its place. -/
theorem Grown.descend {level : ℕ} {region : RangeType α → Prop} {x : RangeType α}
    {tuple : InnerTuple α} {nNodes n : ℕ} {child : ℕ → Tree α}
    (hhom : Homogeneous level region) (hx : region x)
    (ht : Grown cmp Centroid level region (.inner tuple nNodes child))
    (hn : Descends cmp x tuple nNodes n) :
    ∃ region', region' x ∧
      Homogeneous (level + (spgRangeQuadChoose cmp x tuple).levelAdd) region' ∧
      Grown cmp Centroid (level + (spgRangeQuadChoose cmp x tuple).levelAdd) region' (child n) ∧
      ∀ t, Grown cmp Centroid (level + (spgRangeQuadChoose cmp x tuple).levelAdd) region' t →
        Grown cmp Centroid level region
          (.inner tuple nNodes (Function.update child n t)) := by
  obtain ⟨hlt, hnode⟩ := hn
  cases ht with
  | allTheSame hchild =>
    -- the level stays, and so does the region
    refine ⟨region, hx, hhom, hchild n hlt, fun t ht => .allTheSame ?_⟩
    exact forall_lt_update (P := fun _ => Grown cmp Centroid level region) hchild ht
  | noCentroid hempty hfull =>
    cases he : x.flags.empty with
    | true =>
      obtain rfl : n = 0 := hnode 0 (by simp [spgRangeQuadChoose, rangeIsEmpty, he])
      refine ⟨_, ⟨hx, he⟩, homogeneous_empty region true, hempty, fun t ht => ?_⟩
      refine .noCentroid ?_ ?_
      · rwa [Function.update_self]
      · rwa [Function.update_of_ne (by decide)]
    | false =>
      obtain rfl : n = 1 := hnode 1 (by simp [spgRangeQuadChoose, rangeIsEmpty, he])
      refine ⟨_, ⟨hx, he⟩, homogeneous_empty region false, hfull, fun t ht => ?_⟩
      refine .noCentroid ?_ ?_
      · rwa [Function.update_of_ne (by decide)]
      · rwa [Function.update_self]
  | @centroid _ _ c _ hcent hfull hchild =>
    have hpos := getQuadrant_pos cmp c x
    -- the node is the quadrant of the range, counted from zero
    have hquad : getQuadrant cmp c x = n + 1 := by
      have hnode' := hnode (getQuadrant cmp c x - 1) (by simp [spgRangeQuadChoose])
      omega
    refine ⟨_, ⟨hx, hquad⟩, homogeneous_quadrant region c n, hchild n hlt, fun t ht => ?_⟩
    exact .centroid hcent hfull (forall_lt_update hchild ht)

omit [Inhabited α] in
theorem mem_region_append {region : RangeType α → Prop} {chain : List (RangeType α)}
    {x : RangeType α} (hchain : ∀ r ∈ chain, region r) (hx : region x) :
    ∀ r ∈ chain ++ [x], region r := by
  intro r hr
  rcases List.mem_append.mp hr with hr | hr
  · exact hchain r hr
  · rwa [List.mem_singleton.mp hr]

/-- A step keeps the invariant. -/
theorem Grown.inserts (hC : CentroidOfSplit cmp Centroid) {x : RangeType α} {level : ℕ}
    {t t' : Tree α} (h : Inserts cmp x level t t') {region : RangeType α → Prop}
    (hhom : Homogeneous level region) (hx : region x) (ht : Grown cmp Centroid level region t) :
    Grown cmp Centroid level region t' := by
  induction h generalizing region with
  | addLeafTuple hperm =>
    cases ht with
    | leaf hchain =>
      refine .leaf fun r hr => ?_
      rcases List.mem_cons.mp (hperm.mem_iff.mp hr) with rfl | hr
      · exact hx
      · exact hchain r hr
  | doPickSplit hsplit =>
    cases ht with
    | leaf hchain => exact hsplit.grown hC hhom (mem_region_append hchain hx)
  | matchNode hn _ ih =>
    obtain ⟨region', hx', hhom', hchild, hback⟩ := ht.descend hhom hx hn
    exact hback _ (ih hhom' (by rwa [restDatum_choose]) hchild)

/-- Every state of an index has the invariant, for the region of all ranges that may be
inserted. -/
theorem Reachable.grown (hC : CentroidOfSplit cmp Centroid) {P : RangeType α → Prop}
    {t : Tree α} (h : Reachable cmp P t) : Grown cmp Centroid 0 P t := by
  induction h with
  | empty => exact .leaf fun r hr => absurd hr List.not_mem_nil
  | insert _ hx hstep ih => exact ih.inserts hC hstep (Or.inl rfl) hx

/-- Wherever an insertion arrives, the subtree there has the invariant for a region that
holds the range. -/
theorem Grown.arrives {x : RangeType α} {level level' : ℕ} {t s : Tree α}
    (h : Arrives cmp x level t level' s) {region : RangeType α → Prop}
    (hhom : Homogeneous level region) (hx : region x) (ht : Grown cmp Centroid level region t) :
    ∃ region', region' x ∧ Homogeneous level' region' ∧ Grown cmp Centroid level' region' s := by
  induction h generalizing region with
  | here => exact ⟨region, hx, hhom, ht⟩
  | matchNode hn _ ih =>
    obtain ⟨region', hx', hhom', hchild, -⟩ := ht.descend hhom hx hn
    obtain ⟨region'', hx'', hrest⟩ := ih hhom' (by rwa [restDatum_choose]) hchild
    exact ⟨region'', by rwa [restDatum_choose] at hx'', hrest⟩

end Step

/-! ### The chosen node exists -/

section Nodes

variable {cmp : α → α → Ordering}

/-- At a tuple that is not `allTheSame`, the node that is chosen is one of its nodes. -/
theorem Grown.chosen_lt {Centroid : (RangeType α → Prop) → RangeType α → Prop} {level : ℕ}
    {region : RangeType α → Prop} {x : RangeType α} (hx : region x) {tuple : InnerTuple α}
    {nNodes : ℕ} {child : ℕ → Tree α}
    (ht : Grown cmp Centroid level region (.inner tuple nNodes child))
    (hsame : tuple.allTheSame = false) :
    (∃ nodeN, (spgRangeQuadChoose cmp x tuple).nodeN = some nodeN ∧ nodeN < nNodes) ∧
      ∀ c, tuple.prefixDatum = some c → getQuadrant cmp c x ≤ nNodes := by
  cases ht with
  | allTheSame _ => exact absurd hsame Bool.noConfusion
  | noCentroid _ _ =>
    refine ⟨⟨_, rfl, ?_⟩, nofun⟩
    split_ifs <;> decide
  | @centroid _ _ c _ _ hfull _ =>
    have hpos := getQuadrant_pos cmp c x
    -- below level 0 a centroid tuple has non-empty ranges only
    have hle : getQuadrant cmp c x ≤ if level = 0 then 5 else 4 := by
      split_ifs with hlevel
      · exact getQuadrant_le_five cmp c x
      · exact getQuadrant_le_four_iff.mpr (hfull hlevel x hx)
    refine ⟨⟨_, rfl, by omega⟩, fun c' hc' => ?_⟩
    obtain rfl := Option.some.inj hc'
    exact hle

/-- A split of ranges of a region sends every tuple to one of its nodes. -/
theorem picksplit_lt {level : ℕ} {region : RangeType α → Prop}
    (hhom : Homogeneous level region) {datums : List (RangeType α)}
    (hdatums : ∀ r ∈ datums, region r) {out : SpgPickSplitOut α}
    (hout : spgRangeQuadPicksplit cmp level datums = .ok out) :
    ∀ n ∈ out.mapTuplesToNodes, n < out.nNodes := by
  intro n hn
  obtain ⟨-, ⟨-, hnodes, hmap, -⟩ | ⟨c, -, hnodes, hmap, ⟨r0, hr0, he0⟩, -⟩⟩ :=
    picksplit_cases hout
  · rw [hmap] at hn
    obtain ⟨-, -, rfl⟩ := List.mem_map.mp hn
    rw [hnodes]
    decide
  · -- the centroid comes from a non-empty range, so below level 0 all are non-empty
    rw [hmap] at hn
    obtain ⟨r, hr, rfl⟩ := List.mem_map.mp hn
    have hpos := getQuadrant_pos cmp c r
    rw [hnodes]
    split_ifs with hlevel
    · have hle := getQuadrant_le_five cmp c r
      omega
    · have hle : getQuadrant cmp c r ≤ 4 := getQuadrant_le_four_iff.mpr
        (hhom.nonempty hlevel (hdatums r0 hr0) he0 r (hdatums r hr))
      omega

/-- In every state of an index, wherever an insertion of a range arrives: an inner tuple
that is not `allTheSame` has the node that is chosen, and with a centroid never has four
nodes if the range is empty; and a split of the leaf chain there assigns only existing
nodes. -/
theorem node_exists_of_reachable {t s : Tree α} (ht : Reachable cmp (fun _ => True) t)
    {x : RangeType α} {level : ℕ} (hs : Arrives cmp x 0 t level s) :
    (∀ tuple nNodes child, s = .inner tuple nNodes child → tuple.allTheSame = false →
      (∃ nodeN, (spgRangeQuadChoose cmp x tuple).nodeN = some nodeN ∧ nodeN < nNodes) ∧
      ∀ c, tuple.prefixDatum = some c → getQuadrant cmp c x ≤ nNodes ∧
        (x.flags.empty = true → nNodes ≠ 4)) ∧
    ∀ chain out, s = .leaf chain →
      spgRangeQuadPicksplit cmp level (chain ++ [x]) = .ok out →
      ∀ n ∈ out.mapTuplesToNodes, n < out.nNodes := by
  -- nothing has to be known of the centroids, nor of the ranges
  have hgrown : Grown cmp (fun _ _ => True) 0 (fun _ => True) t :=
    ht.grown fun _ _ _ _ _ _ _ _ => trivial
  obtain ⟨region, hx, hhom, hs⟩ := hgrown.arrives hs (Or.inl rfl) trivial
  refine ⟨?_, ?_⟩
  · rintro tuple nNodes child rfl hsame
    obtain ⟨hnode, hquad⟩ := hs.chosen_lt hx hsame
    refine ⟨hnode, fun c hc => ⟨hquad c hc, fun he => ?_⟩⟩
    have hfive := hquad c hc
    rw [getQuadrant_of_empty he] at hfive
    omega
  · rintro chain out rfl hout
    cases hs with
    | leaf hchain => exact picksplit_lt hhom (mem_region_append hchain hx) hout

end Nodes

/-- The index after `[0,10)` and the empty range: the split at level 0 makes a fifth
node. -/
def emptyBesideTen : Tree ℤ :=
  .inner ⟨false, some (packRange ⟨0, false, true, true⟩ ⟨10, false, false, false⟩)⟩ 5 fun n =>
    .leaf (distribute [packRange ⟨0, false, true, true⟩ ⟨10, false, false, false⟩, emptyRange]
      [0, 4] n)

theorem emptyBesideTen_reachable : Reachable btintcmp (fun _ => True) emptyBesideTen := by
  refine .insert (x := emptyRange)
    (.insert (x := packRange ⟨0, false, true, true⟩ ⟨10, false, false, false⟩) .empty trivial
      (.addLeafTuple (List.Perm.refl _))) trivial (.doPickSplit ?_)
  exact @DoPickSplit.split ℤ _ btintcmp 0 _ emptyRange ⟨_, 5, [0, 4], _⟩
    ⟨false, true, 5, [0, 4]⟩ false true [0, 4] rfl rfl (fun _ => rfl) (fun _ => rfl) (by decide)

/-- The empty range is routed to the fifth node of the root. -/
theorem node_exists_of_reachable_empty :
    Reachable btintcmp (fun _ => True) emptyBesideTen ∧
      ∃ nodeN, (spgRangeQuadChoose btintcmp emptyRange
        ⟨false, some (packRange ⟨0, false, true, true⟩ ⟨10, false, false, false⟩)⟩).nodeN =
          some nodeN ∧ nodeN < 5 :=
  ⟨emptyBesideTen_reachable,
    ((node_exists_of_reachable emptyBesideTen_reachable (x := emptyRange) .here).1 _ _ _
      rfl rfl).1⟩

end PgRange.Spgist
