import Mathlib.Data.Nat.Bitwise
import PgRange.Spgist.Consistent

/-!
# Searches of an SP-GiST range index

A scan asks `spg_range_quad_inner_consistent` at every inner tuple which nodes to visit, and
hands the traversal values on to the items of these nodes. Over several scan keys the
function takes the quadrants away in a loop, which keeps the quadrant of every common
answer. By the invariant of the index no answer is then lost on the way down, and a scan
returns exactly the ranges that `spg_range_quad_leaf_consistent` accepts.

## Main definitions

* `spgScan` — the scan, with the traversal values handed from parent to child
* `ScanInv` — what is known of a subtree and of the traversal value passed to it

## Main results

* `centroidLoop_spec`, `emptinessLoop_keeps` — the loops keep the nodes of the answers
* `spgScan_eq_filter` — a scan returns exactly the answers
-/

set_option autoImplicit false

namespace PgRange.Spgist

open Math
open PgRange.Gist (Strategy rangeGistConsistentLeaf)

variable {α : Type} [Inhabited α]

/-! ### The core -/

/-- `spgInnerTest`: the nodes to visit, each with the traversal value of its search
item. -/
def spgInnerTest (typcache : TypeCacheEntry α) (keys : List (ScanKey α)) (tuple : InnerTuple α)
    (nNodes : ℕ) (traversalValue : Option (RangeType α)) :
    Except Fault (List (ℕ × Option (RangeType α))) := do
  let out ← spgRangeQuadInnerConsistent typcache keys tuple nNodes traversalValue
  match out.traversalValues with
  | none => return out.nodeNumbers.map fun n => (n, none)
  | some values => return out.nodeNumbers.zip (values.map some)

/-- The scan of an index: `spgWalk` from the root, which has no traversal value. The order
in which the queue returns its items is not modelled; the answers are listed as they stand
in the index. -/
def spgScan (typcache : TypeCacheEntry α) (keys : List (ScanKey α)) (t : Tree α) :
    Except Fault (List (RangeType α)) :=
  t.search (spgInnerTest typcache keys) (spgRangeQuadLeafConsistent typcache keys) none

/-! ### The loops over the scan keys -/

section Loops

variable {typcache : TypeCacheEntry α} {region : RangeType α → Prop} {c x : RangeType α}
  {prev : Option (RangeType α)}

/-- The leaf test accepts the common answers of all scan keys. -/
theorem spgRangeQuadLeafConsistent_iff {keys : List (ScanKey α)} :
    spgRangeQuadLeafConsistent typcache keys x = .ok true ↔
      ∀ key ∈ keys, rangeGistConsistentLeaf typcache key.strategy x key.argument = .ok true := by
  induction keys with
  | nil => simp [spgRangeQuadLeafConsistent]
  | cons key keys ih =>
    rw [spgRangeQuadLeafConsistent, bind_eq_ok_iff, List.forall_mem_cons, ← ih]
    constructor
    · rintro ⟨res, hres, hrest⟩
      cases res with
      | true => exact ⟨hres, hrest⟩
      | false => exact absurd (Except.ok.inj hrest) Bool.false_ne_true
    · rintro ⟨hres, hrest⟩
      exact ⟨true, hres, hrest⟩

theorem spgRangeQuadLeafConsistent_total (hidx : typcache.Indexable) {keys : List (ScanKey α)}
    (hkeys : ∀ key ∈ keys, key.strategy.IsQuery typcache key.argument)
    (hx : typcache.IsValue x) :
    ∃ b, spgRangeQuadLeafConsistent typcache keys x = .ok b := by
  induction keys with
  | nil => exact ⟨true, rfl⟩
  | cons key keys ih =>
    obtain ⟨res, hres⟩ := Gist.rangeGistConsistent_total hidx key.strategy true key.argument
      (hkeys key List.mem_cons_self) hx
    obtain ⟨b, hb⟩ := ih fun k hk => hkeys k (List.mem_cons_of_mem key hk)
    cases res with
    | true => exact ⟨b, bind_eq_ok_iff.mpr ⟨true, hres, hb⟩⟩
    | false => exact ⟨false, bind_eq_ok_iff.mpr ⟨false, hres, rfl⟩⟩

/-- The loop at a tuple with a centroid raises no error and keeps the quadrant of every
common answer of the scan keys. -/
theorem centroidLoop_spec (hidx : typcache.Indexable) (hc : IsCentroid typcache region c)
    (hvalue : ∀ r, region r → typcache.IsValue r)
    (hprev : ∀ p, prev = some p → IsPrevious typcache region p) {keys : List (ScanKey α)}
    (hkeys : ∀ key ∈ keys, key.strategy.IsQuery typcache key.argument)
    (which : ℕ) (needPrevious : Bool) :
    ∃ which' needPrevious',
      centroidLoop typcache c prev keys which needPrevious = .ok (which', needPrevious') ∧
      ∀ x, region x →
        (∀ key ∈ keys, rangeGistConsistentLeaf typcache key.strategy x key.argument = .ok true) →
        which.testBit (getQuadrant typcache.cmp c x) = true →
        which'.testBit (getQuadrant typcache.cmp c x) = true := by
  have htrans := hidx.transCmp
  induction keys generalizing which needPrevious with
  | nil => exact ⟨which, needPrevious, rfl, fun _ _ _ hbit => hbit⟩
  | cons key keys ih =>
    have hkey := hkeys key List.mem_cons_self
    obtain ⟨r, hr⟩ := restrict_total hidx hc hprev { which, needPrevious } key.strategy
      key.argument hkey
    -- one key keeps the quadrants of its answers
    have hstep : ∀ x, region x →
        rangeGistConsistentLeaf typcache key.strategy x key.argument = .ok true →
        which.testBit (getQuadrant typcache.cmp c x) = true →
        (applyRestriction typcache.cmp c (argumentIsEmpty key.strategy key.argument) r).testBit
          (getQuadrant typcache.cmp c x) = true := fun x hx hleaf hbit =>
      (restrict_admits hidx hc hprev key.strategy key.argument hkey hr hx (hvalue x hx) hleaf
        hbit).testBit_applyRestriction
    generalize hnext : applyRestriction typcache.cmp c
      (argumentIsEmpty key.strategy key.argument) r = next at hstep
    by_cases hzero : next = 0
    · -- the loop stops, since no quadrant is left
      refine ⟨0, r.needPrevious, ?_, fun x hx hleaf hbit => ?_⟩
      · rw [centroidLoop, hr]
        change (if _ = 0 then _ else _) = _
        rw [hnext, if_pos hzero]
        rfl
      · rw [← hzero]
        exact hstep x hx (hleaf key List.mem_cons_self) hbit
    · obtain ⟨which', needPrevious', hloop, hkeep⟩ :=
        ih (fun k hk => hkeys k (List.mem_cons_of_mem key hk)) next r.needPrevious
      refine ⟨which', needPrevious', ?_, fun x hx hleaf hbit => ?_⟩
      · rw [centroidLoop, hr]
        change (if _ = 0 then _ else _) = _
        rw [hnext, if_neg hzero]
        exact hloop
      · exact hkeep x hx (fun k hk => hleaf k (List.mem_cons_of_mem key hk))
          (hstep x hx (hleaf key List.mem_cons_self) hbit)

/-- The bit of the node for a range at a tuple without a centroid. -/
def emptinessBit (x : RangeType α) : ℕ := if x.flags.empty then 1 else 2

omit [Inhabited α] in
theorem testBit_and_nonempty {which : ℕ} (hxe : x.flags.empty = false)
    (hbit : which.testBit (emptinessBit x) = true) :
    (which &&& 1 <<< 2).testBit (emptinessBit x) = true := by
  apply testBit_and_of hbit
  rw [emptinessBit, hxe]
  decide

omit [Inhabited α] in
theorem testBit_and_empty {which : ℕ} (hxe : x.flags.empty = true)
    (hbit : which.testBit (emptinessBit x) = true) :
    (which &&& 1 <<< 1).testBit (emptinessBit x) = true := by
  apply testBit_and_of hbit
  rw [emptinessBit, hxe]
  decide

omit [Inhabited α] in
/-- The case of the strategies that are false on empty ranges. -/
theorem testBit_strict {which : ℕ} {range : RangeType α}
    (hne : x.flags.empty = false ∧ range.flags.empty = false)
    (hbit : which.testBit (emptinessBit x) = true) :
    (if rangeIsEmpty range then 0 else which &&& 1 <<< 2).testBit (emptinessBit x) = true := by
  rw [rangeIsEmpty, hne.2, if_neg Bool.false_ne_true]
  exact testBit_and_nonempty hne.1 hbit

/-- The node of every answer of a scan key is kept. -/
theorem restrictEmptiness_keeps [Std.TransCmp typcache.cmp] (strategy : Strategy)
    (argument : strategy.Query α) {which : ℕ}
    (hleaf : rangeGistConsistentLeaf typcache strategy x argument = .ok true)
    (hbit : which.testBit (emptinessBit x) = true) :
    (restrictEmptiness strategy argument which).testBit (emptinessBit x) = true := by
  cases strategy with
  | before =>
    obtain ⟨hxe, hqe, -⟩ := rangeBeforeInternal_iff.mp (Except.ok.inj hleaf)
    exact testBit_strict ⟨hxe, hqe⟩ hbit
  | overleft =>
    obtain ⟨hxe, hqe, -⟩ := rangeOverleftInternal_iff.mp (Except.ok.inj hleaf)
    exact testBit_strict ⟨hxe, hqe⟩ hbit
  | overlaps => exact testBit_strict (Gist.nonempty_of_overlaps (Except.ok.inj hleaf)) hbit
  | overright =>
    obtain ⟨hxe, hqe, -⟩ := rangeOverrightInternal_iff.mp (Except.ok.inj hleaf)
    exact testBit_strict ⟨hxe, hqe⟩ hbit
  | after =>
    obtain ⟨hxe, hqe, -⟩ := rangeAfterInternal_iff.mp (Except.ok.inj hleaf)
    exact testBit_strict ⟨hxe, hqe⟩ hbit
  | adjacent => exact testBit_strict (Gist.nonempty_of_adjacent hleaf) hbit
  | contains =>
    simp only [restrictEmptiness]
    split_ifs with hqe
    · exact hbit
    · have hin := (rangeContainsInternal_iff (Bool.eq_false_iff.mpr hqe)).mp (Except.ok.inj hleaf)
      exact testBit_and_nonempty hin.1 hbit
  | containedBy =>
    simp only [restrictEmptiness]
    split_ifs with hqe
    · exact testBit_and_empty (empty_of_containedBy_empty (Except.ok.inj hleaf) hqe) hbit
    · exact hbit
  | containsElem =>
    have hin := (rangeContainsElemInternal_iff argument).mp (Except.ok.inj hleaf)
    exact testBit_and_nonempty hin.1 hbit
  | eq =>
    rcases rangeEqInternal_iff.mp (Except.ok.inj hleaf) with ⟨hxe, hqe⟩ | ⟨hxe, hqe, -⟩
    · simp only [restrictEmptiness, rangeIsEmpty, hqe, if_true]
      exact testBit_and_empty hxe hbit
    · simp only [restrictEmptiness, rangeIsEmpty, hqe, Bool.false_eq_true, if_false]
      exact testBit_and_nonempty hxe hbit

/-- The loop at a tuple without a centroid keeps the node of every common answer of the
scan keys. -/
theorem emptinessLoop_keeps [Std.TransCmp typcache.cmp] {keys : List (ScanKey α)} {which : ℕ}
    (hleaf : ∀ key ∈ keys,
      rangeGistConsistentLeaf typcache key.strategy x key.argument = .ok true)
    (hbit : which.testBit (emptinessBit x) = true) :
    (emptinessLoop keys which).testBit (emptinessBit x) = true := by
  induction keys generalizing which with
  | nil => exact hbit
  | cons key keys ih =>
    have hstep := restrictEmptiness_keeps key.strategy key.argument
      (hleaf key List.mem_cons_self) hbit
    simp only [emptinessLoop]
    split_ifs with hzero
    · rwa [hzero] at hstep
    · exact ih (fun k hk => hleaf k (List.mem_cons_of_mem key hk)) hstep

end Loops

/-! ### The scan -/

/-- The entries of a subtree belong to its region. -/
theorem Grown.mem_region {cmp : α → α → Ordering}
    {Centroid : (RangeType α → Prop) → RangeType α → Prop} {level : ℕ}
    {region : RangeType α → Prop} {t : Tree α} (h : Grown cmp Centroid level region t) :
    ∀ x ∈ t.leaves, region x := by
  induction h with
  | leaf hchain => exact hchain
  | allTheSame _ ih =>
    intro x hx
    obtain ⟨n, hn, hmem⟩ := RoutedTree.mem_leaves_inner.mp hx
    exact ih n hn x hmem
  | noCentroid _ _ ihEmpty ihFull =>
    intro x hx
    obtain ⟨n, hn, hmem⟩ := RoutedTree.mem_leaves_inner.mp hx
    obtain rfl | rfl : n = 0 ∨ n = 1 := by omega
    · exact (ihEmpty x hmem).1
    · exact (ihFull x hmem).1
  | centroid _ _ _ ih =>
    intro x hx
    obtain ⟨n, hn, hmem⟩ := RoutedTree.mem_leaves_inner.mp hx
    exact (ih n hn x hmem).1

section Scan

variable {typcache : TypeCacheEntry α} {keys : List (ScanKey α)}

/-- What is known of a centroid in an index of values. -/
def ValueCentroid (typcache : TypeCacheEntry α) (region : RangeType α → Prop)
    (c : RangeType α) : Prop :=
  (∀ r, region r → typcache.IsValue r) → IsCentroid typcache region c

theorem centroidOfSplit_value [Std.TransCmp typcache.cmp] :
    CentroidOfSplit typcache.cmp (ValueCentroid typcache) :=
  fun _ _ _ _ _ hdatums hout hc hvalue => isCentroid_of_picksplit hvalue hdatums hout hc

/-- The invariant of a scan: the subtree belongs to a region of values, and the centroid
that was passed down has that region in one quadrant. -/
def ScanInv (typcache : TypeCacheEntry α) (traversalValue : Option (RangeType α))
    (t : Tree α) : Prop :=
  ∃ level region, Grown typcache.cmp (ValueCentroid typcache) level region t ∧
    (∀ r, region r → typcache.IsValue r) ∧
    ∀ p, traversalValue = some p → IsPrevious typcache region p

theorem nodesOf_eq (nNodes which : ℕ) :
    nodesOf nNodes which = (List.range nNodes).filter fun n => which.testBit (n + 1) := by
  unfold nodesOf
  congr 1
  funext n
  rw [Nat.one_shiftLeft, Nat.and_two_pow]
  cases which.testBit (n + 1) <;> simp

/-- At every inner tuple the scan visits each child that holds an answer. -/
theorem scanInv_visits (hidx : typcache.Indexable)
    (hkeys : ∀ key ∈ keys, key.strategy.IsQuery typcache key.argument)
    (traversalValue : Option (RangeType α)) (tuple : InnerTuple α) (nNodes : ℕ)
    (child : ℕ → Tree α) (h : ScanInv typcache traversalValue (.inner tuple nNodes child)) :
    ∃ visited passed, RoutedTree.Visits (spgInnerTest typcache keys)
      (spgRangeQuadLeafConsistent typcache keys) (ScanInv typcache) tuple nNodes child
      traversalValue visited passed := by
  have htrans := hidx.transCmp
  obtain ⟨level, region, hgrown, hvalue, hprev⟩ := h
  cases hgrown with
  | allTheSame hchild =>
    -- every node is visited, without a traversal value
    refine ⟨fun _ => true, fun _ => none, ?_, ?_, ?_⟩
    · simp [spgInnerTest, spgRangeQuadInnerConsistent, bind, Except.bind, pure, Except.pure]
    · intro n hn _
      exact ⟨level, region, hchild n hn, hvalue, nofun⟩
    · exact fun _ _ hfalse => absurd hfalse Bool.noConfusion
  | noCentroid hempty hfull =>
    refine ⟨fun n => (emptinessLoop keys (1 <<< 1 ||| 1 <<< 2)).testBit (n + 1), fun _ => none,
      ?_, ?_, ?_⟩
    · simp [spgInnerTest, spgRangeQuadInnerConsistent, nodesOf_eq, bind, Except.bind,
        pure, Except.pure]
    · intro n hn _
      obtain rfl | rfl : n = 0 ∨ n = 1 := by omega
      · exact ⟨_, _, hempty, fun r hr => hvalue r hr.1, nofun⟩
      · exact ⟨_, _, hfull, fun r hr => hvalue r hr.1, nofun⟩
    · intro n hn hskip x hx hleaf
      have hbit : emptinessBit x = n + 1 := by
        obtain rfl | rfl : n = 0 ∨ n = 1 := by omega
        · rw [emptinessBit, (hempty.mem_region x hx).2]
          rfl
        · rw [emptinessBit, (hfull.mem_region x hx).2]
          rfl
      have hstart : (1 <<< 1 ||| 1 <<< 2).testBit (emptinessBit x) = true := by
        rw [emptinessBit]
        split_ifs <;> decide
      have hkeep := emptinessLoop_keeps (spgRangeQuadLeafConsistent_iff.mp hleaf) hstart
      rw [hbit, hskip] at hkeep
      exact Bool.false_ne_true hkeep
  | @centroid _ _ c _ hcent hlevel hchild =>
    have hc := hcent hvalue
    obtain ⟨which, needPrevious, hloop, hkeep⟩ := centroidLoop_spec hidx hc hvalue hprev hkeys
      (1 <<< 1 ||| 1 <<< 2 ||| 1 <<< 3 ||| 1 <<< 4 ||| 1 <<< 5) false
    refine ⟨fun n => which.testBit (n + 1), fun _ => if needPrevious then some c else none,
      ?_, ?_, ?_⟩
    · simp only [spgInnerTest, spgRangeQuadInnerConsistent, Bool.false_eq_true, if_false, hloop,
        nodesOf_eq, bind, Except.bind, pure, Except.pure]
      cases needPrevious with
      | true => simp [List.map_prod_left_eq_zip]
      | false => rfl
    · -- the centroid that is passed down has the child's region in one quadrant
      intro n hn _
      refine ⟨_, _, hchild n hn, fun r hr => hvalue r hr.1, fun p hp => ?_⟩
      obtain ⟨-, rfl⟩ : needPrevious = true ∧ c = p := by simpa using hp
      exact ⟨hc.isValue, hc.nonempty, n + 1, fun r hr => hr.2⟩
    · intro n hn hskip x hx hleaf
      obtain ⟨hregion, hquad⟩ := (hchild n hn).mem_region x hx
      have hbit := hkeep x hregion (spgRangeQuadLeafConsistent_iff.mp hleaf)
      rw [hquad, hskip] at hbit
      refine Bool.false_ne_true (hbit ?_)
      have hle := getQuadrant_le_five typcache.cmp c x
      rw [hquad] at hle
      obtain rfl | rfl | rfl | rfl | rfl : n = 0 ∨ n = 1 ∨ n = 2 ∨ n = 3 ∨ n = 4 := by omega
      all_goals decide

/-- A scan of an index returns exactly the ranges that answer all scan keys. -/
theorem spgScan_eq_filter (hidx : typcache.Indexable)
    (hkeys : ∀ key ∈ keys, key.strategy.IsQuery typcache key.argument) {t : Tree α}
    (ht : Reachable typcache.cmp typcache.IsValue t) :
    spgScan typcache keys t = .ok (t.leaves.filter
      (SearchTree.accepts (spgRangeQuadLeafConsistent typcache keys))) := by
  have htrans := hidx.transCmp
  refine RoutedTree.search_eq_filter ?_ (scanInv_visits hidx hkeys) t
    ⟨0, typcache.IsValue, ht.grown centroidOfSplit_value, fun _ hr => hr, nofun⟩
  rintro traversalValue entries ⟨level, region, hgrown, hvalue, -⟩ x hx
  exact spgRangeQuadLeafConsistent_total hidx hkeys (hvalue x (hgrown.mem_region x hx))

end Scan

/-- The index after `[0,10)` and `[10,20)`: the centroid takes the larger of the two lower
and of the two upper bounds. -/
def twoTens : Tree ℤ :=
  .inner ⟨false, some (Gist.int4Between 10 20)⟩ 5 fun n =>
    .leaf (distribute [Gist.int4Between 0 10, Gist.int4Between 10 20] [2, 0] n)

theorem twoTens_reachable : Reachable int4range.cmp int4range.IsValue twoTens := by
  refine .insert (x := Gist.int4Between 10 20)
    (.insert (x := Gist.int4Between 0 10) .empty (Gist.int4Between_isValue (by decide))
      (.addLeafTuple (List.Perm.refl _))) (Gist.int4Between_isValue (by decide)) (.doPickSplit ?_)
  exact @DoPickSplit.split ℤ _ int4range.cmp 0 _ (Gist.int4Between 10 20) ⟨_, 5, [2, 0], _⟩
    ⟨false, true, 5, [2, 0]⟩ false true [2, 0] rfl rfl (fun _ => rfl) (fun _ => rfl) (by decide)

/-- The ranges next to `[10,15)` that hold `5`: the first key alone would also visit the
quadrant of `[10,20)`. -/
theorem spgScan_eq_filter_adjacent :
    Reachable int4range.cmp int4range.IsValue twoTens ∧
      spgScan int4range [⟨.adjacent, Gist.int4Between 10 15⟩, ⟨.containsElem, (5 : ℤ)⟩] twoTens =
        .ok [Gist.int4Between 0 10] := by
  refine ⟨twoTens_reachable, (spgScan_eq_filter .int4range ?_ twoTens_reachable).trans rfl⟩
  intro key hkey
  simp only [List.mem_cons, List.not_mem_nil, or_false] at hkey
  rcases hkey with rfl | rfl
  · exact Gist.int4Between_isValue (by decide)
  · trivial

end PgRange.Spgist
