import PgRange.Math.SearchTree
import PgRange.Range.Operators

/-!
# GiST consistency of ranges

`range_gist_consistent_int` decides on the key of an internal page whether to
descend, `range_gist_consistent_leaf` whether a stored range answers the query.
Each of the ten strategies prunes with its own test; this file shows that no
test prunes a subtree that holds an answer, and hence that a descent guided by
`range_gist_consistent` returns exactly the answers.

The invariant that carries the argument is `Covers`: what an internal key
guarantees about each range below it.
-/

set_option autoImplicit false

namespace PgRange.Gist

open Math

/-- The strategy numbers of the range operator classes. -/
inductive Strategy
  | before | overleft | overlaps | overright | after
  | adjacent | contains | containedBy | containsElem | eq
  deriving DecidableEq, Repr

/-- The type of the right operand: an element for `containsElem`, else a range. -/
@[reducible]
def Strategy.Query (α : Type) : Strategy → Type
  | containsElem => α
  | _ => RangeType α

variable {α : Type} [Inhabited α]

/-- `range_gist_consistent_int`: the test on an internal page. -/
def rangeGistConsistentInt (typcache : TypeCacheEntry α) :
    (strategy : Strategy) → RangeType α → strategy.Query α → Except Fault Bool
  | .before, key, query =>
    if rangeIsEmpty key || rangeIsEmpty query then .ok false
    else .ok !rangeOverrightInternal typcache.cmp key query
  | .overleft, key, query =>
    if rangeIsEmpty key || rangeIsEmpty query then .ok false
    else .ok !rangeAfterInternal typcache.cmp key query
  | .overlaps, key, query => .ok (rangeOverlapsInternal typcache.cmp key query)
  | .overright, key, query =>
    if rangeIsEmpty key || rangeIsEmpty query then .ok false
    else .ok !rangeBeforeInternal typcache.cmp key query
  | .after, key, query =>
    if rangeIsEmpty key || rangeIsEmpty query then .ok false
    else .ok !rangeOverleftInternal typcache.cmp key query
  | .adjacent, key, query =>
    if rangeIsEmpty key || rangeIsEmpty query then .ok false
    else do
      if ← rangeAdjacentInternal typcache key query then return true
      return rangeOverlapsInternal typcache.cmp key query
  | .contains, key, query => .ok (rangeContainsInternal typcache.cmp key query)
  | .containedBy, key, query =>
    -- empty ranges are contained by anything
    if rangeIsOrContainsEmpty key then .ok true
    else .ok (rangeOverlapsInternal typcache.cmp key query)
  | .containsElem, key, query => .ok (rangeContainsElemInternal typcache.cmp key query)
  | .eq, key, query =>
    if rangeIsEmpty query then .ok (rangeIsOrContainsEmpty key)
    else .ok (rangeContainsInternal typcache.cmp key query)

/-- `range_gist_consistent_leaf`: the operator itself. -/
def rangeGistConsistentLeaf (typcache : TypeCacheEntry α) :
    (strategy : Strategy) → RangeType α → strategy.Query α → Except Fault Bool
  | .before, key, query => .ok (rangeBeforeInternal typcache.cmp key query)
  | .overleft, key, query => .ok (rangeOverleftInternal typcache.cmp key query)
  | .overlaps, key, query => .ok (rangeOverlapsInternal typcache.cmp key query)
  | .overright, key, query => .ok (rangeOverrightInternal typcache.cmp key query)
  | .after, key, query => .ok (rangeAfterInternal typcache.cmp key query)
  | .adjacent, key, query => rangeAdjacentInternal typcache key query
  | .contains, key, query => .ok (rangeContainsInternal typcache.cmp key query)
  | .containedBy, key, query => .ok (rangeContainedByInternal typcache.cmp key query)
  | .containsElem, key, query => .ok (rangeContainsElemInternal typcache.cmp key query)
  | .eq, key, query => .ok (rangeEqInternal typcache.cmp key query)

/-- `range_gist_consistent`: the leaf test on a leaf page, the pruning test above. -/
def rangeGistConsistent (typcache : TypeCacheEntry α) (strategy : Strategy) (leaf : Bool)
    (key : RangeType α) (query : strategy.Query α) : Except Fault Bool :=
  if leaf then rangeGistConsistentLeaf typcache strategy key query
  else rangeGistConsistentInt typcache strategy key query

/-- The query operand is a value of the column's type: for a range operand its
representation invariant, for an element nothing. -/
def Strategy.IsQuery (typcache : TypeCacheEntry α) :
    (strategy : Strategy) → strategy.Query α → Prop
  | .before, query | .overleft, query | .overlaps, query | .overright, query | .after, query
  | .adjacent, query | .contains, query | .containedBy, query | .eq, query =>
    typcache.IsValue query
  | .containsElem, _ => True

/-- What an internal key guarantees about a range below it: an empty one is
recorded by the key, a non-empty one is contained in it. -/
structure Covers (typcache : TypeCacheEntry α) (k x : RangeType α) : Prop where
  ofEmpty : x.flags.empty = true → rangeIsOrContainsEmpty k = true
  ofNonempty : x.flags.empty = false →
    k.flags.empty = false ∧ rangeContainsInternal typcache.cmp k x = true

/-! ### No test prunes an answer -/

/-- A non-empty range below a key: the key starts no later and ends no earlier. -/
structure Nested (cmp : α → α → Ordering) (k x : RangeType α) : Prop where
  keyNonempty : k.flags.empty = false
  nonempty : x.flags.empty = false
  lower : (rangeCmpBounds cmp (lowerOf k) (lowerOf x)).isLE
  upper : (rangeCmpBounds cmp (upperOf x) (upperOf k)).isLE
  ordered : (rangeCmpBounds cmp (lowerOf x) (upperOf x)).isLE

namespace Nested

variable {cmp : α → α → Ordering} [Std.TransCmp cmp] {k x query : RangeType α}

/-- The key starts no later than the range below it ends. -/
theorem lower_upper (h : Nested cmp k x) :
    (rangeCmpBounds cmp (lowerOf k) (upperOf x)).isLE :=
  Std.TransCmp.isLE_trans h.lower h.ordered

/-- The range below a key starts no later than the key ends. -/
theorem upper_lower (h : Nested cmp k x) :
    (rangeCmpBounds cmp (lowerOf x) (upperOf k)).isLE :=
  Std.TransCmp.isLE_trans h.ordered h.upper

theorem keyOrdered (h : Nested cmp k x) :
    (rangeCmpBounds cmp (lowerOf k) (upperOf k)).isLE :=
  Std.TransCmp.isLE_trans h.lower_upper h.upper

theorem not_overright (h : Nested cmp k x) (hx : rangeBeforeInternal cmp x query = true) :
    rangeOverrightInternal cmp k query = false := by
  rw [← Bool.not_eq_true, rangeOverrightInternal_iff]
  rintro ⟨-, -, hle⟩
  exact (rangeBeforeInternal_iff.mp hx).2.2 (Std.TransCmp.isLE_trans hle h.lower_upper)

theorem not_after (h : Nested cmp k x) (hx : rangeOverleftInternal cmp x query = true) :
    rangeAfterInternal cmp k query = false := by
  rw [← Bool.not_eq_true, rangeAfterInternal_iff]
  rintro ⟨-, -, hgt⟩
  exact hgt (Std.TransCmp.isLE_trans h.lower_upper (rangeOverleftInternal_iff.mp hx).2.2)

theorem not_before (h : Nested cmp k x) (hx : rangeOverrightInternal cmp x query = true) :
    rangeBeforeInternal cmp k query = false := by
  rw [← Bool.not_eq_true, rangeBeforeInternal_iff]
  rintro ⟨-, -, hlt⟩
  exact hlt (Std.TransCmp.isLE_trans (rangeOverrightInternal_iff.mp hx).2.2 h.upper_lower)

theorem not_overleft (h : Nested cmp k x) (hx : rangeAfterInternal cmp x query = true) :
    rangeOverleftInternal cmp k query = false := by
  rw [← Bool.not_eq_true, rangeOverleftInternal_iff]
  rintro ⟨-, -, hle⟩
  exact (rangeAfterInternal_iff.mp hx).2.2 (Std.TransCmp.isLE_trans h.upper_lower hle)

/-- Whatever overlaps a range overlaps the key above it. -/
theorem overlaps (h : Nested cmp k x) (hq : query.flags.empty = false)
    (hqo : (rangeCmpBounds cmp (lowerOf query) (upperOf query)).isLE)
    (hx : rangeOverlapsInternal cmp x query = true) :
    rangeOverlapsInternal cmp k query = true := by
  obtain ⟨h1, h2⟩ := (rangeOverlapsInternal_iff h.nonempty hq h.ordered hqo).mp hx
  exact (rangeOverlapsInternal_iff h.keyNonempty hq h.keyOrdered hqo).mpr
    ⟨Std.TransCmp.isLE_trans h.lower h1, Std.TransCmp.isLE_trans h2 h.upper⟩

/-- Whatever a range contains the key above it contains. -/
theorem contains (h : Nested cmp k x) (hx : rangeContainsInternal cmp x query = true) :
    rangeContainsInternal cmp k query = true := by
  cases hq : query.flags.empty with
  | true => simp [rangeContainsInternal, hq]
  | false =>
    obtain ⟨-, hl, hu⟩ := (rangeContainsInternal_iff hq).mp hx
    exact (rangeContainsInternal_iff hq).mpr
      ⟨h.keyNonempty, Std.TransCmp.isLE_trans h.lower hl, Std.TransCmp.isLE_trans hu h.upper⟩

theorem containsElem (h : Nested cmp k x) {val : α}
    (hx : rangeContainsElemInternal cmp x val = true) :
    rangeContainsElemInternal cmp k val = true := by
  obtain ⟨-, hl, hu⟩ := (rangeContainsElemInternal_iff val).mp hx
  have hlower := h.lower
  have hupper := h.upper
  rw [rangeCmpBounds_eq_cut] at hlower hupper
  exact (rangeContainsElemInternal_iff val).mpr
    ⟨h.keyNonempty, Std.TransCmp.isLE_trans hlower hl, Std.TransCmp.isLE_trans hu hupper⟩

/-- A range inside the query overlaps it, and so does the key. -/
theorem overlaps_of_containedBy (h : Nested cmp k x)
    (hx : rangeContainedByInternal cmp x query = true)
    (hqo : query.flags.empty = false →
      (rangeCmpBounds cmp (lowerOf query) (upperOf query)).isLE) :
    rangeOverlapsInternal cmp k query = true := by
  obtain ⟨hq, hl, hu⟩ := (rangeContainsInternal_iff h.nonempty).mp hx
  have hself : rangeOverlapsInternal cmp x query = true :=
    (rangeOverlapsInternal_iff h.nonempty hq h.ordered (hqo hq)).mpr
      ⟨Std.TransCmp.isLE_trans h.ordered hu, Std.TransCmp.isLE_trans hl h.ordered⟩
  exact h.overlaps hq (hqo hq) hself

/-- A range equal to the query contains it, and so does the key. -/
theorem contains_of_eq (h : Nested cmp k x) (hx : rangeEqInternal cmp x query = true) :
    rangeContainsInternal cmp k query = true := by
  rcases rangeEqInternal_iff.mp hx with ⟨he, -⟩ | ⟨-, hq, hl, hu⟩
  · exact absurd he (by simp [h.nonempty])
  · refine h.contains ((rangeContainsInternal_iff hq).mpr ⟨h.nonempty, isLE_of_eq hl, ?_⟩)
    exact isLE_of_eq (Std.OrientedCmp.eq_symm hu)

/-- Where a range meets the query, the key above it meets the query too or has
grown into it: right after an adjacent place the overlap begins. -/
theorem adjacent_or_overlaps (h : Nested cmp k x) (hq : query.flags.empty = false)
    (hqo : (rangeCmpBounds cmp (lowerOf query) (upperOf query)).isLE)
    (hx : Cut.Adjacent cmp (upperOf x).cut (lowerOf query).cut ∨
      Cut.Adjacent cmp (upperOf query).cut (lowerOf x).cut) :
    (Cut.Adjacent cmp (upperOf k).cut (lowerOf query).cut ∨
      Cut.Adjacent cmp (upperOf query).cut (lowerOf k).cut) ∨
    rangeOverlapsInternal cmp k query = true := by
  rw [rangeOverlapsInternal_iff h.keyNonempty hq h.keyOrdered hqo]
  have hlower := h.lower
  have hupper := h.upper
  have hlu := h.lower_upper
  have hul := h.upper_lower
  simp only [rangeCmpBounds_eq_cut] at hlower hupper hlu hul hqo ⊢
  rcases hx with hadj | hadj
  · rcases hadj.of_isLE hupper with hk | hk
    · exact Or.inl (Or.inl hk)
    · have hgap := Std.TransCmp.isLE_trans hlu (isLE_of_lt hadj.lt)
      exact Or.inr ⟨Std.TransCmp.isLE_trans hgap hqo, hk⟩
  · rcases hadj.of_isLE_right hlower with hk | hk
    · exact Or.inl (Or.inr hk)
    · have hgap := Std.TransCmp.isLE_trans (isLE_of_lt hadj.lt) hul
      exact Or.inr ⟨hk, Std.TransCmp.isLE_trans hqo hgap⟩

end Nested

section Descent

variable {typcache : TypeCacheEntry α} {k x : RangeType α}

theorem Covers.nested (h : Covers typcache k x) (hne : x.flags.empty = false)
    (htrans : Std.TransCmp typcache.cmp) (hx : typcache.IsValue x) : Nested typcache.cmp k x := by
  obtain ⟨hk, hcontains⟩ := h.ofNonempty hne
  obtain ⟨-, hl, hu⟩ := (rangeContainsInternal_iff hne).mp hcontains
  exact ⟨hk, hne, hl, hu, hx.ordered hne⟩

/-- Adjacency of values never raises an error, also when one is empty. -/
theorem rangeAdjacentInternal_total (h : typcache.Indexable) {r1 r2 : RangeType α}
    (h1 : typcache.IsValue r1) (h2 : typcache.IsValue r2) :
    ∃ b, rangeAdjacentInternal typcache r1 r2 = .ok b := by
  by_cases he : r1.flags.empty = false ∧ r2.flags.empty = false
  · obtain ⟨b, hb, -⟩ := rangeAdjacentInternal_eq h h1 h2 he.1 he.2
    exact ⟨b, hb⟩
  · refine ⟨false, ?_⟩
    cases he1 : r1.flags.empty <;> cases he2 : r2.flags.empty <;>
      simp_all [rangeAdjacentInternal]

/-- An adjacent range has operands that are not empty. -/
theorem nonempty_of_adjacent {r1 r2 : RangeType α}
    (h : rangeAdjacentInternal typcache r1 r2 = .ok true) :
    r1.flags.empty = false ∧ r2.flags.empty = false := by
  cases h1 : r1.flags.empty <;> cases h2 : r2.flags.empty <;>
    simp_all [rangeAdjacentInternal]

/-- The test for adjacency on an internal page descends to every adjacent range. -/
theorem adjacent_descends (h : typcache.Indexable) {query : RangeType α}
    (hk : typcache.IsValue k) (hx : typcache.IsValue x) (hq : typcache.IsValue query)
    (hcov : Covers typcache k x) (hleaf : rangeAdjacentInternal typcache x query = .ok true) :
    rangeGistConsistentInt typcache .adjacent k query = .ok true := by
  have htrans := h.transCmp
  obtain ⟨hxe, hqe⟩ := nonempty_of_adjacent hleaf
  have hn := hcov.nested hxe htrans hx
  obtain ⟨b, hb, hiff⟩ := rangeAdjacentInternal_eq h hx hq hxe hqe
  obtain rfl : b = true := by simpa [hb] using hleaf
  obtain ⟨bk, hbk, hiffk⟩ := rangeAdjacentInternal_eq h hk hq hn.keyNonempty hqe
  have hdescend : bk = true ∨ rangeOverlapsInternal typcache.cmp k query = true := by
    rw [hiffk]
    exact hn.adjacent_or_overlaps hqe (hq.ordered hqe) (hiff.mp rfl)
  simp only [rangeGistConsistentInt, rangeIsEmpty, hn.keyNonempty, hqe, Bool.or_self, hbk]
  cases bk with
  | true => rfl
  | false =>
    have hover : rangeOverlapsInternal typcache.cmp k query = true := by simpa using hdescend
    rw [hover]
    rfl

/-- An overlapping range and its operand are not empty. -/
theorem nonempty_of_overlaps {cmp : α → α → Ordering} {r1 r2 : RangeType α}
    (h : rangeOverlapsInternal cmp r1 r2 = true) :
    r1.flags.empty = false ∧ r2.flags.empty = false := by
  cases h1 : r1.flags.empty <;> cases h2 : r2.flags.empty <;>
    simp_all [rangeOverlapsInternal]

/-- An internal page is descended into whenever one of the ranges below its key
answers the query. -/
theorem consistentInt_of_consistentLeaf (h : typcache.Indexable) (strategy : Strategy)
    (query : strategy.Query α) (hq : strategy.IsQuery typcache query)
    (hk : typcache.IsValue k) (hx : typcache.IsValue x) (hcov : Covers typcache k x)
    (hleaf : rangeGistConsistentLeaf typcache strategy x query = .ok true) :
    rangeGistConsistentInt typcache strategy k query = .ok true := by
  have htrans := h.transCmp
  cases strategy with
  -- the four positional strategies descend unless the key satisfies the opposite one
  | before =>
    have hx' := Except.ok.inj hleaf
    obtain ⟨hxe, hqe, -⟩ := rangeBeforeInternal_iff.mp hx'
    have hn := hcov.nested hxe htrans hx
    simp [rangeGistConsistentInt, rangeIsEmpty, hn.keyNonempty, hqe, hn.not_overright hx']
  | overleft =>
    have hx' := Except.ok.inj hleaf
    obtain ⟨hxe, hqe, -⟩ := rangeOverleftInternal_iff.mp hx'
    have hn := hcov.nested hxe htrans hx
    simp [rangeGistConsistentInt, rangeIsEmpty, hn.keyNonempty, hqe, hn.not_after hx']
  | overlaps =>
    have hx' := Except.ok.inj hleaf
    obtain ⟨hxe, hqe⟩ := nonempty_of_overlaps hx'
    exact congrArg Except.ok ((hcov.nested hxe htrans hx).overlaps hqe (hq.ordered hqe) hx')
  | overright =>
    have hx' := Except.ok.inj hleaf
    obtain ⟨hxe, hqe, -⟩ := rangeOverrightInternal_iff.mp hx'
    have hn := hcov.nested hxe htrans hx
    simp [rangeGistConsistentInt, rangeIsEmpty, hn.keyNonempty, hqe, hn.not_before hx']
  | after =>
    have hx' := Except.ok.inj hleaf
    obtain ⟨hxe, hqe, -⟩ := rangeAfterInternal_iff.mp hx'
    have hn := hcov.nested hxe htrans hx
    simp [rangeGistConsistentInt, rangeIsEmpty, hn.keyNonempty, hqe, hn.not_overleft hx']
  | adjacent => exact adjacent_descends h hk hx hq hcov hleaf
  | contains =>
    have hx' := Except.ok.inj hleaf
    refine congrArg Except.ok ?_
    cases hxe : x.flags.empty with
    | false => exact (hcov.nested hxe htrans hx).contains hx'
    | true =>
      -- an empty range contains only the empty range, which every key contains
      cases hqe : query.flags.empty with
      | true => simp [rangeContainsInternal, hqe]
      | false => simp [rangeContainsInternal, hxe, hqe] at hx'
  | containedBy =>
    have hx' := Except.ok.inj hleaf
    simp only [rangeGistConsistentInt]
    -- a key that may cover empty ranges is always searched
    split_ifs with hempty
    · rfl
    · refine congrArg Except.ok ?_
      cases hxe : x.flags.empty with
      | false => exact (hcov.nested hxe htrans hx).overlaps_of_containedBy hx' hq.ordered
      | true => exact absurd (hcov.ofEmpty hxe) hempty
  | containsElem =>
    have hx' := Except.ok.inj hleaf
    have hxe := ((rangeContainsElemInternal_iff query).mp hx').1
    exact congrArg Except.ok ((hcov.nested hxe htrans hx).containsElem hx')
  | eq =>
    have hx' := Except.ok.inj hleaf
    rcases rangeEqInternal_iff.mp hx' with ⟨hxe, hqe⟩ | ⟨hxe, hqe, -⟩
    · simp [rangeGistConsistentInt, rangeIsEmpty, hqe, hcov.ofEmpty hxe]
    · have hn := hcov.nested hxe htrans hx
      simp [rangeGistConsistentInt, rangeIsEmpty, hqe, hn.contains_of_eq hx']

/-- On values of an indexable type neither test raises an error. -/
theorem rangeGistConsistent_total (h : typcache.Indexable) (strategy : Strategy) (leaf : Bool)
    (query : strategy.Query α) (hq : strategy.IsQuery typcache query)
    {r : RangeType α} (hr : typcache.IsValue r) :
    ∃ b, rangeGistConsistent typcache strategy leaf r query = .ok b := by
  -- only adjacency builds a range, every other test is a comparison of bounds
  cases strategy with
  | adjacent =>
    obtain ⟨b, hb⟩ := rangeAdjacentInternal_total h hr hq
    cases leaf with
    | true => exact ⟨b, hb⟩
    | false =>
      simp only [rangeGistConsistent, rangeGistConsistentInt, hb, Bool.false_eq_true, ↓reduceIte]
      split_ifs
      · exact ⟨_, rfl⟩
      · cases b <;> exact ⟨_, rfl⟩
  | before | overleft | overlaps | overright | after | contains | containedBy | containsElem | eq =>
    cases leaf <;> simp only [rangeGistConsistent, rangeGistConsistentInt,
      rangeGistConsistentLeaf, Bool.false_eq_true, ↓reduceIte] <;>
      first
        | exact ⟨_, rfl⟩
        | (split_ifs <;> exact ⟨_, rfl⟩)

end Descent

/-- A search through a range index loses no row. -/
theorem gist_search_exact {typcache : TypeCacheEntry α} (h : typcache.Indexable)
    (strategy : Strategy) (query : strategy.Query α) (hq : strategy.IsQuery typcache query) :
    (∀ k x, typcache.IsValue k → typcache.IsValue x → Covers typcache k x →
      rangeGistConsistentLeaf typcache strategy x query = .ok true →
      rangeGistConsistentInt typcache strategy k query = .ok true) ∧
    ∀ t : SearchTree (RangeType α), t.All typcache.IsValue → t.Covering (Covers typcache) →
      t.search (rangeGistConsistent typcache strategy false · query)
          (rangeGistConsistent typcache strategy true · query) =
        .ok (t.leaves.filter
          (SearchTree.accepts (rangeGistConsistentLeaf typcache strategy · query))) := by
  refine ⟨fun k x hk hx hcov hleaf =>
    consistentInt_of_consistentLeaf h strategy query hq hk hx hcov hleaf, ?_⟩
  intro t hall hcover
  exact SearchTree.search_eq_filter
    (fun k hk => rangeGistConsistent_total h strategy false query hq hk)
    (fun x hx => rangeGistConsistent_total h strategy true query hq hx)
    (fun k x hk hx hcov hleaf =>
      consistentInt_of_consistentLeaf h strategy query hq hk hx hcov hleaf)
    t hall hcover

/-- The canonical `int4range` value with the given finite bounds. -/
def int4Between (a b : ℤ) : RangeType ℤ :=
  packRange ⟨a, false, true, true⟩ ⟨b, false, false, false⟩

theorem int4Between_isValue {a b : ℤ} (h : a < b) : int4range.IsValue (int4Between a b) :=
  int4range_isValue h

/-- A page with one key over an empty range and two others, searched for the
ranges next to `[5,10)`: the key is not adjacent to the query but overlaps it. -/
theorem gist_search_exact_int4range_adjacent :
    (SearchTree.node (rangeSetContainEmpty (int4Between 1 20))
        (.entry (int4Between 1 5) (.entry emptyRange (.entry (int4Between 12 20) .nil)))
        .nil).search
      (rangeGistConsistent int4range .adjacent false · (int4Between 5 10))
      (rangeGistConsistent int4range .adjacent true · (int4Between 5 10)) =
    .ok [int4Between 1 5] := by
  have hempty : int4range.IsValue emptyRange :=
    ⟨by constructor <;> decide, by decide, by decide⟩
  have hkey : int4range.IsValue (rangeSetContainEmpty (int4Between 1 20)) :=
    ⟨by constructor <;> decide, by decide, by decide⟩
  refine ((gist_search_exact .int4range .adjacent (int4Between 5 10)
    (int4Between_isValue (by decide))).2 _ ?_ ?_).trans (by rfl)
  · exact ⟨hkey, ⟨int4Between_isValue (by decide), hempty, int4Between_isValue (by decide),
      trivial⟩, trivial⟩
  · refine ⟨fun x hx => ?_, trivial, trivial⟩
    simp only [SearchTree.leaves, List.mem_cons, List.not_mem_nil, or_false] at hx
    rcases hx with rfl | rfl | rfl <;> exact ⟨by decide, by decide⟩

end PgRange.Gist
