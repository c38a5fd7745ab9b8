import PgRange.Gist.Consistent
import PgRange.Math.Join
import PgRange.Range.Canonical
import PgRange.Range.Hash

/-!
# GiST union keys

`range_super_union` merges two keys, `range_gist_union` all keys of a page, and
`range_gist_same` decides whether a parent key has to be rewritten. Keys are ordered
by how much they cover: what they contain, and whether they record an empty range.
`range_super_union` computes a least upper bound of that order and `range_gist_same` is
its equivalence, so merging does not depend on the order of the entries.

## Main definitions

* `IsKey` — a canonical range value that may carry the bit for absorbed empty ranges
* `CoversKey` — what an internal key guarantees about a key below it

## Main results

* `rangeSuperUnion_joinsOn` — least upper bounds
* `rangeGistSame_iff` — keys that cover each other
* `rangeSuperUnion_semilattice`
-/

set_option autoImplicit false

namespace PgRange.Gist

open Math

variable {α : Type} [Inhabited α]

/-! ### The functions of the source -/

/-- `range_super_union`: the smallest key that covers both. -/
def rangeSuperUnion (typcache : TypeCacheEntry α) (r1 r2 : RangeType α) :
    Except Fault (RangeType α) :=
  let p1 := rangeDeserialize r1
  let p2 := rangeDeserialize r2
  if p1.empty then
    if rangeIsOrContainsEmpty r2 then .ok r2 else .ok (rangeSetContainEmpty r2)
  else if p2.empty then
    if rangeIsOrContainsEmpty r1 then .ok r1 else .ok (rangeSetContainEmpty r1)
  else
    -- whether `result_lower` and `result_upper` point to the bounds of `r1`
    let lowerFirst := (rangeCmpBounds typcache.cmp p1.lower p2.lower).isLE
    let upperFirst := (rangeCmpBounds typcache.cmp p1.upper p2.upper).isGE
    let resultLower := if lowerFirst then p1.lower else p2.lower
    let resultUpper := if upperFirst then p1.upper else p2.upper
    -- no new range is built where one of the two will do
    if lowerFirst && upperFirst && (r1.flags.containEmpty || !r2.flags.containEmpty) then .ok r1
    else if !lowerFirst && !upperFirst && (r2.flags.containEmpty || !r1.flags.containEmpty) then
      .ok r2
    else do
      let result ← makeRange typcache resultLower resultUpper false
      if r1.flags.containEmpty || r2.flags.containEmpty then
        return rangeSetContainEmpty result
      else return result

/-- `range_gist_union`. The core never calls it without entries. -/
def rangeGistUnion (typcache : TypeCacheEntry α) :
    List (RangeType α) → Except Fault (RangeType α)
  | [] => .error .uninitializedRead
  | ent :: entries => entries.foldlM (rangeSuperUnion typcache) ent

/-- `range_gist_same`. -/
def rangeGistSame (typcache : TypeCacheEntry α) (r1 r2 : RangeType α) : Bool :=
  if r1.flags.toByte != r2.flags.toByte then false else rangeEqInternal typcache.cmp r1 r2

/-! ### Keys and how much they cover -/

/-- The value without the bit that records an absorbed empty range. -/
def clearContainEmpty (r : RangeType α) : RangeType α :=
  { r with flags := { r.flags with containEmpty := false } }

/-- A key of the index: a canonical range value, which may carry the bit for absorbed
empty ranges unless it is empty itself. -/
structure IsKey (typcache : TypeCacheEntry α) (r : RangeType α) : Prop where
  wellFormed : WellFormed typcache.cmp (clearContainEmpty r)
  canonical : typcache.IsCanonical (clearContainEmpty r)
  emptyAlone : r.flags.empty = true → r.flags.containEmpty = false

/-- What an internal key guarantees about a key below it: a non-empty one is contained,
and one that is or contains the empty range is recorded. -/
structure CoversKey (cmp : α → α → Ordering) (k x : RangeType α) : Prop where
  ofEmpty : rangeIsOrContainsEmpty x = true → rangeIsOrContainsEmpty k = true
  ofNonempty : x.flags.empty = false →
    k.flags.empty = false ∧ rangeContainsInternal cmp k x = true

/-- The keys, ordered by how much they cover. -/
def Key (_cmp : α → α → Ordering) : Type := RangeType α

section Order

variable {cmp : α → α → Ordering} [Std.TransCmp cmp] {k x y : RangeType α}

/-- Covering in terms of bounds. -/
theorem coversKey_iff : CoversKey cmp k x ↔
    (rangeIsOrContainsEmpty x = true → rangeIsOrContainsEmpty k = true) ∧
      (x.flags.empty = false → k.flags.empty = false ∧
        (rangeCmpBounds cmp (lowerOf k) (lowerOf x)).isLE ∧
        (rangeCmpBounds cmp (upperOf x) (upperOf k)).isLE) := by
  constructor
  · rintro ⟨hempty, hne⟩
    refine ⟨hempty, fun hx => ?_⟩
    exact (rangeContainsInternal_iff hx).mp (hne hx).2
  · rintro ⟨hempty, hne⟩
    refine ⟨hempty, fun hx => ⟨(hne hx).1, ?_⟩⟩
    exact (rangeContainsInternal_iff hx).mpr (hne hx)

theorem CoversKey.refl (cmp : α → α → Ordering) [Std.TransCmp cmp] (k : RangeType α) :
    CoversKey cmp k k := by
  refine coversKey_iff.mpr ⟨id, fun hk => ⟨hk, ?_, ?_⟩⟩
  · exact Std.ReflCmp.isLE_rfl
  · exact Std.ReflCmp.isLE_rfl

theorem CoversKey.trans (hky : CoversKey cmp k y) (hyx : CoversKey cmp y x) :
    CoversKey cmp k x := by
  rw [coversKey_iff] at hky hyx ⊢
  refine ⟨fun hx => hky.1 (hyx.1 hx), fun hx => ?_⟩
  obtain ⟨hy, hl, hu⟩ := hyx.2 hx
  obtain ⟨hk, hl', hu'⟩ := hky.2 hy
  exact ⟨hk, Std.TransCmp.isLE_trans hl' hl, Std.TransCmp.isLE_trans hu hu'⟩

instance (cmp : α → α → Ordering) [Std.TransCmp cmp] : Preorder (Key cmp) where
  le x k := CoversKey cmp k x
  le_refl := CoversKey.refl cmp
  le_trans _ _ _ hxy hyk := CoversKey.trans hyk hxy

/-- A key that covers also covers the stored ranges below. -/
theorem CoversKey.covers {typcache : TypeCacheEntry α} (h : CoversKey typcache.cmp k x) :
    Covers typcache k x where
  ofEmpty hx := h.ofEmpty (by simp [rangeIsOrContainsEmpty, hx])
  ofNonempty := h.ofNonempty

end Order

/-! ### The result of a union -/

section Union

variable {typcache : TypeCacheEntry α} {r1 r2 u : RangeType α}

/-- Marking a non-empty value keeps it a key. -/
theorem IsKey.setContainEmpty (h : IsKey typcache r1) (hne : r1.flags.empty = false) :
    IsKey typcache (rangeSetContainEmpty r1) where
  wellFormed := h.wellFormed
  canonical := h.canonical
  emptyAlone he := by simp [rangeSetContainEmpty, hne] at he

/-- A canonical value is a key. -/
theorem IsKey.ofValue (h : WellFormed typcache.cmp r1) (hcanon : typcache.IsCanonical r1) :
    IsKey typcache r1 := by
  have hclear : clearContainEmpty r1 = r1 := by
    unfold clearContainEmpty
    rw [← h.noContainEmpty]
  exact ⟨by rwa [hclear], by rwa [hclear], fun _ => h.noContainEmpty⟩

theorem IsKey.ordered (h : IsKey typcache r1) (hne : r1.flags.empty = false) :
    (rangeCmpBounds typcache.cmp (lowerOf r1) (upperOf r1)).isLE :=
  h.wellFormed.ordered hne

/-- The union with an empty range is the other range, marked if it is not empty. -/
theorem rangeSuperUnion_of_empty (h1 : r1.flags.empty = true) :
    rangeSuperUnion typcache r1 r2 =
      .ok (if rangeIsOrContainsEmpty r2 then r2 else rangeSetContainEmpty r2) := by
  simp only [rangeSuperUnion, rangeDeserialize_empty, h1, ↓reduceIte]
  split_ifs <;> rfl

theorem rangeSuperUnion_of_empty_right (h1 : r1.flags.empty = false) (h2 : r2.flags.empty = true) :
    rangeSuperUnion typcache r1 r2 =
      .ok (if rangeIsOrContainsEmpty r1 then r1 else rangeSetContainEmpty r1) := by
  simp only [rangeSuperUnion, rangeDeserialize_empty, h1, h2, Bool.false_eq_true, ↓reduceIte]
  split_ifs <;> rfl

/-- What a union of two non-empty keys looks like: the outer bounds, and the bit if one
of the two carries it. -/
structure IsUnion (cmp : α → α → Ordering) (r1 r2 u : RangeType α) : Prop where
  nonempty : u.flags.empty = false
  marked : u.flags.containEmpty = (r1.flags.containEmpty || r2.flags.containEmpty)
  lower : lowerOf u =
    if (rangeCmpBounds cmp (lowerOf r1) (lowerOf r2)).isLE then lowerOf r1 else lowerOf r2
  upper : upperOf u =
    if (rangeCmpBounds cmp (upperOf r1) (upperOf r2)).isGE then upperOf r1 else upperOf r2

/-- The range that a union builds from a lower and an upper bound of keys: it is a key
with these bounds, and carries the bit as asked. -/
theorem makeUnion_eq (h : typcache.Regular) (h1 : IsKey typcache r1) (h2 : IsKey typcache r2)
    (he1 : r1.flags.empty = false) (he2 : r2.flags.empty = false)
    (hle : (rangeCmpBounds typcache.cmp (lowerOf r1) (upperOf r2)).isLE) (mark : Bool) :
    ∃ u, (do
        let result ← makeRange typcache (lowerOf r1) (upperOf r2) false
        if mark then return rangeSetContainEmpty result else return result) = .ok u ∧
      IsKey typcache u ∧ u.flags.empty = false ∧ u.flags.containEmpty = mark ∧
      lowerOf u = lowerOf r1 ∧ upperOf u = upperOf r2 := by
  -- the bounds are those of the values without the bit
  change (rangeCmpBounds typcache.cmp (lowerOf (clearContainEmpty r1))
    (upperOf (clearContainEmpty r2))).isLE at hle
  have hmake := makeRange_recombined h h1.wellFormed h2.wellFormed he1 he2 h1.canonical
    h2.canonical hle
  have hkey := IsKey.ofValue (wellFormed_packRange rfl rfl hle)
    (h.recombined h1.wellFormed h2.wellFormed he1 he2 h1.canonical h2.canonical hle)
  have hlower := lowerOf_recombined h1.wellFormed h2.wellFormed
  have hupper := upperOf_recombined h1.wellFormed h2.wellFormed
  change ∃ u, (makeRange typcache (lowerOf (clearContainEmpty r1))
    (upperOf (clearContainEmpty r2)) false >>= _) = .ok u ∧ _
  rw [hmake]
  cases mark with
  | true => exact ⟨_, rfl, hkey.setContainEmpty rfl, rfl, rfl, hlower, hupper⟩
  | false => exact ⟨_, rfl, hkey, rfl, rfl, hlower, hupper⟩

/-- The union of non-empty keys never fails. -/
theorem rangeSuperUnion_of_nonempty (h : typcache.Regular) (h1 : IsKey typcache r1)
    (h2 : IsKey typcache r2) (he1 : r1.flags.empty = false) (he2 : r2.flags.empty = false) :
    ∃ u, rangeSuperUnion typcache r1 r2 = .ok u ∧ IsKey typcache u ∧
      IsUnion typcache.cmp r1 r2 u := by
  have htrans := h.transCmp
  have ho1 := h1.ordered he1
  have ho2 := h2.ordered he2
  simp only [rangeSuperUnion, rangeDeserialize_empty, he1, he2, Bool.false_eq_true, ↓reduceIte]
  -- the four ways to pick the outer bounds; two of them may find nothing to build
  cases hlow : (rangeCmpBounds typcache.cmp (lowerOf r1) (lowerOf r2)).isLE <;>
    cases hup : (rangeCmpBounds typcache.cmp (upperOf r1) (upperOf r2)).isGE
  · by_cases hce : (r2.flags.containEmpty || !r1.flags.containEmpty) = true
    · refine ⟨r2, by simp [hce], h2, he2, ?_, by simp [hlow], by simp [hup]⟩
      cases h1ce : r1.flags.containEmpty <;> simp_all
    · obtain ⟨u, hu, hkey, hne, hmark, hl, hr⟩ := makeUnion_eq h h2 h2 he2 he2 ho2
        (r1.flags.containEmpty || r2.flags.containEmpty)
      exact ⟨u, by simpa [hce] using hu, hkey, hne, hmark, by simp [hlow, hl], by simp [hup, hr]⟩
  · have hle : (rangeCmpBounds typcache.cmp (lowerOf r2) (upperOf r1)).isLE := by
      rw [Std.OrientedCmp.isGE_eq_isLE] at hup
      exact Std.TransCmp.isLE_trans ho2 hup
    obtain ⟨u, hu, hkey, hne, hmark, hl, hr⟩ := makeUnion_eq h h2 h1 he2 he1 hle
      (r1.flags.containEmpty || r2.flags.containEmpty)
    exact ⟨u, by simpa using hu, hkey, hne, hmark, by simp [hlow, hl], by simp [hup, hr]⟩
  · have hle : (rangeCmpBounds typcache.cmp (lowerOf r1) (upperOf r2)).isLE :=
      Std.TransCmp.isLE_trans hlow ho2
    obtain ⟨u, hu, hkey, hne, hmark, hl, hr⟩ := makeUnion_eq h h1 h2 he1 he2 hle
      (r1.flags.containEmpty || r2.flags.containEmpty)
    exact ⟨u, by simpa using hu, hkey, hne, hmark, by simp [hlow, hl], by simp [hup, hr]⟩
  · by_cases hce : (r1.flags.containEmpty || !r2.flags.containEmpty) = true
    · refine ⟨r1, by simp [hce], h1, he1, ?_, by simp [hlow], by simp [hup]⟩
      cases h2ce : r2.flags.containEmpty <;> simp_all
    · obtain ⟨u, hu, hkey, hne, hmark, hl, hr⟩ := makeUnion_eq h h1 h1 he1 he1 ho1
        (r1.flags.containEmpty || r2.flags.containEmpty)
      exact ⟨u, by simpa [hce] using hu, hkey, hne, hmark, by simp [hlow, hl], by simp [hup, hr]⟩

/-- What covers an empty range has to record it. -/
theorem coversKey_of_empty {cmp : α → α → Ordering} {k x : RangeType α}
    (hx : x.flags.empty = true) : CoversKey cmp k x ↔ rangeIsOrContainsEmpty k = true := by
  constructor
  · intro h
    exact h.ofEmpty (by simp [rangeIsOrContainsEmpty, hx])
  · intro h
    exact ⟨fun _ => h, fun hne => by simp [hx] at hne⟩

theorem coversKey_setContainEmpty {cmp : α → α → Ordering} {k x : RangeType α} :
    CoversKey cmp k (rangeSetContainEmpty x) ↔
      rangeIsOrContainsEmpty k = true ∧ CoversKey cmp k x := by
  constructor
  · intro h
    have hk := h.ofEmpty (by simp [rangeIsOrContainsEmpty, rangeSetContainEmpty])
    exact ⟨hk, fun _ => hk, h.ofNonempty⟩
  · rintro ⟨hk, h⟩
    exact ⟨fun _ => hk, h.ofNonempty⟩

/-- A union of non-empty keys is covered by what covers both. -/
theorem IsUnion.covered_iff {cmp : α → α → Ordering} [Std.TransCmp cmp] {k : RangeType α}
    (he1 : r1.flags.empty = false) (he2 : r2.flags.empty = false) (hu : IsUnion cmp r1 r2 u) :
    CoversKey cmp k u ↔ CoversKey cmp k r1 ∧ CoversKey cmp k r2 := by
  simp only [coversKey_iff, rangeIsOrContainsEmpty, hu.nonempty, hu.marked, he1, he2, hu.lower,
    hu.upper, isLE_min_iff, max_isLE_iff, Bool.false_or, Bool.or_eq_true, forall_const]
  tauto

/-- The union of two keys is a key, and is covered by exactly what covers both. -/
theorem rangeSuperUnion_covered (h : typcache.Regular) (h1 : IsKey typcache r1)
    (h2 : IsKey typcache r2) :
    ∃ u, rangeSuperUnion typcache r1 r2 = .ok u ∧ IsKey typcache u ∧
      ∀ k, CoversKey typcache.cmp k u ↔
        CoversKey typcache.cmp k r1 ∧ CoversKey typcache.cmp k r2 := by
  have htrans := h.transCmp
  -- the union with an empty range only adds the bit
  have hmarked : ∀ x y : RangeType α, IsKey typcache x → y.flags.empty = true →
      IsKey typcache (if rangeIsOrContainsEmpty x then x else rangeSetContainEmpty x) ∧
      ∀ k, CoversKey typcache.cmp k (if rangeIsOrContainsEmpty x then x
          else rangeSetContainEmpty x) ↔
        CoversKey typcache.cmp k y ∧ CoversKey typcache.cmp k x := by
    intro x y hx hy
    split_ifs with hmark
    · refine ⟨hx, fun k => ?_⟩
      rw [coversKey_of_empty hy]
      exact ⟨fun hk => ⟨hk.ofEmpty hmark, hk⟩, And.right⟩
    · have hne : x.flags.empty = false := by
        simp only [rangeIsOrContainsEmpty, Bool.or_eq_true, not_or, Bool.not_eq_true] at hmark
        exact hmark.1
      refine ⟨hx.setContainEmpty hne, fun k => ?_⟩
      rw [coversKey_of_empty hy, coversKey_setContainEmpty]
  cases he1 : r1.flags.empty with
  | true =>
    obtain ⟨hkey, hcov⟩ := hmarked r2 r1 h2 he1
    exact ⟨_, rangeSuperUnion_of_empty he1, hkey, hcov⟩
  | false =>
    cases he2 : r2.flags.empty with
    | true =>
      obtain ⟨hkey, hcov⟩ := hmarked r1 r2 h1 he2
      refine ⟨_, rangeSuperUnion_of_empty_right he1 he2, hkey, fun k => ?_⟩
      rw [hcov, and_comm]
    | false =>
      obtain ⟨u, hu, hkey, hunion⟩ := rangeSuperUnion_of_nonempty h h1 h2 he1 he2
      exact ⟨u, hu, hkey, fun k => hunion.covered_iff he1 he2⟩

end Union

/-! ### The semilattice -/

section Semilattice

variable {typcache : TypeCacheEntry α}

/-- `range_super_union` computes least upper bounds. -/
theorem rangeSuperUnion_joinsOn (h : typcache.Regular) [Std.TransCmp typcache.cmp] :
    @JoinsOn (Key typcache.cmp) Fault _ (IsKey typcache) (rangeSuperUnion typcache) := by
  intro a b ha hb
  obtain ⟨u, hu, hkey, hcov⟩ := rangeSuperUnion_covered h ha hb
  refine ⟨u, hu, hkey, ?_, ?_⟩
  · obtain ⟨hua, hub⟩ := (hcov u).mp (CoversKey.refl _ u)
    rintro x (rfl | rfl)
    · exact hua
    · exact hub
  · intro c hc
    exact (hcov c).mpr ⟨hc (by simp), hc (by simp)⟩

/-- `range_gist_union` computes a least upper bound of the entries. -/
theorem rangeGistUnion_isLUB (h : typcache.Regular) [Std.TransCmp typcache.cmp]
    {l : List (RangeType α)} (hne : l ≠ []) (hl : ∀ k ∈ l, IsKey typcache k) :
    ∃ u, rangeGistUnion typcache l = .ok u ∧ IsKey typcache u ∧
      IsLUB {k : Key typcache.cmp | k ∈ l} u := by
  cases l with
  | nil => exact absurd rfl hne
  | cons ent entries =>
    exact (rangeSuperUnion_joinsOn h).foldlM entries ent (hl ent List.mem_cons_self)
      fun k hk => hl k (List.mem_cons_of_mem ent hk)

theorem toByte_injective {f g : RangeFlags} (h : f.toByte = g.toByte) : f = g := by
  rw [← RangeFlags.ofByte_toByte f, h, RangeFlags.ofByte_toByte]

omit [Inhabited α] in
/-- The flags of a key in terms of those of the value without the bit. -/
theorem flags_eq_of_clear {a b : RangeType α}
    (h : (clearContainEmpty a).flags = (clearContainEmpty b).flags)
    (hce : a.flags.containEmpty = b.flags.containEmpty) : a.flags = b.flags := by
  obtain ⟨⟨_, _, _, _, _, _, _, _⟩, _, _⟩ := a
  obtain ⟨⟨_, _, _, _, _, _, _, _⟩, _, _⟩ := b
  simp_all [clearContainEmpty]

/-- `range_gist_same` holds between keys that cover each other. -/
theorem rangeGistSame_iff [Std.TransCmp typcache.cmp] {a b : RangeType α}
    (ha : IsKey typcache a) (hb : IsKey typcache b) :
    rangeGistSame typcache a b = true ↔
      CoversKey typcache.cmp a b ∧ CoversKey typcache.cmp b a := by
  have hsame : rangeGistSame typcache a b = true ↔
      a.flags = b.flags ∧ rangeEqInternal typcache.cmp a b = true := by
    by_cases hbyte : a.flags.toByte = b.flags.toByte
    · simp [rangeGistSame, toByte_injective hbyte]
    · have hflags : a.flags ≠ b.flags := fun h => hbyte (by rw [h])
      simp [rangeGistSame, hbyte, hflags]
  rw [hsame, coversKey_iff, coversKey_iff]
  constructor
  · rintro ⟨hflags, heq⟩
    simp only [rangeIsOrContainsEmpty, hflags, imp_self, true_and]
    rcases rangeEqInternal_iff.mp heq with ⟨-, hbe⟩ | ⟨-, hbe, hl, hu⟩
    · simp [hbe]
    · have hl' := Std.OrientedCmp.eq_symm hl
      have hu' := Std.OrientedCmp.eq_symm hu
      simp [hbe, hl, hu, hl', hu']
  · rintro ⟨⟨hempty, hab⟩, hempty', hba⟩
    have he : a.flags.empty = b.flags.empty := by
      cases hbe : b.flags.empty with
      | false => exact (hab hbe).1
      | true =>
        by_contra hae
        simp only [Bool.not_eq_true] at hae
        simp [(hba hae).1] at hbe
    have heq : rangeEqInternal typcache.cmp a b = true := by
      rw [rangeEqInternal_iff]
      cases hbe : b.flags.empty with
      | true => exact Or.inl ⟨he.trans hbe, rfl⟩
      | false =>
        obtain ⟨hae, hl, hu⟩ := hab hbe
        obtain ⟨-, hl', hu'⟩ := hba hae
        exact Or.inr ⟨hae, rfl, Std.OrientedCmp.isLE_antisymm hl hl',
          Std.OrientedCmp.isLE_antisymm hu' hu⟩
    refine ⟨flags_eq_of_clear (flags_eq_of_rangeEq ha.wellFormed hb.wellFormed heq) ?_, heq⟩
    -- the bit itself: an empty key has none, another records by it alone
    cases hbe : b.flags.empty with
    | true => rw [ha.emptyAlone (he.trans hbe), hb.emptyAlone hbe]
    | false =>
      simp only [rangeIsOrContainsEmpty, he, hbe, Bool.false_or] at hempty hempty'
      exact Bool.eq_iff_iff.mpr ⟨hempty', hempty⟩

/-- Keys of a regular type form a join semilattice up to `range_gist_same`. Unions never
fail, stay keys, and cover exactly what has to be covered; the order in which the
entries of a page are merged does not matter; and a parent key that is the same as its
union with another key covers that key. -/
theorem rangeSuperUnion_semilattice (h : typcache.Regular) :
    (∀ a b, IsKey typcache a → IsKey typcache b →
      ∃ u, rangeSuperUnion typcache a b = .ok u ∧ IsKey typcache u ∧
        CoversKey typcache.cmp u a ∧ CoversKey typcache.cmp u b ∧
        ∀ k, IsKey typcache k → CoversKey typcache.cmp k a → CoversKey typcache.cmp k b →
          CoversKey typcache.cmp k u) ∧
    (∀ a b u v, IsKey typcache a → IsKey typcache b → rangeSuperUnion typcache a b = .ok u →
      rangeSuperUnion typcache b a = .ok v → rangeGistSame typcache u v = true) ∧
    (∀ a b c ab bc u v, IsKey typcache a → IsKey typcache b → IsKey typcache c →
      rangeSuperUnion typcache a b = .ok ab → rangeSuperUnion typcache ab c = .ok u →
      rangeSuperUnion typcache b c = .ok bc → rangeSuperUnion typcache a bc = .ok v →
      rangeGistSame typcache u v = true) ∧
    (∀ a u, IsKey typcache a → rangeSuperUnion typcache a a = .ok u →
      rangeGistSame typcache u a = true) ∧
    (∀ l l', l ≠ [] → (∀ k ∈ l, IsKey typcache k) → l.Perm l' →
      ∃ u v, rangeGistUnion typcache l = .ok u ∧ rangeGistUnion typcache l' = .ok v ∧
        rangeGistSame typcache u v = true) ∧
    ∀ k x u, IsKey typcache k → IsKey typcache x → rangeSuperUnion typcache k x = .ok u →
      rangeGistSame typcache k u = true → CoversKey typcache.cmp k x := by
  have htrans := h.transCmp
  have hjoin := rangeSuperUnion_joinsOn h
  refine ⟨?_, ?_, ?_, ?_, ?_, ?_⟩
  · intro a b ha hb
    obtain ⟨u, hu, hkey, hcov⟩ := rangeSuperUnion_covered h ha hb
    obtain ⟨hua, hub⟩ := (hcov u).mp (CoversKey.refl _ u)
    exact ⟨u, hu, hkey, hua, hub, fun k _ hka hkb => (hcov k).mpr ⟨hka, hkb⟩⟩
  · -- keys that are least upper bounds of the same keys cover each other
    intro a b u v ha hb hu hv
    refine (rangeGistSame_iff (hjoin.isLUB ha hb hu).1 (hjoin.isLUB hb ha hv).1).mpr ⟨?_, ?_⟩
    · exact hjoin.comm hb ha hv hu
    · exact hjoin.comm ha hb hu hv
  · intro a b c ab bc u v ha hb hc hab hu hbc hv
    obtain ⟨huv, hvu⟩ := hjoin.assoc ha hb hc hab hu hbc hv
    have hkeyab := (hjoin.isLUB ha hb hab).1
    have hkeybc := (hjoin.isLUB hb hc hbc).1
    exact (rangeGistSame_iff (hjoin.isLUB hkeyab hc hu).1 (hjoin.isLUB ha hkeybc hv).1).mpr
      ⟨hvu, huv⟩
  · intro a u ha hu
    obtain ⟨hua, hau⟩ := hjoin.idem ha hu
    exact (rangeGistSame_iff (hjoin.isLUB ha ha hu).1 ha).mpr ⟨hau, hua⟩
  · intro l l' hne hl hperm
    have hl' : ∀ k ∈ l', IsKey typcache k := fun k hk => hl k (hperm.mem_iff.mpr hk)
    obtain ⟨u, hu, hkeyu, hlubu⟩ := rangeGistUnion_isLUB h hne hl
    obtain ⟨v, hv, hkeyv, hlubv⟩ := rangeGistUnion_isLUB h
      (fun hnil => hne (List.perm_nil.mp (hnil ▸ hperm))) hl'
    -- both unions are least upper bounds of one set
    have hset : {k : Key typcache.cmp | k ∈ l} = {k | k ∈ l'} := by
      ext k
      exact hperm.mem_iff
    rw [hset] at hlubu
    refine ⟨u, v, hu, hv, (rangeGistSame_iff hkeyu hkeyv).mpr ⟨?_, ?_⟩⟩
    · exact le_of_isLUB hlubv hlubu
    · exact le_of_isLUB hlubu hlubv
  · intro k x u hk hx hu hsame
    obtain ⟨hkey, hub⟩ := hjoin.isLUB hk hx hu
    have hku := ((rangeGistSame_iff hk hkey).mp hsame).1
    exact hku.trans (hub.1 (Or.inr rfl))

end Semilattice

/-- The canonical `int4range` values are keys. -/
theorem isKey_int4Between {a b : ℤ} (hab : a < b) : IsKey int4range (int4Between a b) := by
  have hle : (rangeCmpBounds btintcmp (⟨a, false, true, true⟩ : RangeBound ℤ)
      ⟨b, false, false, false⟩).isLE :=
    (lower_isLE_upper_iff rfl rfl).mpr (Or.inl (compareInt_lt_iff.mpr hab))
  have hwf : WellFormed btintcmp (int4Between a b) := wellFormed_packRange rfl rfl hle
  refine IsKey.ofValue hwf ?_
  rintro canonical hcanon -
  obtain rfl := Option.some.inj hcanon
  rw [int4rangeCanonical, intRangeCanonical_eq_step, stepCanonical_eq_self_iff hwf rfl]
  exact ⟨Or.inr (Or.inr rfl), Or.inr (Or.inr rfl)⟩

/-- The union of `[1,3)` and the empty range is a parent key for both, in either order, and it is the
same with itself. -/
theorem rangeSuperUnion_semilattice_int4range :
    ∃ u v w, rangeSuperUnion int4range (int4Between 1 3) emptyRange = .ok u ∧
      CoversKey int4range.cmp u (int4Between 1 3) ∧ CoversKey int4range.cmp u emptyRange ∧
      rangeSuperUnion int4range emptyRange (int4Between 1 3) = .ok v ∧
      rangeGistSame int4range u v = true ∧
      rangeSuperUnion int4range u u = .ok w ∧ rangeGistSame int4range w u = true := by
  have hrange : IsKey int4range (int4Between 1 3) := isKey_int4Between (by decide)
  have hempty : IsKey int4range emptyRange :=
    IsKey.ofValue (wellFormed_emptyRange _) fun _ _ hne => by simp [emptyRange] at hne
  obtain ⟨hunion, hcomm, -, hidem, -, -⟩ := rangeSuperUnion_semilattice .int4range
  obtain ⟨u, hu, hkey, h1, h2, -⟩ := hunion _ _ hrange hempty
  obtain ⟨v, hv, -⟩ := hunion _ _ hempty hrange
  obtain ⟨w, hw, -⟩ := hunion _ _ hkey hkey
  exact ⟨u, v, w, hu, h1, h2, hv, hcomm _ _ u v hrange hempty hu hv, hw, hidem u w hkey hw⟩

end PgRange.Gist
