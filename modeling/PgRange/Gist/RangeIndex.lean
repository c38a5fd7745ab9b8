import PgRange.Gist.IndexScan
import PgRange.Gist.Insertion
import PgRange.Gist.Penalty
import PgRange.Gist.PickSplit

/-!
# Indexes on range columns

The support functions of the range operator class are what the core expects of a column: unions are
least upper bounds, equal keys cover each other, and a split places each key once. So what was shown
about the core holds for indexes on range columns. A row goes below a downlink that covers it
without a change of the keys, if there is one, a page that has become too full is split, and a scan
finds the rows that were inserted.

## Main definitions

* `RangeColumn`, `rangeColumn`, `rangeGistState` — the columns of an index, of any range types
* `AtHome` — a downlink under which a row goes without any change of the keys
* `Condition` — a condition of a scan
* `rangeIndexKind` — the indexes on ranges with two bounds

## Main results

* `rangeColumn_lawful` — the range operator class does what the core expects
* `rangeIndex_choose` — an insertion goes where its row is at home, if there is such a downlink
* `rangeIndex_split` — a page with small enough tuples is split
* `rangeIndex_getbitmap` — scans find what calls have inserted, though other calls have failed
* `rangeIndex_insert` — an insertion that nothing disturbs returns
-/

set_option autoImplicit false

namespace PgRange.Gist

open Math

/-! ### The columns -/

/-- A column of an index: a range type on which the functions behave well. -/
structure RangeColumn where
  elem : Type
  inhabited : Inhabited elem
  typcache : TypeCacheEntry elem
  regular : typcache.Regular

attribute [instance] RangeColumn.inhabited

/-- The keys of a column. -/
def RangeColumn.Key (c : RangeColumn) : Type := Gist.Key c.typcache.cmp

instance (c : RangeColumn) : Preorder c.Key :=
  haveI := c.regular.transCmp
  inferInstanceAs (Preorder (Gist.Key c.typcache.cmp))

/-- The keys that are in the index. -/
def RangeColumn.Valid (c : RangeColumn) (key : c.Key) : Prop := IsKey c.typcache key

/-- The support functions of the range operator class. A page has far less than `65535` entries. -/
def rangeColumn (q : Qsort) (c : RangeColumn) : GistColumn c.Key where
  unionFn := rangeGistUnion c.typcache
  penaltyFn := rangeGistPenalty c.typcache
  picksplitFn keys :=
    if h : keys.length < 65535 then
      (rangeGistPicksplit q c.typcache ⟨keys, h⟩).map fun v => (v.left, v.right)
    else .error .outOfFuel
  equalFn := rangeGistSame c.typcache

variable {n : ℕ} {columns : Fin n → RangeColumn}

/-- The state of an index on range columns. -/
def rangeGistState (q : Qsort) (columns : Fin n → RangeColumn)
    (formSize : KeyVector (fun j => (columns j).Key) → ℕ) : GistState fun j => (columns j).Key where
  column j := rangeColumn q (columns j)
  formSize := formSize

/-- The keys that are in the columns of the index. -/
def validKey (columns : Fin n → RangeColumn) (j : Fin n) (key : (columns j).Key) : Prop :=
  (columns j).Valid key

/-- The range of a side covers just the keys on this side. -/
theorem SplitSide.Unites.isUnion {c : RangeColumn} {keys : List (RangeType c.elem)}
    {hsmall : keys.length < 65535} (hkeys : ∀ k ∈ keys, IsKey c.typcache k)
    {side : SplitSide (RangeType c.elem)}
    (hoffs : ∀ off ∈ side.offsets, off ∈ List.range' 1 keys.length)
    (h : side.Unites c.typcache ⟨keys, hsmall⟩) :
    SplitSide.IsUnion (κ := c.Key) c.Valid keys side := by
  intro u hu
  have htrans := c.regular.transCmp
  obtain ⟨hunion, hkey⟩ := h u hu
  let entryvec : GistEntryVector c.elem := ⟨keys, hsmall⟩
  have hdefined := side.defined
  have hne : side.offsets.map entryvec.key ≠ [] := by
    intro hnil
    rw [List.map_eq_nil_iff.mp hnil] at hdefined
    rw [show side.datum = some u from hu] at hdefined
    cases hdefined
  have hvalid : ∀ k ∈ side.offsets.map entryvec.key, IsKey c.typcache k := by
    intro k hk
    obtain ⟨off, hoff, rfl⟩ := List.mem_map.mp hk
    exact hkeys _ (entryvec.key_mem (hoffs off hoff))
  obtain ⟨u', hu', -, hlub⟩ := rangeGistUnion_isLUB c.regular hne hvalid
  obtain rfl : u' = u := Except.ok.inj (hu'.symm.trans hunion)
  have hiff : ∀ x : RangeType c.elem,
      (∃ off ∈ side.offsets, keys[off - 1]? = some x) ↔ x ∈ side.offsets.map entryvec.key := by
    intro x
    rw [List.mem_map]
    refine exists_congr fun off => and_congr_right fun hoff => ?_
    have hlt : off - 1 < keys.length := by
      have := List.mem_range'_1.mp (hoffs off hoff)
      omega
    have hkey : entryvec.key off = keys[off - 1] := by
      simp [GistEntryVector.key, entryvec, hlt]
    rw [hkey, List.getElem?_eq_getElem hlt, Option.some.injEq]
  exact ⟨hkey, fun x hx => hlub.1 ((hiff x).mp hx), fun b hb =>
    hlub.2 fun x hx => hb ((hiff x).mpr hx)⟩

theorem rangeColumn_lawful (q : Qsort) (c : RangeColumn) : (rangeColumn q c).Lawful c.Valid where
  union keys hne hvalid := by
    have htrans := c.regular.transCmp
    exact rangeGistUnion_isLUB c.regular hne hvalid
  equal a b ha hb := by
    have htrans := c.regular.transCmp
    exact (rangeGistSame_iff ha hb).trans and_comm
  picksplit keys htwo hsmall hvalid := by
    let entryvec : GistEntryVector c.elem := ⟨keys, hsmall⟩
    have hplaces : PlacesAll c.typcache entryvec (rangeGistPicksplit q c.typcache entryvec) _ :=
      rangeGistPicksplit_placesAll c.regular q htwo hvalid
    obtain ⟨v, hv, hperm, hleft, hright, -⟩ := hplaces.result c.regular hvalid
    refine ⟨v.left, v.right, ?_, hperm, ?_, ?_⟩
    · simp only [rangeColumn, hsmall, dif_pos]
      exact congrArg (Except.map _) hv
    · exact hleft.isUnion hvalid fun off hoff => hperm.mem_iff.mp (List.mem_append_left _ hoff)
    · exact hright.isUnion hvalid fun off hoff => hperm.mem_iff.mp (List.mem_append_right _ hoff)

theorem rangeGistState_lawful (q : Qsort) (columns : Fin n → RangeColumn)
    (formSize : KeyVector (fun j => (columns j).Key) → ℕ) :
    (rangeGistState q columns formSize).Lawful (validKey columns) := fun j =>
  rangeColumn_lawful q (columns j)

/-! ### Choosing a downlink -/

section Choosing

variable {q : Qsort} {formSize : KeyVector (fun j => (columns j).Key) → ℕ}
  {it down : IndexTuple fun j => (columns j).Key}

/-- A row is at home in the keys of a downlink: in every column both are NULL, or the range is of
the kind of the key and covered by it. -/
def AtHome (down it : IndexTuple fun j => (columns j).Key) : Prop :=
  ∀ j, (it.keys j = none ∧ down.keys j = none) ∨ ∃ new orig, it.keys j = some new ∧
    down.keys j = some orig ∧ SameKind orig new ∧ CoversKey (columns j).typcache.cmp orig new

theorem AtHome.keys_le (h : AtHome down it) : it.keys ≤ down.keys := by
  rw [KeyVector.le_iff]
  intro j k hk
  rcases h j with ⟨hnone, -⟩ | ⟨new, orig, hnew, horig, -, hcovers⟩
  · rw [hnone] at hk
    cases hk
  · obtain rfl := Option.some.inj (hnew.symm.trans hk)
    exact ⟨orig, horig, hcovers⟩

/-- The core takes the penalty of the range operator class as it is. -/
theorem gistpenalty_range (j : Fin n) (orig new : (columns j).Key) :
    gistpenalty (rangeGistState q columns formSize) j (some orig) (some new) =
      rangeGistPenalty (columns j).typcache orig new := by
  have hcost : (rangeGistPenalty (columns j).typcache orig new).IsCost :=
    rangeGistPenalty_nonneg _ _ _
  change (if (rangeGistPenalty (columns j).typcache orig new).isNan ||
    (rangeGistPenalty (columns j).typcache orig new).lt (.fin 0) then _ else _) = _
  have hnan : (rangeGistPenalty (columns j).typcache orig new).isNan = false := by
    rcases hcost with h | ⟨x, -, h⟩
    · rw [h]
      rfl
    · rw [h]
      rfl
  rw [hnan, hcost.not_neg]
  rfl

/-- A downlink costs nothing exactly if the row is at home there. -/
theorem penalties_eq_zero_iff (hmeasured : ∀ j, Measured (columns j).typcache)
    (hdown : ValidKeys (validKey columns) down.keys) (hit : ValidKeys (validKey columns) it.keys)
    (hrow : ∀ j (k : RangeType (columns j).elem), it.keys j = some k →
      k.flags.containEmpty = false) :
    (penalties (rangeGistState q columns formSize) it down = fun _ => .fin 0) ↔ AtHome down it := by
  rw [funext_iff]
  refine forall_congr' fun j => ?_
  unfold penalties
  cases hnew : it.keys j with
  | none =>
    cases horig : down.keys j with
    | none => simp [gistpenalty]
    | some orig => simp [gistpenalty]
  | some new =>
    cases horig : down.keys j with
    | none => simp [gistpenalty]
    | some orig =>
      rw [gistpenalty_range, rangeGistPenalty_eq_zero_iff (hmeasured j) (hdown j orig horig)
        (hit j new hnew) (hrow j new hnew)]
      simp

/-- If a row is at home in some downlink of a page, then `gistchoose` chooses one in which it is,
for any random numbers, and `gistgetadjusted` leaves this downlink alone. -/
theorem rangeIndex_choose (hmeasured : ∀ j, Measured (columns j).typcache) (random : ℕ → Bool)
    (uninitialized : ℕ → FloatQ) {p : List (IndexTuple fun j => (columns j).Key)}
    (hp : ∀ t ∈ p, ValidKeys (validKey columns) t.keys)
    (hit : ValidKeys (validKey columns) it.keys)
    (hrow : ∀ j (k : RangeType (columns j).elem), it.keys j = some k →
      k.flags.containEmpty = false)
    (hhome : ∃ t ∈ p, AtHome t it) :
    ∃ t, p[gistchoose (rangeGistState q columns formSize) random uninitialized p it - 1]? =
        some t ∧ AtHome t it ∧
      gistgetadjusted (rangeGistState q columns formSize) t it = .ok none := by
  obtain ⟨other, hother, hothome⟩ := hhome
  obtain ⟨t, -, hchosen, hbest⟩ := exists_gistchoose (rangeGistState q columns formSize) random
    uninitialized (List.ne_nil_of_mem hother) it
  have htmem := List.mem_of_getElem? hchosen
  have hle := hbest other hother
  rw [(penalties_eq_zero_iff hmeasured (hp other hother) hit hrow).mpr hothome] at hle
  have hthome := (penalties_eq_zero_iff hmeasured (hp t htmem) hit hrow).mp
    (hle.eq_zero fun j => gistpenalty_isCost _ j _ _)
  refine ⟨t, hchosen, hthome, ?_⟩
  obtain ⟨-, -, -, hnone, -⟩ :=
    gistgetadjusted_spec (rangeGistState_lawful q columns formSize) (hp t htmem) hit
  exact hnone hthome.keys_le

end Choosing

/-- An index on a column of type `int4range`. -/
def int4Columns : Fin 1 → RangeColumn := fun _ => ⟨ℤ, inferInstance, int4range, .int4range⟩

def int4Index : GistState fun j => (int4Columns j).Key :=
  rangeGistState .insertion int4Columns fun _ => 24

def oneRow : IndexTuple fun j => (int4Columns j).Key :=
  ⟨fun _ => some (int4Between 1 3), ⟨0, 1⟩, 24⟩

/-- Two downlinks, one of which covers the row. -/
def twoDownlinks : List (IndexTuple fun j => (int4Columns j).Key) :=
  [⟨fun _ => some (int4Between 5 9), ⟨1, 0xffff⟩, 24⟩,
    ⟨fun _ => some (int4Between 0 4), ⟨2, 0xffff⟩, 24⟩]

theorem valid_of_mem_twoDownlinks {t : IndexTuple fun j => (int4Columns j).Key}
    (ht : t ∈ twoDownlinks) : ValidKeys (validKey int4Columns) t.keys := by
  intro j k hk
  rcases List.mem_pair.mp ht with rfl | rfl
  · obtain rfl := Option.some.inj hk
    exact isKey_int4Between (by decide)
  · obtain rfl := Option.some.inj hk
    exact isKey_int4Between (by decide)

theorem rangeIndex_choose_twoDownlinks :
    ∃ t, twoDownlinks[gistchoose int4Index (fun _ => true) (fun _ => .nan) twoDownlinks oneRow -
        1]? = some t ∧ AtHome t oneRow ∧ gistgetadjusted int4Index t oneRow = .ok none := by
  refine rangeIndex_choose (fun _ => .int4range) _ _ (fun _ => valid_of_mem_twoDownlinks) ?_ ?_
    ⟨_, List.mem_cons_of_mem _ List.mem_cons_self, ?_⟩
  · rintro j k ⟨⟩
    exact isKey_int4Between (by decide)
  · rintro j k ⟨⟩
    rfl
  · refine fun _ => .inr ⟨int4Between 1 3, int4Between 0 4, rfl, rfl, ⟨rfl, rfl, rfl⟩, ?_, ?_⟩
    · intro hempty
      cases hempty
    · intro _
      exact ⟨rfl, show rangeContainsInternal int4range.cmp (int4Between 0 4)
        (int4Between 1 3) = true by decide⟩

/-! ### Splitting a page -/

section Splitting

variable {q : Qsort} {formSize : KeyVector (fun j => (columns j).Key) → ℕ}
  {itup : List (IndexTuple fun j => (columns j).Key)} {depth : ℕ}

/-- A page of an index on range columns can be split if each tuple is small enough, and so is the
downlink that `index_form_tuple` builds for the union of any part of them. The parts have the tuples
of the page, each part fits on a page, and it has a downlink with the least keys that cover it. -/
theorem rangeIndex_split (hn : 0 < n)
    (hform : ∀ part keys, (∀ it ∈ part, it ∈ itup) → Unites part keys →
      formSize keys ≤ indexSizeMask)
    (hvalid : ∀ it ∈ itup, ValidKeys (validKey columns) it.keys)
    (hsmall : ∀ it ∈ itup, Splittable it) (htwo : 2 ≤ itup.length) (hmax : itup.length < 65535)
    (hdepth : itup.length ≤ depth) :
    ∃ pages, gistSplit (rangeGistState q columns formSize) depth itup = .ok pages ∧
      PagesOf (validKey columns) itup pages := by
  have hlawful := rangeGistState_lawful q columns formSize
  obtain ⟨pages, hpages⟩ := exists_gistSplit hlawful hn hform hvalid hsmall htwo hmax hdepth
  exact ⟨pages, hpages, gistSplit_pagesOf hlawful hn hvalid
    (List.ne_nil_of_length_pos (by omega)) hmax hpages⟩

end Splitting

theorem rangeIndex_split_twoDownlinks : ∃ pages, gistSplit int4Index 2 twoDownlinks = .ok pages ∧
    PagesOf (validKey int4Columns) twoDownlinks pages := by
  refine rangeIndex_split Nat.one_pos (fun _ _ _ _ => by decide)
    (fun _ => valid_of_mem_twoDownlinks)
    ?_ (by decide) (by decide) (by decide)
  intro t ht
  rcases List.mem_pair.mp ht with rfl | rfl
  · exact ⟨by decide, fun _ _ hnull => nomatch hnull⟩
  · exact ⟨by decide, fun _ _ hnull => nomatch hnull⟩

/-- Two rows without a range, which their included columns make too big for one page. -/
theorem gistSplit_of_null_int4 : gistSplit int4Index 100
    [⟨.missing, ⟨0, 1⟩, 5000⟩, ⟨.missing, ⟨0, 2⟩, 5000⟩] = .error .stackDepth := by
  refine gistSplit_of_null Nat.one_pos (show 24 ≤ indexSizeMask by decide) ?_
    (by decide) (by decide) (by decide) 100
  intro it hit
  rcases List.mem_pair.mp hit with rfl | rfl
  · rfl
  · rfl

/-! ### Insertions and scans -/

/-- A condition of a scan: an operator with its right operand. -/
structure Condition (columns : Fin n → RangeColumn) where
  attno : Fin n
  strategy : Strategy
  query : strategy.Query (columns attno).elem

/-- The scan key of a condition. -/
def Condition.scanKey (cond : Condition columns) : ScanKey fun j => (columns j).Key :=
  .operator cond.attno fun isLeaf key =>
    rangeGistConsistent (columns cond.attno).typcache cond.strategy isLeaf key cond.query

/-- The operand is a value of its type, and the type is one on which the operators do not fail. -/
def Condition.Proper (cond : Condition columns) : Prop :=
  (columns cond.attno).typcache.Indexable ∧
    cond.strategy.IsQuery (columns cond.attno).typcache cond.query

/-- The keys satisfy the condition, which a NULL does not. -/
def Condition.Holds (cond : Condition columns) (keys : KeyVector fun j => (columns j).Key) : Prop :=
  ∃ range, keys cond.attno = some range ∧
    rangeGistConsistentLeaf (columns cond.attno).typcache cond.strategy range cond.query = .ok true

theorem Condition.Proper.lawful_scanKey {cond : Condition columns} (h : cond.Proper) :
    cond.scanKey.Lawful (validKey columns) :=
  ⟨fun isLeaf _ hk => rangeGistConsistent_total h.1 cond.strategy isLeaf cond.query h.2
    (IsKey.isValue h.1 hk), fun _ _ hk hk' hle hleaf => consistentInt_of_consistentLeaf h.1
      cond.strategy cond.query h.2 (IsKey.isValue h.1 hk') (IsKey.isValue h.1 hk)
      (CoversKey.covers hle) hleaf⟩

theorem Condition.test_iff (cond : Condition columns) (row : IndexTuple fun j => (columns j).Key) :
    cond.scanKey.test true row = .ok true ↔ cond.Holds row.keys := by
  rw [Condition.scanKey, ScanKey.test, Condition.Holds]
  cases row.keys cond.attno with
  | none => simp
  | some range => simp [rangeGistConsistent]

/-- The test on a leaf is that of the conditions. -/
theorem testAll_iff (conds : List (Condition columns))
    (row : IndexTuple fun j => (columns j).Key) :
    testAll true row (conds.map Condition.scanKey) = .ok true ↔
      ∀ cond ∈ conds, cond.Holds row.keys := by
  induction conds with
  | nil => simp [testAll]
  | cons cond conds ih =>
    rw [List.map_cons, testAll, bind_eq_ok_iff, List.forall_mem_cons, ← ih, ← cond.test_iff row]
    constructor
    · rintro ⟨test, htest, hrest⟩
      cases test with
      | false => cases hrest
      | true => exact ⟨htest, hrest⟩
    · rintro ⟨htest, hrest⟩
      exact ⟨true, htest, hrest⟩

/-- A range with two bounds that is not empty. All such ranges take the same space, if the elements
do. -/
structure IsFinite {α : Type} [Inhabited α] (typcache : TypeCacheEntry α) (r : RangeType α) :
    Prop where
  key : IsKey typcache r
  nonempty : r.flags.empty = false
  lower : r.flags.lbInf = false
  upper : r.flags.ubInf = false

/-- There is such a range in every column. -/
def FiniteKeys (keys : KeyVector fun j => (columns j).Key) : Prop :=
  ∀ j, ∃ r, keys j = some r ∧ IsFinite (columns j).typcache r

section Finite

variable {c : RangeColumn}

/-- A key between finite ones is finite. -/
theorem IsFinite.of_covers {u r b : RangeType c.elem} (hu : IsKey c.typcache u)
    (hr : r.flags.empty = false) (hb : IsFinite c.typcache b)
    (hur : CoversKey c.typcache.cmp u r) (hbu : CoversKey c.typcache.cmp b u) :
    IsFinite c.typcache u := by
  have htrans := c.regular.transCmp
  have hne := (hur.ofNonempty hr).1
  obtain ⟨-, hlower, hupper⟩ := (coversKey_iff.mp hbu).2 hne
  refine ⟨hu, hne, ?_, ?_⟩
  · by_contra hinf
    exact absurd (infinite_of_isLE_lower rfl (by simpa using hinf) hlower) (by simp [hb.lower])
  · by_contra hinf
    exact absurd (infinite_of_isLE_upper rfl (by simpa using hinf) hupper) (by simp [hb.upper])

/-- Finite ranges are covered by a finite one. -/
theorem exists_isFinite {l : List (RangeType c.elem)} (hne : l ≠ [])
    (hl : ∀ r ∈ l, IsFinite c.typcache r) :
    ∃ b, IsFinite c.typcache b ∧ ∀ r ∈ l, CoversKey c.typcache.cmp b r := by
  have htrans := c.regular.transCmp
  induction l with
  | nil => exact absurd rfl hne
  | cons r l ih =>
    have hr := hl r List.mem_cons_self
    by_cases hnil : l = []
    · subst hnil
      exact ⟨r, hr, by simpa using CoversKey.refl _ r⟩
    · obtain ⟨b, hb, hall⟩ := ih hnil fun r hr => hl r (List.mem_cons_of_mem _ hr)
      obtain ⟨u, -, hukey, hu⟩ :=
        rangeSuperUnion_of_nonempty c.regular hr.key hb.key hr.nonempty hb.nonempty
      obtain ⟨hur, hub⟩ := (hu.covered_iff hr.nonempty hb.nonempty).mp (CoversKey.refl _ u)
      have hlower : (lowerOf u).infinite = false := by
        rw [hu.lower]
        split_ifs
        · exact hr.lower
        · exact hb.lower
      have hupper : (upperOf u).infinite = false := by
        rw [hu.upper]
        split_ifs
        · exact hr.upper
        · exact hb.upper
      refine ⟨u, ⟨hukey, hu.nonempty, hlower, hupper⟩, fun r' hr' => ?_⟩
      rcases List.mem_cons.mp hr' with rfl | hr'
      · exact hur
      · exact hub.trans (hall r' hr')

end Finite

theorem finiteKeys_int4Between {a b : ℤ} (hab : a < b) :
    FiniteKeys (fun _ => some (int4Between a b) : KeyVector fun j => (int4Columns j).Key) :=
  fun _ => ⟨_, rfl, isKey_int4Between hab, rfl, rfl, rfl⟩

/-- A call that inserts the range `[1,3)`. -/
def int4Call (fuel : ℕ) (conflict : Bool) : Call fun j => (int4Columns j).Key :=
  ⟨⟨int4Index, 1, 0, fun _ _ => true, fun _ _ => .nan, fun _ => conflict⟩, fuel,
    fun _ => some (int4Between 1 3), ⟨0, 1⟩⟩

theorem proper_int4Call (fuel : ℕ) (conflict : Bool) :
    (int4Call fuel conflict).Proper int4Index FiniteKeys :=
  ⟨rfl, finiteKeys_int4Between (by decide), show (1 : ℕ) ≠ 0xfffe by decide⟩

/-- A call that fails, and one that returns. -/
def int4Calls : List (Call fun j => (int4Columns j).Key) := [int4Call 9 true, int4Call 9 false]

theorem proper_int4Calls : ∀ call ∈ int4Calls, call.Proper int4Index FiniteKeys := by
  simpa [int4Calls] using ⟨proper_int4Call 9 true, proper_int4Call 9 false⟩

theorem formSize_int4Index : ∀ keys, FiniteKeys keys → int4Index.formSize keys = 24 :=
  fun _ _ => rfl

section Calls

variable {q : Qsort} {formSize : KeyVector (fun j => (columns j).Key) → ℕ} {size : ℕ}
  {calls : List (Call fun j => (columns j).Key)} (hn : 0 < n)
  (hsize : ∀ keys, FiniteKeys keys → formSize keys = size)
  (hroom : 2 * (size + 4) + 4 ≤ gistPageSize)

/-- An index on range columns with finite ranges. -/
def rangeIndexKind (q : Qsort) :
    IndexKind (rangeGistState q columns formSize) (validKey columns) where
  lawful := rangeGistState_lawful q columns formSize
  columns := hn
  Keys := FiniteKeys
  size := size
  formSize := hsize _
  room := hroom
  validKeys {keys} hkeys j k hk := by
    obtain ⟨r, hr, hfinite⟩ := hkeys j
    obtain rfl := Option.some.inj (hr.symm.trans hk)
    exact hfinite.key
  notNull {keys} hkeys j hnone := by
    obtain ⟨r, hr, -⟩ := hkeys j
    rw [hnone] at hr
    cases hr
  unites {itvec keys} hne hfinite hvalid hunites j := by
    obtain ⟨first, hfirst⟩ := List.exists_mem_of_ne_nil _ hne
    -- the keys are covered by finite ones
    have hbound : ∀ j, ∃ b : (columns j).Key, IsFinite (columns j).typcache b ∧
        ∀ it ∈ itvec, ∀ r, it.keys j = some r → r ≤ b := by
      intro j
      have hfin : ∀ k ∈ columnKeys itvec j, IsFinite (columns j).typcache k := by
        intro k hk
        obtain ⟨it, hit, hk⟩ := mem_columnKeys.mp hk
        obtain ⟨r, hr, hfin⟩ := hfinite it hit j
        obtain rfl := Option.some.inj (hr.symm.trans hk)
        exact hfin
      obtain ⟨r, hr, -⟩ := hfinite first hfirst j
      obtain ⟨b, hb, hall⟩ := exists_isFinite (c := columns j)
        (List.ne_nil_of_mem (mem_columnKeys.mpr ⟨first, hfirst, hr⟩)) hfin
      exact ⟨b, hb, fun it hit r hr => hall r (mem_columnKeys.mpr ⟨it, hit, hr⟩)⟩
    choose b hb hall using hbound
    have hle : keys ≤ fun j => some (b j) := hunites.2 <| by
      rintro _ ⟨it, hit, rfl⟩
      exact KeyVector.le_iff.mpr fun j r hr => ⟨b j, rfl, hall j it hit r hr⟩
    obtain ⟨r, hr, hrfin⟩ := hfinite first hfirst j
    obtain ⟨u, hu, hur⟩ := KeyVector.le_iff.mp (hunites.1 ⟨first, hfirst, rfl⟩) j r hr
    obtain ⟨b', hb', hub⟩ := KeyVector.le_iff.mp hle j u hu
    obtain rfl := Option.some.inj hb'
    exact ⟨u, hu, .of_covers (hvalid j u hu) hrfin.nonempty (hb j) hur hub⟩

include hn hsize hroom in
/-- Finite ranges are inserted one after the other into an empty index on range columns. Any of the
insertions may fail in the middle, for a conflict or since the depth of the stack is exceeded. Then
a scan returns all rows that satisfy its conditions and whose insertion has returned, and no others
but those of some that failed. -/
theorem rangeIndex_getbitmap
    (hcalls : ∀ call ∈ calls, call.Proper (rangeGistState q columns formSize) FiniteKeys)
    {conds : List (Condition columns)} (hconds : ∀ cond ∈ conds, cond.Proper) :
    ∃ fuel rows, gistgetbitmap (runCalls calls .empty).2 (conds.map Condition.scanKey) fuel =
        .ok rows ∧
      (∀ call ∈ (runCalls calls .empty).1, (∀ cond ∈ conds, cond.Holds call.values) →
        call.row ∈ rows) ∧
      ∀ row ∈ rows, ∃ call ∈ calls, row = call.row ∧ ∀ cond ∈ conds, cond.Holds call.values := by
  let kind := rangeIndexKind hn hsize hroom q
  obtain ⟨added, hdone, hfrom, ⟨level, rank, hs⟩, hadds⟩ :=
    runCalls_kept hcalls (Index.empty_sound kind)
  have hkeys : ∀ key ∈ conds.map Condition.scanKey, key.Lawful (validKey columns) := by
    intro key hkey
    obtain ⟨cond, hcond, rfl⟩ := List.mem_map.mp hkey
    exact (hconds cond hcond).lawful_scanKey
  obtain ⟨fuel, rows, hrun, hrows⟩ := exists_gistgetbitmap hkeys hs
  refine ⟨fuel, rows, hrun, fun call hcall hholds => ?_, fun row hrow => ?_⟩
  · exact (hrows _).mpr ⟨(hadds _).mpr (.inr (hdone call hcall)), (testAll_iff conds _).mpr hholds⟩
  · obtain ⟨hmem, htest⟩ := (hrows row).mp hrow
    rcases (hadds row).mp hmem with ⟨b, -, hnone⟩ | hadded
    · cases hnone
    · obtain ⟨call, hcall, rfl⟩ := hfrom row hadded
      exact ⟨call, hcall, rfl, (testAll_iff conds call.row).mp htest⟩

theorem rangeIndex_getbitmap_int4 : ∃ fuel rows, gistgetbitmap (runCalls int4Calls .empty).2
      ([(⟨0, .containsElem, (2 : ℤ)⟩ : Condition int4Columns)].map Condition.scanKey) fuel =
        .ok rows ∧
    (int4Call 9 false).row ∈ rows := by
  have hconds : ∀ cond ∈ [(⟨0, .containsElem, (2 : ℤ)⟩ : Condition int4Columns)], cond.Proper := by
    simpa using ⟨.int4range, trivial⟩
  obtain ⟨fuel, rows, hrun, hall, -⟩ := rangeIndex_getbitmap Nat.one_pos formSize_int4Index
    (by decide) proper_int4Calls hconds
  have hreturned : (runCalls int4Calls .empty).1 = [int4Call 9 false] := rfl
  refine ⟨fuel, rows, hrun, hall _ ?_ ?_⟩
  · rw [hreturned]
    exact List.mem_cons_self
  · simpa using ⟨int4Between 1 3, rfl, rfl⟩

include hn hsize hroom in
/-- After any insertions, one that is not disturbed returns, also if there are unfinished splits. -/
theorem rangeIndex_insert
    (hcalls : ∀ call ∈ calls, call.Proper (rangeGistState q columns formSize) FiniteKeys) :
    ∃ need, ∀ call : Call fun j => (columns j).Key,
      call.Proper (rangeGistState q columns formSize) FiniteKeys →
      Smooth call.state call.fuel need → (call.run (runCalls calls .empty).2).1 = .ok () := by
  let kind := rangeIndexKind hn hsize hroom q
  obtain ⟨-, -, -, ⟨level, rank, hs⟩, -⟩ := runCalls_kept hcalls (Index.empty_sound kind)
  let pendings := (runCalls calls .empty).2.pendings.card
  refine ⟨insertFuel (level 0 + pendings) pendings (level 0), fun call hcall hsmooth => ?_⟩
  have hrun := call.run_completes hcall hs
  unfold Completes Exec.Ensures at hrun
  rcases hresult : call.run (runCalls calls .empty).2 with ⟨_ | _, index'⟩
  · rw [hresult] at hrun
    exact absurd hsmooth hrun.2
  · rfl

theorem rangeIndex_insert_int4 :
    ∃ fuel, ((int4Call fuel false).run (runCalls int4Calls .empty).2).1 = .ok () := by
  obtain ⟨need, hneed⟩ := rangeIndex_insert Nat.one_pos formSize_int4Index (by decide)
    proper_int4Calls
  exact ⟨need, hneed _ (proper_int4Call need false) ⟨fun _ => rfl, Nat.one_pos, le_rfl⟩⟩

end Calls

end PgRange.Gist
