import PgRange.Gist.DoubleSort
import PgRange.Range.Elements

/-!
# The penalty of an insertion

`range_gist_penalty` says how much a key would have to grow to take in a range. It treats the
classes of new ranges apart, since penalties are only compared for one new range: empty ranges,
the range of everything, the two kinds of half-infinite ranges, and normal ones.

The penalty is a `float`. It is neither negative nor no number, and for the types on which the
distance of two different bounds is at least one it is zero exactly if the key is of the kind of
the new range and covers it already. So no key has to be rewritten for an insertion without a
penalty. This is not so for `int8range`, where distances are differences of rounded values.

## Main definitions

* `rangeGistPenalty` — the function of the source
* `SameKind` — the keys in which a range of a given kind is at home
* `Measured` — types whose bounds are told apart by their distance

## Main results

* `rangeGistPenalty_nonneg` — it is a non-negative number or infinite
* `rangeGistPenalty_eq_zero_iff` — which keys are not penalized
-/

set_option autoImplicit false

namespace PgRange.Gist

open Math

variable {α : Type} [Inhabited α]

/-! ### The function of the source -/

/-- `INFINITE_BOUND_PENALTY`. -/
def infiniteBoundPenalty : ℚ := 2

/-- `CONTAIN_EMPTY_PENALTY`. -/
def containEmptyPenalty : ℚ := 1

/-- `DEFAULT_SUBTYPE_DIFF_PENALTY`. -/
def defaultSubtypeDiffPenalty : ℚ := 1

/-- How far a bound has to be moved: `call_subtype_diff` if the type has a `subtype_diff`
function, else the constant. -/
def boundExtension (typcache : TypeCacheEntry α) (val1 val2 : α) : ℚ :=
  match typcache.rngSubdiff with
  | some subdiff => callSubtypeDiff subdiff val1 val2
  | none => defaultSubtypeDiffPenalty

/-- How far the lower bound of the key has to be moved down for the new range, -/
def lowerExtension (typcache : TypeCacheEntry α) (o n : RangeParts α) : ℚ :=
  if (rangeCmpBounds typcache.cmp n.lower o.lower).isLT then
    boundExtension typcache o.lower.val n.lower.val
  else 0

/-- and how far its upper bound has to be moved up. -/
def upperExtension (typcache : TypeCacheEntry α) (o n : RangeParts α) : ℚ :=
  if (rangeCmpBounds typcache.cmp n.upper o.upper).isGT then
    boundExtension typcache n.upper.val o.upper.val
  else 0

/-- `range_gist_penalty`: the value that is stored in `*penalty`. -/
def rangeGistPenalty (typcache : TypeCacheEntry α) (orig new : RangeType α) : FloatQ :=
  let o := rangeDeserialize orig
  let n := rangeDeserialize new
  if n.empty then
    if o.empty then .fin 0
    else if rangeIsOrContainsEmpty orig then .fin containEmptyPenalty
    else if o.lower.infinite && o.upper.infinite then .fin (2 * containEmptyPenalty)
    else if o.lower.infinite || o.upper.infinite then .fin (3 * containEmptyPenalty)
    else .fin (4 * containEmptyPenalty)
  else if n.lower.infinite && n.upper.infinite then
    let penalty :=
      if o.lower.infinite && o.upper.infinite then 0
      else if o.lower.infinite || o.upper.infinite then infiniteBoundPenalty
      else 2 * infiniteBoundPenalty
    -- a key without empty ranges is narrower
    if rangeIsOrContainsEmpty orig then .fin (penalty + containEmptyPenalty) else .fin penalty
  else if n.lower.infinite then
    if !o.empty && o.lower.infinite then
      if o.upper.infinite then .fin 0
      else float4 (upperExtension typcache o n)
    else .posInf
  else if n.upper.infinite then
    if !o.empty && o.upper.infinite then
      if o.lower.infinite then .fin 0
      else float4 (lowerExtension typcache o n)
    else .posInf
  else if o.empty || o.lower.infinite || o.upper.infinite then .posInf
  else
    -- the sum is a `float8`, and is then converted
    CFloat.float4.rounded (CFloat.float8.add (.fin (lowerExtension typcache o n))
      (.fin (upperExtension typcache o n)))

/-! ### Keys as values -/

section Values

variable {typcache : TypeCacheEntry α} {r : RangeType α}

/-- The flags of a key are those of a value, but for the bit for absorbed empty ranges. -/
theorem IsKey.proper (h : IsKey typcache r) : r.flags.Proper where
  noNull := h.wellFormed.proper.noNull
  emptyAlone he := by
    have hclear := h.wellFormed.proper.emptyAlone he
    have hce := h.emptyAlone he
    obtain ⟨⟨_, _, _, _, _, _, _, _⟩, _, _⟩ := r
    simp_all [clearContainEmpty]
  lowerInf := h.wellFormed.proper.lowerInf
  upperInf := h.wellFormed.proper.upperInf

/-- The finite bounds of a key of an integer type are inclusive below and exclusive above. -/
theorem flags_of_isCanonical_step {typcache : TypeCacheEntry ℤ} {addOne : ℤ → Except Fault ℤ}
    {r : RangeType ℤ} (hcmp : typcache.cmp = btintcmp)
    (hcanon : typcache.rngCanonical = some (intRangeCanonical addOne)) (h : IsKey typcache r)
    (hne : r.flags.empty = false) :
    (r.flags.lbInf = false → r.flags.lbInc = true) ∧
      (r.flags.ubInf = false → r.flags.ubInc = false) := by
  have hself := h.canonical _ hcanon hne
  have hwf : WellFormed btintcmp (clearContainEmpty r) := hcmp ▸ h.wellFormed
  rw [intRangeCanonical_eq_step, stepCanonical_eq_self_iff hwf hne] at hself
  obtain ⟨hlower, hupper⟩ := hself
  constructor
  · intro hinf
    rcases hlower with hinf' | hskip | hinc
    · exact absurd (hinf'.symm.trans hinf) (by decide)
    · cases hskip
    · exact hinc
  · intro hinf
    rcases hupper with hinf' | hskip | hinc
    · exact absurd (hinf'.symm.trans hinf) (by decide)
    · cases hskip
    · exact hinc

/-- Every key of an indexable type is a value. -/
theorem IsKey.isValue (hidx : typcache.Indexable) (h : IsKey typcache r) : typcache.IsValue r where
  proper := h.proper
  ordered := h.ordered
  canonical hsome hne := by
    cases hidx with
    | int4range => exact flags_of_isCanonical_step rfl rfl h hne
    | int8range => exact flags_of_isCanonical_step rfl rfl h hne
    | continuous _ _ hnone => simp [hnone] at hsome

end Values

/-! ### The penalty is a number -/

section Nonneg

variable {typcache : TypeCacheEntry α}

omit [Inhabited α] in
theorem boundExtension_nonneg (typcache : TypeCacheEntry α) (val1 val2 : α) :
    0 ≤ boundExtension typcache val1 val2 := by
  unfold boundExtension
  cases typcache.rngSubdiff with
  | none =>
    simp only [defaultSubtypeDiffPenalty]
    norm_num
  | some subdiff =>
    simp only [callSubtypeDiff]
    split_ifs with hge
    · exact hge
    · exact le_rfl

omit [Inhabited α] in
theorem lowerExtension_nonneg (typcache : TypeCacheEntry α) (o n : RangeParts α) :
    0 ≤ lowerExtension typcache o n := by
  unfold lowerExtension
  split_ifs
  · exact boundExtension_nonneg typcache _ _
  · exact le_rfl

omit [Inhabited α] in
theorem upperExtension_nonneg (typcache : TypeCacheEntry α) (o n : RangeParts α) :
    0 ≤ upperExtension typcache o n := by
  unfold upperExtension
  split_ifs
  · exact boundExtension_nonneg typcache _ _
  · exact le_rfl

/-- The penalty is a non-negative number or infinite. -/
theorem rangeGistPenalty_nonneg (typcache : TypeCacheEntry α) (orig new : RangeType α) :
    rangeGistPenalty typcache orig new = .posInf ∨
      ∃ y, 0 ≤ y ∧ rangeGistPenalty typcache orig new = .fin y := by
  have hfin : ∀ {x : ℚ}, 0 ≤ x → (FloatQ.fin 0).le (.fin x) = true := fun hx => decide_eq_true hx
  have hround : ∀ {x : FloatQ}, (FloatQ.fin 0).le x = true →
      CFloat.float4.rounded x = .posInf ∨ ∃ y, 0 ≤ y ∧ CFloat.float4.rounded x = .fin y :=
    fun hx => FloatQ.zero_le_iff.mp (CFloat.zero_le_rounded hx)
  unfold rangeGistPenalty
  simp only [containEmptyPenalty, infiniteBoundPenalty]
  split_ifs
  -- new empty ranges and the new range of everything: one of the constants
  iterate 11 exact Or.inr ⟨_, by norm_num, rfl⟩
  · exact Or.inr ⟨0, le_rfl, rfl⟩
  · exact hround (hfin (upperExtension_nonneg typcache _ _))
  · exact Or.inl rfl
  · exact Or.inr ⟨0, le_rfl, rfl⟩
  · exact hround (hfin (lowerExtension_nonneg typcache _ _))
  · exact Or.inl rfl
  · exact Or.inl rfl
  · exact hround (CFloat.zero_le_add (hfin (lowerExtension_nonneg typcache _ _))
      (hfin (upperExtension_nonneg typcache _ _)))

end Nonneg

/-! ### Which keys are not penalized -/

/-- The keys in which a range of a given kind is at home. -/
def SameKind (orig new : RangeType α) : Prop :=
  if new.flags.empty then orig.flags.empty = true
  else orig.flags.empty = false ∧
    if new.flags.lbInf && new.flags.ubInf then
      orig.flags.lbInf = true ∧ orig.flags.ubInf = true ∧ orig.flags.containEmpty = false
    else if new.flags.lbInf then orig.flags.lbInf = true
    else if new.flags.ubInf then orig.flags.ubInf = true
    else orig.flags.lbInf = false ∧ orig.flags.ubInf = false

/-- Types on which two different bounds are at least one apart: `int4range`, and types without a
`subtype_diff` function, on which the constant stands for every distance. -/
inductive Measured : {α : Type} → [Inhabited α] → TypeCacheEntry α → Prop
  | int4range : Measured int4range
  | constant {α : Type} [Inhabited α] (typcache : TypeCacheEntry α) :
      Std.TransCmp typcache.cmp → typcache.rngSubdiff = none → Measured typcache

theorem Measured.transCmp {typcache : TypeCacheEntry α} (h : Measured typcache) :
    Std.TransCmp typcache.cmp := by
  cases h with
  | int4range => infer_instance
  | constant _ htrans _ => exact htrans

section Distance

/-- Bounds on one side that differ by their values only. -/
theorem val_lt_of_same {a b : RangeBound ℤ} (ha : a.infinite = false) (hb : b.infinite = false)
    (hlow : a.lower = b.lower) (hinc : a.inclusive = b.inclusive)
    (h : rangeCmpBounds btintcmp a b = .lt) : a.val < b.val := by
  rw [← compareInt_lt_iff]
  cases hc : compareInt a.val b.val with
  | lt => rfl
  | gt => simp [rangeCmpBounds, ha, hb, hc] at h
  | eq => cases hi : b.inclusive <;> simp [rangeCmpBounds, ha, hb, hc, hlow, hinc, hi] at h

/-- On an integer type the distance of different values is at least one. -/
theorem one_le_boundExtension_int {typcache : TypeCacheEntry ℤ}
    (hdiff : typcache.rngSubdiff = some fun (v1 v2 : ℤ) => (v1 : ℚ) - v2) {a b : ℤ} (h : b < a) :
    1 ≤ boundExtension typcache a b := by
  have hone : (1 : ℚ) ≤ a - b := by
    have : b + 1 ≤ a := h
    have hcast : ((b + 1 : ℤ) : ℚ) ≤ a := by exact_mod_cast this
    push_cast at hcast
    linarith
  have hge : (a : ℚ) - b ≥ 0 := by linarith
  simp only [boundExtension, hdiff, callSubtypeDiff, hge, ↓reduceIte]
  exact hone

variable {typcache : TypeCacheEntry α} {r1 r2 : RangeType α}

/-- A lower bound that is moved is moved by at least one. -/
theorem Measured.one_le_lower (h : Measured typcache) (h1 : IsKey typcache r1)
    (h2 : IsKey typcache r2) (he1 : r1.flags.empty = false) (he2 : r2.flags.empty = false)
    (hf1 : r1.flags.lbInf = false) (hf2 : r2.flags.lbInf = false)
    (hlt : rangeCmpBounds typcache.cmp (lowerOf r1) (lowerOf r2) = .lt) :
    1 ≤ boundExtension typcache (lowerOf r2).val (lowerOf r1).val := by
  cases h with
  | constant _ _ hnone => simp [boundExtension, hnone, defaultSubtypeDiffPenalty]
  | int4range =>
    have hinc1 := (flags_of_isCanonical_step rfl rfl h1 he1).1 hf1
    have hinc2 := (flags_of_isCanonical_step rfl rfl h2 he2).1 hf2
    exact one_le_boundExtension_int rfl (val_lt_of_same hf1 hf2 rfl (hinc1.trans hinc2.symm) hlt)

/-- And so is an upper bound. -/
theorem Measured.one_le_upper (h : Measured typcache) (h1 : IsKey typcache r1)
    (h2 : IsKey typcache r2) (he1 : r1.flags.empty = false) (he2 : r2.flags.empty = false)
    (hf1 : r1.flags.ubInf = false) (hf2 : r2.flags.ubInf = false)
    (hlt : rangeCmpBounds typcache.cmp (upperOf r1) (upperOf r2) = .lt) :
    1 ≤ boundExtension typcache (upperOf r2).val (upperOf r1).val := by
  cases h with
  | constant _ _ hnone => simp [boundExtension, hnone, defaultSubtypeDiffPenalty]
  | int4range =>
    have hinc1 := (flags_of_isCanonical_step rfl rfl h1 he1).2 hf1
    have hinc2 := (flags_of_isCanonical_step rfl rfl h2 he2).2 hf2
    exact one_le_boundExtension_int rfl (val_lt_of_same hf1 hf2 rfl (hinc1.trans hinc2.symm) hlt)

/-- A key whose lower bound has to be moved is moved by at least one. -/
theorem Measured.isGap_lowerExtension (h : Measured typcache)
    (horig : IsKey typcache r1) (hnew : IsKey typcache r2) (he1 : r1.flags.empty = false)
    (he2 : r2.flags.empty = false) (hf1 : r1.flags.lbInf = false) (hf2 : r2.flags.lbInf = false) :
    CFloat.IsGap (.fin (lowerExtension typcache (rangeDeserialize r1) (rangeDeserialize r2)))
      (rangeCmpBounds typcache.cmp (lowerOf r1) (lowerOf r2)).isLE := by
  have htrans := h.transCmp
  simp only [CFloat.IsGap, lowerExtension, Ordering.isLT_iff_eq_lt, FloatQ.fin_le_fin,
    decide_eq_true_eq, FloatQ.fin.injEq]
  by_cases hlt : rangeCmpBounds typcache.cmp (lowerOf r2) (lowerOf r1) = .lt
  · right
    rw [if_pos hlt]
    exact ⟨h.one_le_lower hnew horig he2 he1 hf2 hf1 hlt, lt_iff_not_isLE.mp hlt⟩
  · left
    rw [if_neg hlt]
    exact ⟨rfl, not_not.mp fun hle => hlt (lt_iff_not_isLE.mpr hle)⟩

theorem Measured.isGap_upperExtension (h : Measured typcache)
    (horig : IsKey typcache r1) (hnew : IsKey typcache r2) (he1 : r1.flags.empty = false)
    (he2 : r2.flags.empty = false) (hf1 : r1.flags.ubInf = false) (hf2 : r2.flags.ubInf = false) :
    CFloat.IsGap (.fin (upperExtension typcache (rangeDeserialize r1) (rangeDeserialize r2)))
      (rangeCmpBounds typcache.cmp (upperOf r2) (upperOf r1)).isLE := by
  have htrans := h.transCmp
  have hswap : ∀ a b : RangeBound α, (rangeCmpBounds typcache.cmp a b).isGT = true ↔
      rangeCmpBounds typcache.cmp b a = .lt := fun a b => by
    rw [show rangeCmpBounds typcache.cmp a b = (rangeCmpBounds typcache.cmp b a).swap from
      Std.OrientedCmp.eq_swap]
    cases rangeCmpBounds typcache.cmp b a <;> simp
  simp only [CFloat.IsGap, upperExtension, hswap, FloatQ.fin_le_fin, decide_eq_true_eq,
    FloatQ.fin.injEq]
  by_cases hlt : rangeCmpBounds typcache.cmp (upperOf r1) (upperOf r2) = .lt
  · right
    rw [if_pos hlt]
    exact ⟨h.one_le_upper horig hnew he1 he2 hf1 hf2 hlt, lt_iff_not_isLE.mp hlt⟩
  · left
    rw [if_neg hlt]
    exact ⟨rfl, not_not.mp fun hle => hlt (lt_iff_not_isLE.mpr hle)⟩

end Distance

section Zero

variable {typcache : TypeCacheEntry α} {orig new : RangeType α}

/-- A non-empty range without absorbed empty ranges is covered if its bounds are. -/
theorem coversKey_iff_of_nonempty [Std.TransCmp typcache.cmp] (hne : new.flags.empty = false)
    (hce : new.flags.containEmpty = false) :
    CoversKey typcache.cmp orig new ↔ orig.flags.empty = false ∧
      (rangeCmpBounds typcache.cmp (lowerOf orig) (lowerOf new)).isLE ∧
      (rangeCmpBounds typcache.cmp (upperOf new) (upperOf orig)).isLE := by
  simp [coversKey_iff, rangeIsOrContainsEmpty, hne, hce]

/-- An insertion is free of a penalty exactly if the key is of the kind of the new range and
covers it already. -/
theorem rangeGistPenalty_eq_zero_iff (h : Measured typcache) (horig : IsKey typcache orig)
    (hnew : IsKey typcache new) (hce : new.flags.containEmpty = false) :
    rangeGistPenalty typcache orig new = .fin 0 ↔
      SameKind orig new ∧ CoversKey typcache.cmp orig new := by
  have htrans := h.transCmp
  -- an infinite bound of the key covers every bound
  have hlow : orig.flags.lbInf = true →
      (rangeCmpBounds typcache.cmp (lowerOf orig) (lowerOf new)).isLE := fun hinf =>
    isLE_of_infinite_lower rfl hinf _
  have hupp : orig.flags.ubInf = true →
      (rangeCmpBounds typcache.cmp (upperOf new) (upperOf orig)).isLE := fun hinf =>
    isLE_of_infinite_upper rfl hinf _
  cases hne : new.flags.empty with
  | true =>
    rw [coversKey_of_empty hne]
    cases ho : orig.flags.empty with
    | true => simp [rangeGistPenalty, SameKind, hne, ho, rangeIsOrContainsEmpty]
    | false =>
      simp only [rangeGistPenalty, SameKind, rangeDeserialize_empty, hne, ho, containEmptyPenalty,
        ↓reduceIte, Bool.false_eq_true, false_and, iff_false]
      split_ifs <;> simp
  | false =>
    rw [coversKey_iff_of_nonempty hne hce]
    cases hl : new.flags.lbInf <;> cases hu : new.flags.ubInf
    · -- a normal range
      cases ho : orig.flags.empty <;> cases hol : orig.flags.lbInf <;>
          cases hou : orig.flags.ubInf <;>
        simp [rangeGistPenalty, SameKind, hne, hl, hu, ho, hol, hou]
      have hlower := h.isGap_lowerExtension horig hnew ho hne hol hl
      exact (hlower.add (h.isGap_upperExtension horig hnew ho hne hou hu)).rounded.eq_zero_iff
    · -- a range without an upper bound
      cases ho : orig.flags.empty <;> cases hol : orig.flags.lbInf <;>
          cases hou : orig.flags.ubInf <;>
        simp [rangeGistPenalty, SameKind, hne, hl, hu, ho, hol, hou, hupp, hlow]
      have hgap := h.isGap_lowerExtension horig hnew ho hne hol hl
      exact (hgap.rounded (R := .float4)).eq_zero_iff
    · -- a range without a lower bound
      cases ho : orig.flags.empty <;> cases hol : orig.flags.lbInf <;>
          cases hou : orig.flags.ubInf <;>
        simp [rangeGistPenalty, SameKind, hne, hl, hu, ho, hol, hou, hupp, hlow]
      have hgap := h.isGap_upperExtension horig hnew ho hne hou hu
      exact (hgap.rounded (R := .float4)).eq_zero_iff
    · -- the range of everything
      cases ho : orig.flags.empty <;> cases hol : orig.flags.lbInf <;>
          cases hou : orig.flags.ubInf <;> cases hoc : orig.flags.containEmpty <;>
        simp [rangeGistPenalty, SameKind, rangeIsOrContainsEmpty, containEmptyPenalty,
          infiniteBoundPenalty, hne, hl, hu, ho, hol, hou, hoc, hupp, hlow] <;> norm_num

end Zero

end PgRange.Gist
