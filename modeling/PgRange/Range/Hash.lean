import PgRange.Range.WellFormed

/-!
# Ordering, equality and hashing of ranges

`range_cmp` orders ranges for b-trees, `range_eq_internal` decides their equality, and
`hash_range` and `hash_range_extended` hash them for hash joins and hash indexes. The
hash mixes the raw flags byte, so it respects equality only because the flags of a
well-formed range are determined by its bounds.

## Main results

* `rangeCmp_isLE_trans`, `rangeCmp_swap` — the b-tree order is a total preorder
* `flags_eq_of_rangeEq` — equal ranges have the same flags byte
* `rangeCmp_eq_hash` — order, equality and hash agree
-/

set_option autoImplicit false

namespace PgRange

open Math

/-! ### The mixing functions of `hashfn.c` -/

/-- The macro `rot`. -/
def rot (x k : UInt32) : UInt32 := (x <<< k) ||| (x >>> (32 - k))

/-- The macro `mix`. -/
def mix (a b c : UInt32) : UInt32 × UInt32 × UInt32 :=
  let a := a - c; let a := a ^^^ rot c 4; let c := c + b
  let b := b - a; let b := b ^^^ rot a 6; let a := a + c
  let c := c - b; let c := c ^^^ rot b 8; let b := b + a
  let a := a - c; let a := a ^^^ rot c 16; let c := c + b
  let b := b - a; let b := b ^^^ rot a 19; let a := a + c
  let c := c - b; let c := c ^^^ rot b 4; let b := b + a
  (a, b, c)

/-- The macro `final`. -/
def final (a b c : UInt32) : UInt32 × UInt32 × UInt32 :=
  let c := c ^^^ b; let c := c - rot b 14
  let a := a ^^^ c; let a := a - rot c 11
  let b := b ^^^ a; let b := b - rot a 25
  let c := c ^^^ b; let c := c - rot b 16
  let a := a ^^^ c; let a := a - rot c 4
  let b := b ^^^ a; let b := b - rot a 14
  let c := c ^^^ b; let c := c - rot b 24
  (a, b, c)

/-- The start value of the three registers, for a key of four bytes. -/
def hashInit : UInt32 := 0x9e3779b9 + 4 + 3923095

/-- `hash_bytes_uint32`, which `hash_uint32` wraps. -/
def hashUint32 (k : UInt32) : UInt32 :=
  (final (hashInit + k) hashInit hashInit).2.2

/-- `hash_bytes_uint32_extended`, which `hash_uint32_extended` wraps. -/
def hashUint32Extended (k : UInt32) (seed : UInt64) : UInt64 :=
  let (a, b, c) :=
    if seed ≠ 0 then mix (hashInit + (seed >>> 32).toUInt32) (hashInit + seed.toUInt32) hashInit
    else (hashInit, hashInit, hashInit)
  let (_, b, c) := final (a + k) b c
  (b.toUInt64 <<< 32) ||| c.toUInt64

/-- `ROTATE_HIGH_AND_LOW_32BITS`. -/
def rotateHighAndLow32Bits (v : UInt64) : UInt64 :=
  ((v <<< 1) &&& (0xfffffffefffffffe : UInt64)) ||| ((v >>> 31) &&& (0x100000001 : UInt64))

/-! ### Hashing a range -/

variable {α : Type} [Inhabited α]

/-- The hash functions of the element type, if it has them. -/
structure ElementHash (α : Type) where
  hashProc : Option (α → UInt32)
  hashExtendedProc : Option (α → UInt64 → UInt64)

/-- The conversion of the `char` that holds the flags to `uint32`, which extends the
sign bit. -/
def flagsWord (flags : RangeFlags) : UInt32 :=
  if flags.toByte < 0x80 then flags.toByte.toUInt32 else flags.toByte.toUInt32 + 0xffffff00

/-- `hash_range`. -/
def hashRange (scache : ElementHash α) (r : RangeType α) : Except Fault UInt32 :=
  let parts := rangeDeserialize r
  match scache.hashProc with
  | none => .error .undefinedHashFunction
  | some hash =>
    let lowerHash := if r.flags.hasLbound then hash parts.lower.val else 0
    let upperHash := if r.flags.hasUbound then hash parts.upper.val else 0
    let result := hashUint32 (flagsWord r.flags)
    let result := result ^^^ lowerHash
    let result := (result <<< 1) ||| (result >>> 31)
    .ok (result ^^^ upperHash)

/-- `hash_range_extended`. -/
def hashRangeExtended (scache : ElementHash α) (r : RangeType α) (seed : UInt64) :
    Except Fault UInt64 :=
  let parts := rangeDeserialize r
  match scache.hashExtendedProc with
  | none => .error .undefinedHashFunction
  | some hash =>
    let lowerHash := if r.flags.hasLbound then hash parts.lower.val seed else 0
    let upperHash := if r.flags.hasUbound then hash parts.upper.val seed else 0
    let result := hashUint32Extended (flagsWord r.flags) seed
    let result := result ^^^ lowerHash
    let result := rotateHighAndLow32Bits result
    .ok (result ^^^ upperHash)

/-- Values that the comparison does not tell apart have the same hashes. -/
structure ElementHash.Respects (scache : ElementHash α) (cmp : α → α → Ordering) : Prop where
  hash : ∀ f, scache.hashProc = some f → ∀ v w, cmp v w = .eq → f v = f w
  hashExtended : ∀ f, scache.hashExtendedProc = some f →
    ∀ v w seed, cmp v w = .eq → f v seed = f w seed

/-! ### The order -/

section Order

variable {cmp : α → α → Ordering} {a b c : RangeType α}

theorem rangeCmp_of_empty (ha : a.flags.empty = true) :
    rangeCmp cmp a b = if b.flags.empty then .eq else .lt := by
  cases hb : b.flags.empty <;> simp [rangeCmp, ha, hb]

/-- Non-empty ranges are ordered by their lower bounds, then by their upper bounds. -/
theorem rangeCmp_of_nonempty (ha : a.flags.empty = false) (hb : b.flags.empty = false) :
    rangeCmp cmp a b = (rangeCmpBounds cmp (lowerOf a) (lowerOf b)).then
      (rangeCmpBounds cmp (upperOf a) (upperOf b)) := by
  simp only [rangeCmp, rangeDeserialize_empty, ha, hb, Bool.and_self, Bool.false_eq_true,
    ↓reduceIte]
  cases rangeCmpBounds cmp (lowerOf a) (lowerOf b) <;> rfl

theorem rangeCmp_eq_iff : rangeCmp cmp a b = .eq ↔ rangeEqInternal cmp a b = true := by
  rw [rangeEqInternal_iff]
  cases ha : a.flags.empty <;> cases hb : b.flags.empty
  · simp [rangeCmp_of_nonempty ha hb, Ordering.then_eq_eq]
  · simp [rangeCmp, ha, hb]
  · simp [rangeCmp, ha, hb]
  · simp [rangeCmp, ha, hb]

variable [Std.TransCmp cmp]

theorem rangeCmp_swap (cmp : α → α → Ordering) [Std.TransCmp cmp] (a b : RangeType α) :
    rangeCmp cmp b a = (rangeCmp cmp a b).swap := by
  cases ha : a.flags.empty <;> cases hb : b.flags.empty
  · rw [rangeCmp_of_nonempty ha hb, rangeCmp_of_nonempty hb ha, Ordering.swap_then,
      ← Std.OrientedCmp.eq_swap, ← Std.OrientedCmp.eq_swap]
  · simp [rangeCmp, ha, hb]
  · simp [rangeCmp, ha, hb]
  · simp [rangeCmp, ha, hb]

/-- The order of three non-empty ranges is that of pairs of bounds; an empty range is
below everything. -/
theorem rangeCmp_isLE_trans (hab : (rangeCmp cmp a b).isLE) (hbc : (rangeCmp cmp b c).isLE) :
    (rangeCmp cmp a c).isLE := by
  cases ha : a.flags.empty with
  | true =>
    rw [rangeCmp_of_empty ha]
    split <;> rfl
  | false =>
    cases hb : b.flags.empty with
    | true => simp [rangeCmp, ha, hb] at hab
    | false =>
      cases hc : c.flags.empty with
      | true => simp [rangeCmp, hb, hc] at hbc
      | false =>
        -- three ranges with bounds: the lexicographic order
        rw [rangeCmp_of_nonempty ha hb, Ordering.isLE_then_iff_or] at hab
        rw [rangeCmp_of_nonempty hb hc, Ordering.isLE_then_iff_or] at hbc
        rw [rangeCmp_of_nonempty ha hc, Ordering.isLE_then_iff_or]
        rcases hab with hab | ⟨hab, huab⟩
        · rcases hbc with hbc | ⟨hbc, -⟩
          · exact Or.inl (Std.TransCmp.lt_trans hab hbc)
          · exact Or.inl (Std.TransCmp.lt_of_lt_of_eq hab hbc)
        · rcases hbc with hbc | ⟨hbc, hubc⟩
          · exact Or.inl (Std.TransCmp.lt_of_eq_of_lt hab hbc)
          · exact Or.inr ⟨Std.TransCmp.eq_trans hab hbc, Std.TransCmp.isLE_trans huab hubc⟩

end Order

/-! ### Equal ranges -/

section Equal

variable {cmp : α → α → Ordering} {a b : RangeType α}

omit [Inhabited α] in
/-- Level bounds of one side are both infinite, or have level values and the same
inclusiveness. -/
theorem level_bounds {x y : RangeBound α} (h : rangeCmpBounds cmp x y = .eq)
    (hside : x.lower = y.lower) :
    x.infinite = y.infinite ∧
      (x.infinite = false → cmp x.val y.val = .eq ∧ x.inclusive = y.inclusive) := by
  obtain ⟨v, inf1, inc1, low1⟩ := x
  obtain ⟨w, inf2, inc2, low2⟩ := y
  obtain rfl : low1 = low2 := hside
  cases inf1 <;> cases inf2 <;> cases inc1 <;> cases inc2 <;> cases low1 <;>
    cases hc : cmp v w <;> simp_all [rangeCmpBounds]

/-- A well-formed range that equals another has the same flags: what the bounds do not
determine is never set. -/
theorem flags_eq_of_rangeEq (ha : WellFormed cmp a) (hb : WellFormed cmp b)
    (heq : rangeEqInternal cmp a b = true) : a.flags = b.flags := by
  rcases rangeEqInternal_iff.mp heq with ⟨hae, hbe⟩ | ⟨hae, hbe, hl, hu⟩
  · rw [ha.eq_emptyRange hae, hb.eq_emptyRange hbe]
  · obtain ⟨hlinf, hlfin⟩ := level_bounds hl rfl
    obtain ⟨huinf, hufin⟩ := level_bounds hu rfl
    simp only [rangeDeserialize_lower_infinite, rangeDeserialize_upper_infinite,
      rangeDeserialize_lower_inclusive, rangeDeserialize_upper_inclusive] at hlinf hlfin huinf hufin
    -- the inclusiveness of an infinite bound is not compared, but proper flags clear it
    have hlinc : a.flags.lbInc = b.flags.lbInc := by
      cases hinf : a.flags.lbInf with
      | false => exact (hlfin hinf).2
      | true => rw [ha.proper.lowerInf hinf, hb.proper.lowerInf (hlinf ▸ hinf)]
    have huinc : a.flags.ubInc = b.flags.ubInc := by
      cases hinf : a.flags.ubInf with
      | false => exact (hufin hinf).2
      | true => rw [ha.proper.upperInf hinf, hb.proper.upperInf (huinf ▸ hinf)]
    rw [ha.flags_eq hae, hb.flags_eq hbe, hlinf, huinf, hlinc, huinc]

/-- The bounds that equal ranges hash have level values. -/
theorem level_values_of_rangeEq (heq : rangeEqInternal cmp a b = true) :
    (a.flags.hasLbound = true → cmp (lowerOf a).val (lowerOf b).val = .eq) ∧
      (a.flags.hasUbound = true → cmp (upperOf a).val (upperOf b).val = .eq) := by
  rcases rangeEqInternal_iff.mp heq with ⟨hae, -⟩ | ⟨-, -, hl, hu⟩
  · simp [RangeFlags.hasLbound, RangeFlags.hasUbound, hae]
  · constructor
    · intro hpresent
      exact ((level_bounds hl rfl).2 (by simp_all [RangeFlags.hasLbound])).1
    · intro hpresent
      exact ((level_bounds hu rfl).2 (by simp_all [RangeFlags.hasUbound])).1

/-- Equal ranges have the same flags, and the bounds that are present have the same hash, whatever
stands for an absent one. -/
theorem hashedBounds_eq {ω : Type} {hash : α → ω} (hhash : ∀ v w, cmp v w = .eq → hash v = hash w)
    (absent : ω) (ha : WellFormed cmp a) (hb : WellFormed cmp b)
    (heq : rangeEqInternal cmp a b = true) :
    a.flags = b.flags ∧
      (if b.flags.hasLbound then hash (lowerOf a).val else absent) =
        (if b.flags.hasLbound then hash (lowerOf b).val else absent) ∧
      (if b.flags.hasUbound then hash (upperOf a).val else absent) =
        (if b.flags.hasUbound then hash (upperOf b).val else absent) := by
  have hflags := flags_eq_of_rangeEq ha hb heq
  obtain ⟨hl, hu⟩ := level_values_of_rangeEq heq
  refine ⟨hflags, ?_, ?_⟩
  · exact ite_congr rfl (fun h => hhash _ _ (hl (hflags ▸ h))) fun _ => rfl
  · exact ite_congr rfl (fun h => hhash _ _ (hu (hflags ▸ h))) fun _ => rfl

theorem hashRange_eq_of_rangeEq {scache : ElementHash α} (hhash : scache.Respects cmp)
    (ha : WellFormed cmp a) (hb : WellFormed cmp b) (heq : rangeEqInternal cmp a b = true) :
    hashRange scache a = hashRange scache b := by
  unfold hashRange
  cases hproc : scache.hashProc with
  | none => rfl
  | some hash =>
    obtain ⟨hflags, hlow, hup⟩ := hashedBounds_eq (hhash.hash hash hproc) 0 ha hb heq
    simp only [hflags, hlow, hup]

theorem hashRangeExtended_eq_of_rangeEq {scache : ElementHash α} (hhash : scache.Respects cmp)
    (ha : WellFormed cmp a) (hb : WellFormed cmp b) (heq : rangeEqInternal cmp a b = true)
    (seed : UInt64) : hashRangeExtended scache a seed = hashRangeExtended scache b seed := by
  unfold hashRangeExtended
  cases hproc : scache.hashExtendedProc with
  | none => rfl
  | some hash =>
    obtain ⟨hflags, hlow, hup⟩ := hashedBounds_eq
      (fun v w => hhash.hashExtended hash hproc v w seed) 0 ha hb heq
    simp only [hflags, hlow, hup]

end Equal

/-- Ordering, equality and hashing of the ranges of one type agree. -/
theorem rangeCmp_eq_hash (cmp : α → α → Ordering) [Std.TransCmp cmp] (scache : ElementHash α)
    (hhash : scache.Respects cmp) :
    (∀ a b, rangeCmp cmp b a = (rangeCmp cmp a b).swap) ∧
    (∀ a b c, (rangeCmp cmp a b).isLE → (rangeCmp cmp b c).isLE → (rangeCmp cmp a c).isLE) ∧
    (∀ a b, a.flags.empty = true → rangeCmp cmp a b = if b.flags.empty then .eq else .lt) ∧
    (∀ a b, rangeCmp cmp a b = .eq ↔ rangeEqInternal cmp a b = true) ∧
    ∀ a b, WellFormed cmp a → WellFormed cmp b → rangeEqInternal cmp a b = true →
      hashRange scache a = hashRange scache b ∧
        ∀ seed, hashRangeExtended scache a seed = hashRangeExtended scache b seed := by
  refine ⟨rangeCmp_swap cmp, ?_, ?_, ?_, ?_⟩
  · intro a b c hab hbc
    exact rangeCmp_isLE_trans hab hbc
  · intro a b ha
    exact rangeCmp_of_empty ha
  · intro a b
    exact rangeCmp_eq_iff
  · intro a b ha hb heq
    exact ⟨hashRange_eq_of_rangeEq hhash ha hb heq,
      hashRangeExtended_eq_of_rangeEq hhash ha hb heq⟩

/-- The hash functions `hashint4` and `hashint4extended`. -/
def hashint4 : ElementHash ℤ where
  hashProc := some fun v => hashUint32 (UInt32.ofInt v)
  hashExtendedProc := some fun v seed => hashUint32Extended (UInt32.ofInt v) seed

/-- For `int4`, whose comparison tells all values apart. -/
theorem rangeCmp_eq_hash_int4 :
    (∀ a b : RangeType ℤ, WellFormed btintcmp a → WellFormed btintcmp b →
        rangeCmp btintcmp a b = .eq → hashRange hashint4 a = hashRange hashint4 b) ∧
      hashint4.Respects btintcmp := by
  have hrespects : hashint4.Respects btintcmp := by
    constructor
    · intro f _ v w hvw
      rw [compareInt_eq_iff.mp hvw]
    · intro f _ v w seed hvw
      rw [compareInt_eq_iff.mp hvw]
  obtain ⟨-, -, -, heq, hhash⟩ := rangeCmp_eq_hash btintcmp hashint4 hrespects
  refine ⟨fun a b ha hb hcmp => ?_, hrespects⟩
  exact (hhash a b ha hb ((heq a b).mp hcmp)).1

end PgRange
