import PgRange.Math.Binary
import PgRange.Range.Operators
import Mathlib.Algebra.Order.Field.Rat
import Mathlib.Tactic.Linarith
import Mathlib.Tactic.Ring
import Mathlib.Tactic.Tauto

/-!
# Restriction selectivity with a constant range

`calc_rangesel` estimates the fraction of rows for which `column op constant` holds.
It combines three parts: null rows never match, empty ranges match or not
depending on the operator, and the histograms cover the rest. The histogram part,
`calc_hist_selectivity`, is a parameter here.

The part for empty ranges is compared with the operators themselves, which put
the empty range before all others in the b-tree order.

## Main results

* `calcRangesel_eq_iff` — the estimate weighs the empty ranges as the operator
  does, except that `<` and `<=` against a non-empty constant leave them out
-/

set_option autoImplicit false

namespace PgRange.Selectivity

open Math

/-- The range operators that the selectivity functions know by their OID. -/
inductive RangeOp
  | less | lessEqual | greaterEqual | greater | overlap | containsElem | contains
  | elemContained | contained | left | right | overlapsLeft | overlapsRight
  deriving DecidableEq, Repr

/-- `default_range_selectivity`; a literal of the source is the nearest `double`. -/
def defaultRangeSelectivity (operator : RangeOp) : ℚ :=
  BinaryFormat.double.nearest <|
    match operator with
    | .overlap => 1 / 100
    | .contains | .contained => 5 / 1000
    | .containsElem | .elemContained => 5 / 1000
    | .less | .lessEqual | .greater | .greaterEqual | .left | .right | .overlapsLeft
    | .overlapsRight => 3333333333333333 / 10000000000000000

/-- `CLAMP_PROBABILITY`. -/
def clampProbability (p : ℚ) : ℚ := if p < 0 then 0 else if p > 1 then 1 else p

/-- What `calc_rangesel` looks up of a column's statistics: the null fraction and,
if the slot exists, the numbers stored with the length histogram. -/
structure ColumnFractions where
  stanullfrac : ℚ
  lengthNumbers : Option (List ℚ)

/-- The null and the empty fraction, both zero without statistics. -/
def nullAndEmptyFrac : Option ColumnFractions → Except Fault (ℚ × ℚ)
  | none => .ok (0, 0)
  | some stats =>
    match stats.lengthNumbers with
    | none => .ok (stats.stanullfrac, 0)
    | some [emptyFrac] => .ok (stats.stanullfrac, emptyFrac)
    | some _ => .error .invalidEmptyFraction

variable {α : Type}

/-- The fraction of the rows that are not null, against an empty constant. -/
def emptyConstSelec (emptyFrac : ℚ) : RangeOp → Except Fault ℚ
  | .overlap | .overlapsLeft | .overlapsRight | .left | .right | .less => .ok 0
  | .contained | .lessEqual => .ok emptyFrac
  | .contains | .greaterEqual => .ok 1
  | .greater => .ok (1 - emptyFrac)
  | .containsElem | .elemContained => .error .unexpectedOperator

/-- The fraction of the rows that are not null, against a non-empty constant. A
histogram estimate below zero means that there is none. -/
def nonEmptyConstSelec (emptyFrac histSelec : ℚ) (operator : RangeOp) : ℚ :=
  let histSelec := if histSelec < 0 then defaultRangeSelectivity operator else histSelec
  -- every range contains the empty rows; no other operator adds them
  if operator = .contained then (1 - emptyFrac) * histSelec + emptyFrac
  else (1 - emptyFrac) * histSelec

/-- `calc_rangesel`. -/
def calcRangesel (calcHistSelectivity : RangeType α → RangeOp → ℚ)
    (stats : Option ColumnFractions) (constval : RangeType α) (operator : RangeOp) :
    Except Fault ℚ := do
  let (nullFrac, emptyFrac) ← nullAndEmptyFrac stats
  let selec ←
    if rangeIsEmpty constval then emptyConstSelec emptyFrac operator
    else .ok (nonEmptyConstSelec emptyFrac (calcHistSelectivity constval operator) operator)
  return clampProbability (selec * (1 - nullFrac))

/-! ### The operators themselves -/

/-- What the operator returns on two ranges; the element operators have no value
here. -/
def RangeOp.holds [Inhabited α] (cmp : α → α → Ordering) :
    RangeOp → RangeType α → RangeType α → Bool
  | .less, a, b => (rangeCmp cmp a b).isLT
  | .lessEqual, a, b => (rangeCmp cmp a b).isLE
  | .greaterEqual, a, b => (rangeCmp cmp a b).isGE
  | .greater, a, b => (rangeCmp cmp a b).isGT
  | .overlap, a, b => rangeOverlapsInternal cmp a b
  | .contains, a, b => rangeContainsInternal cmp a b
  | .contained, a, b => rangeContainedByInternal cmp a b
  | .left, a, b => rangeBeforeInternal cmp a b
  | .right, a, b => rangeAfterInternal cmp a b
  | .overlapsLeft, a, b => rangeOverleftInternal cmp a b
  | .overlapsRight, a, b => rangeOverrightInternal cmp a b
  | .containsElem, _, _ | .elemContained, _, _ => false

/-- One of the operators between two ranges. -/
def RangeOp.betweenRanges : RangeOp → Prop
  | .containsElem | .elemContained => False
  | _ => True

/-- One or zero. -/
def indicator (b : Bool) : ℚ := if b then 1 else 0

section Truth

variable [Inhabited α] (cmp : α → α → Ordering)

/-- Against an empty constant the code gives the exact fraction: each row that is
not null is either empty or not, and the operator treats all non-empty rows
alike. -/
theorem emptyConstSelec_eq {op : RangeOp} (hop : op.betweenRanges) {c x : RangeType α}
    (hc : c.flags.empty = true) (hx : x.flags.empty = false) (e : ℚ) :
    emptyConstSelec e op =
      .ok (e * indicator (op.holds cmp emptyRange c) +
        (1 - e) * indicator (op.holds cmp x c)) := by
  cases op <;>
    first
      | exact hop.elim
      | simp [emptyConstSelec, RangeOp.holds, indicator, rangeCmp, rangeOverlapsInternal,
          rangeOverleftInternal, rangeOverrightInternal, rangeBeforeInternal,
          rangeAfterInternal, rangeContainedByInternal, rangeContainsInternal, emptyRange, hc, hx]

/-- Against a non-empty constant the empty range is less, at most and contained. -/
theorem holds_emptyRange_iff {op : RangeOp} {c : RangeType α} (hc : c.flags.empty = false) :
    op.holds cmp emptyRange c = true ↔ op = .less ∨ op = .lessEqual ∨ op = .contained := by
  cases op <;>
    simp [RangeOp.holds, rangeCmp, rangeOverlapsInternal, rangeOverleftInternal,
      rangeOverrightInternal, rangeBeforeInternal, rangeAfterInternal, rangeContainedByInternal,
      rangeContainsInternal, emptyRange, hc]

end Truth

theorem clampProbability_of_mem {p : ℚ} (h0 : 0 ≤ p) (h1 : p ≤ 1) : clampProbability p = p := by
  unfold clampProbability
  rw [if_neg (not_lt.mpr h0), if_neg (not_lt.mpr h1)]

/-- A convex combination of probabilities is a probability. -/
theorem mix_mem {e p q : ℚ} (he : 0 ≤ e ∧ e ≤ 1) (hp : 0 ≤ p ∧ p ≤ 1) (hq : 0 ≤ q ∧ q ≤ 1) :
    0 ≤ e * p + (1 - e) * q ∧ e * p + (1 - e) * q ≤ 1 := by
  constructor <;> nlinarith

theorem indicator_mem (b : Bool) : 0 ≤ indicator b ∧ indicator b ≤ 1 := by
  cases b <;> simp [indicator]

/-- What `calc_rangesel` returns: the fraction of the rows that are not null, a
probability, without the null rows. -/
theorem calcRangesel_eq {n e h selec : ℚ} (hn : 0 ≤ n ∧ n ≤ 1) (hselec : 0 ≤ selec ∧ selec ≤ 1)
    {c : RangeType α} {op : RangeOp}
    (hempty : c.flags.empty = true → emptyConstSelec e op = .ok selec)
    (hrest : c.flags.empty = false → nonEmptyConstSelec e h op = selec) :
    calcRangesel (fun _ _ => h) (some ⟨n, some [e]⟩) c op = .ok ((1 - n) * selec) := by
  have hclamp : clampProbability (selec * (1 - n)) = (1 - n) * selec := by
    rw [clampProbability_of_mem (by nlinarith) (by nlinarith), mul_comm]
  cases hc : c.flags.empty with
  | true =>
    simp [calcRangesel, nullAndEmptyFrac, rangeIsEmpty, hc, hempty hc, bind, Except.bind, pure,
      Except.pure, hclamp]
  | false =>
    simp [calcRangesel, nullAndEmptyFrac, rangeIsEmpty, hc, hrest hc, bind, Except.bind, pure,
      Except.pure, hclamp]

/-- Against a non-empty constant the code counts the empty rows for `<@` alone. -/
theorem calcRangesel_of_nonEmpty {n e h : ℚ} (hn : 0 ≤ n ∧ n ≤ 1) (he : 0 ≤ e ∧ e ≤ 1)
    (hh : 0 ≤ h ∧ h ≤ 1) {c : RangeType α} (hc : c.flags.empty = false) (op : RangeOp) :
    calcRangesel (fun _ _ => h) (some ⟨n, some [e]⟩) c op =
      .ok ((1 - n) * (e * indicator (decide (op = .contained)) + (1 - e) * h)) := by
  refine calcRangesel_eq hn (mix_mem he (indicator_mem _) hh)
    (fun hempty => absurd hc (by simp [hempty])) fun _ => ?_
  by_cases hcontained : op = .contained
  · simp [nonEmptyConstSelec, not_lt.mpr hh.1, hcontained, indicator, add_comm]
  · simp [nonEmptyConstSelec, not_lt.mpr hh.1, hcontained, indicator]

/-- The estimate weighs the empty rows as the operator treats them exactly when the
constant is empty, the operator is neither `<` nor `<=`, or there is no row that
is empty and not null. -/
theorem calcRangesel_eq_iff [Inhabited α] (cmp : α → α → Ordering) (op : RangeOp)
    (hop : op.betweenRanges) (c x : RangeType α) (hx : x.flags.empty = false) (n e h : ℚ)
    (hn : 0 ≤ n ∧ n ≤ 1) (he : 0 ≤ e ∧ e ≤ 1) (hh : 0 ≤ h ∧ h ≤ 1) :
    calcRangesel (fun _ _ => h) (some ⟨n, some [e]⟩) c op =
      .ok ((1 - n) * (e * indicator (op.holds cmp emptyRange c) +
        (1 - e) * (if c.flags.empty then indicator (op.holds cmp x c) else h))) ↔
    c.flags.empty = true ∨ (op ≠ .less ∧ op ≠ .lessEqual) ∨ e = 0 ∨ n = 1 := by
  cases hc : c.flags.empty with
  | true =>
    refine iff_of_true ?_ (Or.inl rfl)
    have hmix := mix_mem he (indicator_mem (op.holds cmp emptyRange c))
      (indicator_mem (op.holds cmp x c))
    rw [calcRangesel_eq hn hmix (fun _ => emptyConstSelec_eq cmp hop hc hx e)
      (fun hne => absurd hc (by simp [hne])), if_pos rfl]
  | false =>
    rw [calcRangesel_of_nonEmpty hn he hh hc]
    by_cases hless : op = .less ∨ op = .lessEqual
    · -- the empty rows satisfy the operator, and the code leaves them out
      have hholds : op.holds cmp emptyRange c = true :=
        (holds_emptyRange_iff cmp hc).mpr (by tauto)
      have hcontained : op ≠ .contained := by
        rcases hless with rfl | rfl <;> decide
      have hnotop : ¬ (op ≠ .less ∧ op ≠ .lessEqual) := by tauto
      rw [hholds, Except.ok.injEq]
      simp only [hcontained, indicator, decide_false, ↓reduceIte, Bool.false_eq_true, mul_zero,
        mul_one, zero_add]
      constructor
      · intro heq
        have hlost : (1 - n) * e = 0 := by linarith
        rcases mul_eq_zero.mp hlost with hzero | hzero
        · exact Or.inr (Or.inr (Or.inr (by linarith)))
        · exact Or.inr (Or.inr (Or.inl hzero))
      · rintro (hfalse | hother | rfl | rfl)
        · exact absurd hfalse (by simp)
        · exact absurd hother hnotop
        · ring
        · ring
    · have hholds : op.holds cmp emptyRange c = decide (op = .contained) := by
        rw [Bool.eq_iff_iff, holds_emptyRange_iff cmp hc, decide_eq_true_iff]
        tauto
      rw [hholds]
      exact iff_of_true rfl (Or.inr (Or.inl (by tauto)))

/-- Half of the rows are empty, and no histogram row is less than `[1,5)`: the code
estimates that no row is, though the empty half is. -/
theorem calcRangesel_less_empty :
    calcRangesel (fun _ _ => 0) (some ⟨0, some [1 / 2]⟩)
      (packRange (⟨1, false, true, true⟩ : RangeBound ℤ) ⟨5, false, false, false⟩) .less = .ok 0 ∧
    (1 - 0) * (1 / 2 * indicator (RangeOp.holds btintcmp .less emptyRange
      (packRange ⟨1, false, true, true⟩ ⟨5, false, false, false⟩)) + (1 - 1 / 2) * 0) = 1 / 2 := by
  refine ⟨by decide +kernel, ?_⟩
  have hholds : RangeOp.holds btintcmp .less emptyRange
      (packRange ⟨1, false, true, true⟩ ⟨5, false, false, false⟩) = true := rfl
  rw [hholds, indicator, if_pos rfl]
  norm_num

/-- For `@>` the two agree: a quarter null, half of the rest empty, and a third of
the others containing `[1,5)`. -/
theorem calcRangesel_eq_iff_contains :
    calcRangesel (fun _ _ => 1 / 3) (some ⟨1 / 4, some [1 / 2]⟩)
        (packRange (⟨1, false, true, true⟩ : RangeBound ℤ) ⟨5, false, false, false⟩) .contains =
      .ok ((1 - 1 / 4) * (1 / 2 * indicator (RangeOp.holds btintcmp .contains emptyRange
        (packRange ⟨1, false, true, true⟩ ⟨5, false, false, false⟩)) + (1 - 1 / 2) * (1 / 3))) :=
  (calcRangesel_eq_iff btintcmp .contains trivial
    (packRange ⟨1, false, true, true⟩ ⟨5, false, false, false⟩)
    (packRange ⟨1, false, true, true⟩ ⟨5, false, false, false⟩) rfl (1 / 4) (1 / 2) (1 / 3)
    (by norm_num) (by norm_num) (by norm_num)).mpr (Or.inr (Or.inl (by decide)))

end PgRange.Selectivity
