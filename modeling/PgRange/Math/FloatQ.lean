import Mathlib.Algebra.Order.Ring.Rat
import Mathlib.Algebra.Order.Field.Rat
import Mathlib.Algebra.BigOperators.Group.List.Basic
import Mathlib.Tactic.Linarith

/-!
# Floating-point values over exact rationals

A floating-point computation read without rounding: finite values are rationals,
and a division by zero gives an infinity or no number, as the hardware does. The
zero is taken as the positive one, the only one that a conversion from an
integer produces.
-/

set_option autoImplicit false

namespace PgRange.Math

/-- A floating-point value whose finite part is exact. -/
inductive FloatQ
  | nan
  | negInf
  | fin (q : ℚ)
  | posInf
  deriving DecidableEq, Repr

namespace FloatQ

/-- The infinity with the sign of `q`; no number if `q` has none. -/
def infOfSign (q : ℚ) : FloatQ :=
  if q < 0 then negInf else if 0 < q then posInf else nan

/-- Addition; opposite infinities have no sum. -/
def add : FloatQ → FloatQ → FloatQ
  | nan, _ | _, nan => nan
  | fin p, fin q => fin (p + q)
  | posInf, negInf | negInf, posInf => nan
  | posInf, _ | _, posInf => posInf
  | negInf, _ | _, negInf => negInf

/-- Multiplication; zero times an infinity is no number. -/
def mul : FloatQ → FloatQ → FloatQ
  | nan, _ | _, nan => nan
  | fin p, fin q => fin (p * q)
  | fin p, posInf | posInf, fin p => infOfSign p
  | fin p, negInf | negInf, fin p => infOfSign (-p)
  | posInf, posInf | negInf, negInf => posInf
  | posInf, negInf | negInf, posInf => negInf

/-- Division, with a divisor of zero read as positive zero. -/
def div : FloatQ → FloatQ → FloatQ
  | nan, _ | _, nan => nan
  | fin p, fin q => if q = 0 then infOfSign p else fin (p / q)
  | fin _, posInf | fin _, negInf => fin 0
  | posInf, fin q => if q < 0 then negInf else posInf
  | negInf, fin q => if q < 0 then posInf else negInf
  | posInf, posInf | posInf, negInf | negInf, posInf | negInf, negInf => nan

/-- Subtraction; an infinity has no difference from itself. -/
def sub : FloatQ → FloatQ → FloatQ
  | nan, _ | _, nan => nan
  | fin p, fin q => fin (p - q)
  | posInf, posInf | negInf, negInf => nan
  | posInf, _ | _, negInf => posInf
  | negInf, _ | _, posInf => negInf

/-- Change of sign. -/
def neg : FloatQ → FloatQ
  | nan => nan
  | negInf => posInf
  | fin q => fin (-q)
  | posInf => negInf

/-- The comparison `<`, false as soon as one side is no number. -/
def lt : FloatQ → FloatQ → Bool
  | nan, _ | _, nan => false
  | fin p, fin q => p < q
  | negInf, negInf | posInf, posInf => false
  | negInf, _ | _, posInf => true
  | posInf, _ | _, negInf => false

/-- The comparison `≤`, false as soon as one side is no number. -/
def le : FloatQ → FloatQ → Bool
  | nan, _ | _, nan => false
  | fin p, fin q => p ≤ q
  | negInf, _ | _, posInf => true
  | posInf, _ | _, negInf => false

/-- The comparison `==`, false as soon as one side is no number. -/
def isEq (x y : FloatQ) : Bool := x ≠ nan && x = y

instance : Add FloatQ := ⟨add⟩

instance : Mul FloatQ := ⟨mul⟩

instance : Div FloatQ := ⟨div⟩

instance : Sub FloatQ := ⟨sub⟩

/-- The macro `isinf`. -/
def isInf : FloatQ → Bool
  | posInf | negInf => true
  | nan | fin _ => false

/-- The macro `isnan`. -/
def isNan : FloatQ → Bool
  | nan => true
  | negInf | fin _ | posInf => false

/-- The macro `Max`; the second argument unless the first is greater. -/
def max (x y : FloatQ) : FloatQ := if y.lt x then x else y

/-- The macro `Min`; the second argument unless the first is less. -/
def min (x y : FloatQ) : FloatQ := if x.lt y then x else y

theorem infOfSign_of_neg {q : ℚ} (hq : q < 0) : infOfSign q = negInf := if_pos hq

theorem infOfSign_of_pos {q : ℚ} (hq : 0 < q) : infOfSign q = posInf := by
  rw [infOfSign, if_neg (not_lt.mpr hq.le), if_pos hq]

@[simp] theorem infOfSign_zero : infOfSign 0 = nan := by simp [infOfSign]

@[simp] theorem fin_add_fin (p q : ℚ) : fin p + fin q = fin (p + q) := rfl

@[simp] theorem fin_mul_fin (p q : ℚ) : fin p * fin q = fin (p * q) := rfl

@[simp] theorem fin_sub_fin (p q : ℚ) : fin p - fin q = fin (p - q) := rfl

@[simp] theorem isInf_fin (q : ℚ) : (fin q).isInf = false := rfl

@[simp] theorem isNan_fin (q : ℚ) : (fin q).isNan = false := rfl

protected theorem mul_comm (x y : FloatQ) : x * y = y * x := by
  cases x <;> cases y
  case fin.fin p q => rw [fin_mul_fin, fin_mul_fin, mul_comm]
  all_goals rfl

theorem fin_div_fin {p q : ℚ} (hq : q ≠ 0) : fin p / fin q = fin (p / q) :=
  if_neg hq

theorem fin_div_zero (p : ℚ) : fin p / fin 0 = infOfSign p := by
  change (if (0 : ℚ) = 0 then infOfSign p else fin (p / 0)) = infOfSign p
  rw [if_pos rfl]

theorem fin_mul_negInf (p : ℚ) : fin p * negInf = infOfSign (-p) := rfl

theorem posInf_div_fin {q : ℚ} (hq : 0 ≤ q) : posInf / fin q = posInf :=
  if_neg (not_lt.mpr hq)

theorem negInf_div_fin {q : ℚ} (hq : 0 ≤ q) : negInf / fin q = negInf :=
  if_neg (not_lt.mpr hq)

@[simp] theorem fin_lt_fin (p q : ℚ) : (fin p).lt (fin q) = decide (p < q) := rfl

@[simp] theorem fin_le_fin (p q : ℚ) : (fin p).le (fin q) = decide (p ≤ q) := rfl

@[simp] theorem fin_isEq_fin (p q : ℚ) : (fin p).isEq (fin q) = decide (p = q) := by
  simp [isEq]

@[simp] theorem max_fin_fin (p q : ℚ) : (fin p).max (fin q) = fin (Max.max p q) := by
  rw [max, fin_lt_fin]
  rcases lt_or_ge q p with h | h
  · rw [if_pos (decide_eq_true h), max_eq_left h.le]
  · rw [if_neg (by simpa using h), max_eq_right h]

@[simp] theorem min_fin_fin (p q : ℚ) : (fin p).min (fin q) = fin (Min.min p q) := by
  rw [min, fin_lt_fin]
  rcases lt_or_ge p q with h | h
  · rw [if_pos (decide_eq_true h), min_eq_left h.le]
  · rw [if_neg (by simpa using h), min_eq_right h]

protected theorem lt_of_le_of_lt {x y z : FloatQ} (hxy : x.le y = true) (hyz : y.lt z = true) :
    x.lt z = true := by
  cases y with
  | nan | posInf => cases z <;> cases hyz
  | negInf =>
    cases x with
    | nan | fin _ | posInf => cases hxy
    | negInf => exact hyz
  | fin q =>
    cases x with
    | nan | posInf => cases hxy
    | negInf => cases z <;> first | rfl | cases hyz
    | fin p =>
      cases z with
      | nan | negInf => cases hyz
      | fin r => exact decide_eq_true ((of_decide_eq_true hxy).trans_lt (of_decide_eq_true hyz))
      | posInf => rfl

protected theorem le_trans {x y z : FloatQ} (hxy : x.le y = true) (hyz : y.le z = true) :
    x.le z = true := by
  cases y with
  | nan => cases hyz
  | negInf =>
    cases x with
    | nan | fin _ | posInf => cases hxy
    | negInf => exact hyz
  | fin q =>
    cases x with
    | nan | posInf => cases hxy
    | negInf => cases z <;> first | rfl | cases hyz
    | fin p =>
      cases z with
      | nan | negInf => cases hyz
      | fin r => exact decide_eq_true ((of_decide_eq_true hxy).trans (of_decide_eq_true hyz))
      | posInf => rfl
  | posInf =>
    cases z with
    | nan | negInf | fin _ => cases hyz
    | posInf => cases x <;> first | rfl | cases hxy

/-- A sum that has left the finite numbers does not come back. -/
protected theorem le_antisymm {x y : FloatQ} (hxy : x.le y = true) (hyx : y.le x = true) :
    x = y := by
  cases x with
  | nan => cases hxy
  | negInf =>
    cases y with
    | nan | fin _ | posInf => cases hyx
    | negInf => rfl
  | fin p =>
    cases y with
    | nan | negInf => cases hxy
    | posInf => cases hyx
    | fin q => exact congrArg fin ((of_decide_eq_true hxy).antisymm (of_decide_eq_true hyx))
  | posInf =>
    cases y with
    | nan | negInf | fin _ => cases hxy
    | posInf => rfl

theorem finite_of_add_finite {x y : FloatQ} {q : ℚ} (h : x + y = fin q) :
    ∃ a b, x = fin a ∧ y = fin b ∧ a + b = q := by
  change add x y = fin q at h
  cases x <;> cases y <;> simp_all [add]

/-- Adding up a list gives a finite number exactly if all its entries are finite. -/
theorem foldl_add_eq_fin_iff (xs : List FloatQ) (x : FloatQ) (q : ℚ) :
    xs.foldl (· + ·) x = fin q ↔
      ∃ (p : ℚ) (qs : List ℚ), x = fin p ∧ xs = qs.map fin ∧ p + qs.sum = q := by
  induction xs generalizing x with
  | nil => simp
  | cons y ys ih =>
    rw [List.foldl_cons, ih]
    constructor
    · rintro ⟨p, qs, hadd, rfl, hsum⟩
      obtain ⟨a, b, rfl, rfl, rfl⟩ := finite_of_add_finite hadd
      exact ⟨a, b :: qs, rfl, rfl, by rw [List.sum_cons, ← hsum, add_assoc]⟩
    · rintro ⟨p, qs, rfl, hys, hsum⟩
      cases qs with
      | nil => simp at hys
      | cons b qs =>
        obtain ⟨rfl, rfl⟩ := List.cons.inj hys
        exact ⟨p + b, qs, rfl, rfl, by rw [← hsum, List.sum_cons, add_assoc]⟩

/-! ### Sums of values that are not negative -/

/-- A value that is not negative is finite or the positive infinity. -/
theorem zero_le_iff {x : FloatQ} : (fin 0).le x = true ↔ x = posInf ∨ ∃ q, 0 ≤ q ∧ x = fin q := by
  cases x with
  | fin q => simp
  | posInf => exact iff_of_true rfl (Or.inl rfl)
  | nan | negInf =>
    refine iff_of_false Bool.false_ne_true ?_
    rintro (h | ⟨q, -, h⟩) <;> cases h

theorem le_posInf {x : FloatQ} (hx : (fin 0).le x = true) : x.le posInf = true := by
  obtain rfl | ⟨q, -, rfl⟩ := zero_le_iff.mp hx <;> rfl

theorem zero_le_of_le {x y : FloatQ} (hx : (fin 0).le x = true) (hxy : x.le y = true) :
    (fin 0).le y = true :=
  FloatQ.le_trans hx hxy

protected theorem add_nonneg {x y : FloatQ} (hx : (fin 0).le x = true) (hy : (fin 0).le y = true) :
    (fin 0).le (x + y) = true := by
  obtain rfl | ⟨p, hp, rfl⟩ := zero_le_iff.mp hx <;> obtain rfl | ⟨q, hq, rfl⟩ := zero_le_iff.mp hy
  · rfl
  · rfl
  · rfl
  · simpa using add_nonneg hp hq

protected theorem add_le_add {x x' y y' : FloatQ} (hx : (fin 0).le x = true)
    (hy : (fin 0).le y = true) (hxx' : x.le x' = true) (hyy' : y.le y' = true) :
    (x + y).le (x' + y') = true := by
  have hsum := FloatQ.add_nonneg hx hy
  obtain rfl | ⟨p', -, rfl⟩ := zero_le_iff.mp (zero_le_of_le hx hxx') <;>
    obtain rfl | ⟨q', -, rfl⟩ := zero_le_iff.mp (zero_le_of_le hy hyy')
  · exact le_posInf hsum
  · exact le_posInf hsum
  · exact le_posInf hsum
  · -- below a finite value there is only a finite one
    obtain rfl | ⟨p, -, rfl⟩ := zero_le_iff.mp hx
    · cases hxx'
    obtain rfl | ⟨q, -, rfl⟩ := zero_le_iff.mp hy
    · cases hyy'
    exact decide_eq_true (add_le_add (of_decide_eq_true hxx') (of_decide_eq_true hyy'))

/-- Division by a positive number keeps the order. -/
theorem div_le_div {x y : FloatQ} (hxy : x.le y = true) {r : ℚ} (hr : 0 < r) :
    (x / fin r).le (y / fin r) = true := by
  cases x with
  | nan => cases hxy
  | negInf =>
    rw [negInf_div_fin hr.le]
    cases y with
    | nan => cases hxy
    | negInf => rw [negInf_div_fin hr.le]; rfl
    | fin q => rw [fin_div_fin hr.ne']; rfl
    | posInf => rw [posInf_div_fin hr.le]; rfl
  | fin p =>
    rw [fin_div_fin hr.ne']
    cases y with
    | nan | negInf => cases hxy
    | fin q =>
      rw [fin_div_fin hr.ne']
      exact decide_eq_true (div_le_div_of_nonneg_right (of_decide_eq_true hxy) hr.le)
    | posInf => rw [posInf_div_fin hr.le]; rfl
  | posInf =>
    cases y with
    | nan | negInf | fin _ => cases hxy
    | posInf => rw [posInf_div_fin hr.le]; rfl

end FloatQ

end PgRange.Math
