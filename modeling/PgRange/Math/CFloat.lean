import PgRange.Math.Binary

/-!
# Readings of the C floating-point types

A floating-point computation of a C program can be read with the rounding of a binary format after
every operation, or over the exact rationals. `CFloat` packages a rounding with the facts that hold
in either reading: it keeps zero, the sign and the order, and what has been rounded is left alone.

A model that is written once over a `CFloat` can then be compared with itself under two readings, as
one over a `CInt` can. Sums are those of a loop, rounded after each addition.

## Main results

* `CFloat.sum_le_sum` — more entries that are not negative give no smaller sum
* `CFloat.sum_filter_congr` — entries that are zero do not matter
* `CFloat.Adds.sum_eq` — multiples of one unit are added without rounding
* `CFloat.float8_foldl_div_le` — how far a sum of parts can exceed the whole
-/

set_option autoImplicit false

namespace PgRange.Math

/-- A reading of a floating-point type: what is kept of an exact result. -/
structure CFloat where
  round : ℚ → FloatQ
  round_zero : round 0 = .fin 0
  round_neg : ∀ x, round (-x) = (round x).neg
  round_mono : ∀ {x y}, x ≤ y → (round x).le (round y) = true
  round_idem : ∀ {x y}, round x = .fin y → round y = .fin y
  round_two_zpow : ∀ {k : ℤ}, -126 ≤ k → k < 128 → round (2 ^ k) = .fin (2 ^ k)
  round_add_round : ∀ {x y p q}, 0 ≤ x → x ≤ y → x + y ≤ 1 → round x = .fin p →
    round y = .fin q → (round (p + q)).le (.fin 1) = true

namespace CFloat

/-- The mathematical reading: nothing is lost. -/
def exact : CFloat where
  round := .fin
  round_zero := rfl
  round_neg _ := rfl
  round_mono h := decide_eq_true h
  round_idem _ := rfl
  round_two_zpow _ _ := rfl
  round_add_round _ _ hsum hp hq := by
    obtain rfl := FloatQ.fin.inj hp
    obtain rfl := FloatQ.fin.inj hq
    exact decide_eq_true hsum

/-- The machine reading: every result is rounded to the format. -/
def ofFormat (f : BinaryFormat) : CFloat where
  round := f.round
  round_zero := f.round_zero
  round_neg _ := f.round_neg
  round_mono := f.round_mono
  round_idem := f.round_idem
  round_two_zpow := f.round_two_zpow
  round_add_round {x y p q} hx hxy hsum hp hq := by
    have hnear : ∀ {z r : ℚ}, f.round z = .fin r → r = f.nearest z := by
      intro z r hr
      rcases f.round_cases z with ⟨-, h⟩ | ⟨-, h⟩ | ⟨-, h⟩ <;> rw [h] at hr <;> cases hr
      rfl
    obtain rfl := hnear hp
    obtain rfl := hnear hq
    have hone : f.round 1 = .fin 1 := by
      simpa using f.round_two_zpow (k := 0) (by norm_num) (by norm_num)
    have hle : f.nearest (f.nearest x + f.nearest y) ≤ 1 := f.nearest_add_nearest_le hx hxy hsum
    have hpos := add_nonneg (f.nearest_nonneg hx) (f.nearest_nonneg (hx.trans hxy))
    have hfin : |f.nearest (f.nearest x + f.nearest y)| < 2 ^ f.top := by
      rw [abs_of_nonneg (f.nearest_nonneg hpos)]
      refine hle.trans_lt (one_lt_zpow₀ (by norm_num) ?_)
      have := f.le_top
      omega
    rw [f.round_of_lt hfin]
    exact decide_eq_true hle

/-- `float`. -/
def float4 : CFloat := ofFormat .single

/-- `double`, which is `float8`. -/
def float8 : CFloat := ofFormat .double

variable (R : CFloat)

/-- A result after rounding. -/
def rounded : FloatQ → FloatQ
  | .fin q => R.round q
  | x => x

/-- Addition. -/
def add (x y : FloatQ) : FloatQ := R.rounded (x + y)

/-- Subtraction. -/
def sub (x y : FloatQ) : FloatQ := R.rounded (x - y)

/-- Multiplication. -/
def mul (x y : FloatQ) : FloatQ := R.rounded (x * y)

/-- Division. -/
def div (x y : FloatQ) : FloatQ := R.rounded (x / y)

/-- The sum that a loop computes. -/
def sum (xs : List FloatQ) : FloatQ := xs.foldl R.add (.fin 0)

@[simp] theorem exact_rounded (x : FloatQ) : exact.rounded x = x := by cases x <;> rfl

@[simp] theorem exact_add (x y : FloatQ) : exact.add x y = x + y := exact_rounded _

@[simp] theorem exact_div (x y : FloatQ) : exact.div x y = x / y := exact_rounded _

/-- The exact reading of a sum. -/
theorem exact_sum (qs : List ℚ) : exact.sum (qs.map .fin) = .fin qs.sum := by
  have hadd : exact.add = (· + ·) := by
    funext x y
    exact exact_add x y
  rw [sum, hadd, FloatQ.foldl_add_eq_fin_iff]
  exact ⟨0, qs, rfl, rfl, zero_add _⟩

/-! ### Order -/

variable {R} {x y : FloatQ}

theorem round_ne_nan (q : ℚ) : R.round q ≠ .nan := by
  intro h
  have hle := R.round_mono (le_refl q)
  rw [h] at hle
  cases hle

theorem rounded_le_rounded (h : x.le y = true) : (R.rounded x).le (R.rounded y) = true := by
  cases x with
  | nan => cases h
  | negInf =>
    cases y with
    | nan => cases h
    | negInf | posInf => rfl
    | fin q =>
      change FloatQ.negInf.le (R.round q) = true
      cases hq : R.round q with
      | nan => exact absurd hq (round_ne_nan q)
      | negInf | fin _ | posInf => rfl
  | fin p =>
    cases y with
    | nan | negInf => cases h
    | fin q => exact R.round_mono (of_decide_eq_true h)
    | posInf =>
      change (R.round p).le FloatQ.posInf = true
      cases hp : R.round p with
      | nan => exact absurd hp (round_ne_nan p)
      | negInf | fin _ | posInf => rfl
  | posInf =>
    cases y with
    | nan | negInf | fin _ => cases h
    | posInf => rfl

@[simp] theorem rounded_zero : R.rounded (.fin 0) = .fin 0 := R.round_zero

theorem zero_le_rounded (h : (FloatQ.fin 0).le x = true) : (FloatQ.fin 0).le (R.rounded x) = true := by
  simpa using rounded_le_rounded (R := R) h

/-- A value that has been rounded. -/
def IsValue (R : CFloat) (x : FloatQ) : Prop := R.rounded x = x

theorem isValue_rounded (x : FloatQ) : R.IsValue (R.rounded x) := by
  cases x with
  | nan | negInf | posInf => rfl
  | fin q =>
    change R.rounded (R.round q) = R.round q
    cases h : R.round q with
    | nan | negInf | posInf => rfl
    | fin p => exact R.round_idem h

theorem isValue_zero : R.IsValue (.fin 0) := rounded_zero

theorem add_fin_zero (hx : R.IsValue x) : R.add x (.fin 0) = x := by
  have hsame : x + .fin 0 = x := by
    cases x with
    | nan | negInf | posInf => rfl
    | fin q => rw [FloatQ.fin_add_fin, add_zero]
  rw [add, hsame]
  exact hx

theorem zero_le_add (hx : (FloatQ.fin 0).le x = true) (hy : (FloatQ.fin 0).le y = true) :
    (FloatQ.fin 0).le (R.add x y) = true :=
  zero_le_rounded (FloatQ.add_nonneg hx hy)

/-- Adding what is not negative gives no smaller value. -/
theorem le_add (hx : R.IsValue x) (hx0 : (FloatQ.fin 0).le x = true)
    (hy : (FloatQ.fin 0).le y = true) : x.le (R.add x y) = true := by
  have hself : x.le x = true := by
    obtain rfl | ⟨q, -, rfl⟩ := FloatQ.zero_le_iff.mp hx0
    · rfl
    · simp
  have hle := rounded_le_rounded (R := R)
    (FloatQ.add_le_add (y := .fin 0) hx0 rfl hself hy)
  change (R.add x (.fin 0)).le (R.add x y) = true at hle
  rwa [add_fin_zero hx] at hle

/-- More entries that are not negative give no smaller sum. -/
theorem foldl_le_foldl {xs ys : List FloatQ} (h : xs.Sublist ys)
    (hys : ∀ z ∈ ys, (FloatQ.fin 0).le z = true) (hx : (FloatQ.fin 0).le x = true)
    (hy : R.IsValue y) (hxy : x.le y = true) :
    (xs.foldl R.add x).le (ys.foldl R.add y) = true := by
  induction h generalizing x y with
  | slnil => exact hxy
  | cons z _ ih =>
    have hz := hys z List.mem_cons_self
    refine ih (fun w hw => hys w (List.mem_cons_of_mem z hw)) hx (isValue_rounded _) ?_
    exact FloatQ.le_trans hxy (le_add hy (FloatQ.zero_le_of_le hx hxy) hz)
  | cons_cons z _ ih =>
    have hz := hys z List.mem_cons_self
    have hself : z.le z = true := by
      obtain rfl | ⟨q, -, rfl⟩ := FloatQ.zero_le_iff.mp hz
      · rfl
      · simp
    exact ih (fun w hw => hys w (List.mem_cons_of_mem z hw)) (zero_le_add hx hz) (isValue_rounded _)
      (rounded_le_rounded (FloatQ.add_le_add hx hz hxy hself))

theorem sum_le_sum {xs ys : List FloatQ} (h : xs.Sublist ys)
    (hys : ∀ z ∈ ys, (FloatQ.fin 0).le z = true) : (R.sum xs).le (R.sum ys) = true :=
  foldl_le_foldl h hys rfl isValue_zero rfl

theorem zero_le_sum {xs : List FloatQ} (hxs : ∀ z ∈ xs, (FloatQ.fin 0).le z = true) :
    (FloatQ.fin 0).le (R.sum xs) = true :=
  sum_le_sum (List.nil_sublist xs) hxs

/-- Entries that are zero do not matter. -/
theorem sum_filter_congr {ι : Type*} {l : List ι} {f : ι → FloatQ} {p q : ι → Bool}
    (h : ∀ i ∈ l, p i ≠ q i → f i = .fin 0) :
    R.sum ((l.filter p).map f) = R.sum ((l.filter q).map f) := by
  have hfold : ∀ x, R.IsValue x →
      ((l.filter p).map f).foldl R.add x = ((l.filter q).map f).foldl R.add x := by
    induction l with
    | nil => exact fun x _ => rfl
    | cons i l ih =>
      intro x hx
      have ih := ih fun j hj => h j (List.mem_cons_of_mem i hj)
      have hi := h i List.mem_cons_self
      rw [List.filter_cons, List.filter_cons]
      cases hp : p i <;> cases hq : q i <;>
        simp only [Bool.false_eq_true, ↓reduceIte, List.map_cons, List.foldl_cons]
      · exact ih x hx
      · rw [hi (by simp [hp, hq]), add_fin_zero hx]
        exact ih x hx
      · rw [hi (by simp [hp, hq]), add_fin_zero hx]
        exact ih x hx
      · exact ih _ (isValue_rounded _)
  exact hfold _ isValue_zero

/-- Division by a positive number keeps the order. -/
theorem div_le_div (hxy : x.le y = true) {r : ℚ} (hr : 0 < r) :
    (R.div x (.fin r)).le (R.div y (.fin r)) = true :=
  rounded_le_rounded (FloatQ.div_le_div hxy hr)

theorem zero_div_fin {r : ℚ} (hr : r ≠ 0) : R.div (.fin 0) (.fin r) = .fin 0 := by
  rw [div, FloatQ.fin_div_fin hr, zero_div]
  exact R.round_zero

theorem zero_le_div {r : ℚ} (hr : 0 < r) (hx : (FloatQ.fin 0).le x = true) :
    (FloatQ.fin 0).le (R.div x (.fin r)) = true := by
  have hle := div_le_div (R := R) hx hr
  rwa [zero_div_fin hr.ne'] at hle

theorem div_neg_fin {r : ℚ} (hr : 0 < r) (x : FloatQ) :
    R.div x.neg (.fin r) = (R.div x (.fin r)).neg := by
  cases x with
  | nan => rfl
  | negInf =>
    rw [FloatQ.neg, div, div, FloatQ.posInf_div_fin hr.le, FloatQ.negInf_div_fin hr.le]
    rfl
  | fin q =>
    rw [FloatQ.neg, div, div, FloatQ.fin_div_fin hr.ne', FloatQ.fin_div_fin hr.ne', neg_div]
    exact R.round_neg (q / r)
  | posInf =>
    rw [FloatQ.neg, div, div, FloatQ.posInf_div_fin hr.le, FloatQ.negInf_div_fin hr.le]
    rfl

/-- What is not too large stays finite. -/
theorem exists_round_eq_fin {q : ℚ} (hlow : -2 ^ (127 : ℤ) ≤ q) (hhigh : q ≤ 2 ^ (127 : ℤ)) :
    ∃ p, R.round q = .fin p := by
  have hpow := R.round_two_zpow (k := 127) (by norm_num) (by norm_num)
  have hle := R.round_mono hhigh
  have hge := R.round_mono hlow
  rw [R.round_neg, hpow] at hge
  rw [hpow] at hle
  cases hq : R.round q with
  | nan => exact absurd hq (round_ne_nan q)
  | negInf => rw [hq] at hge; cases hge
  | fin p => exact ⟨p, rfl⟩
  | posInf => rw [hq] at hle; cases hle

/-- Two parts of one do not exceed it. -/
theorem add_round_le_one {p q : ℚ} (hp : 0 ≤ p) (hq : 0 ≤ q) (hsum : p + q ≤ 1) :
    (R.add (R.round p) (R.round q)).le (.fin 1) = true := by
  have hbound : (1 : ℚ) ≤ 2 ^ (127 : ℤ) := by norm_num
  obtain ⟨p', hp'⟩ := exists_round_eq_fin (R := R) (q := p) (by linarith) (by linarith)
  obtain ⟨q', hq'⟩ := exists_round_eq_fin (R := R) (q := q) (by linarith) (by linarith)
  rw [hp', hq', add, FloatQ.fin_add_fin]
  rcases le_total p q with hle | hle
  · exact R.round_add_round hp hle hsum hp' hq'
  · rw [add_comm p' q']
    exact R.round_add_round hq hle (by linarith) hq' hp'

/-- What is at least `2 ^ (-126)` does not vanish. -/
theorem round_ne_zero {q : ℚ} {k : ℤ} (hk : -126 ≤ k) (hk' : k < 128) (hq : 2 ^ k ≤ q) :
    R.round q ≠ .fin 0 := by
  intro hzero
  have hle := R.round_mono hq
  rw [R.round_two_zpow hk hk', hzero, FloatQ.fin_le_fin, decide_eq_true_eq] at hle
  exact absurd hle (not_le.mpr (two_zpow_pos k))

/-! ### Distances that are told from none -/

/-- A number that is zero if something holds, and else is at least one. -/
def IsGap (x : FloatQ) (p : Prop) : Prop :=
  x = .fin 0 ∧ p ∨ (FloatQ.fin 1).le x = true ∧ ¬ p

/-- Rounding keeps the two apart. -/
theorem IsGap.rounded {p : Prop} (h : IsGap x p) : IsGap (R.rounded x) p := by
  rcases h with ⟨rfl, hp⟩ | ⟨hx, hp⟩
  · exact Or.inl ⟨rounded_zero, hp⟩
  · have hone : R.round 1 = .fin 1 := by
      simpa using R.round_two_zpow (k := 0) (by norm_num) (by norm_num)
    exact Or.inr ⟨hone ▸ rounded_le_rounded hx, hp⟩

theorem IsGap.add {p q : Prop} (hx : IsGap x p) (hy : IsGap y q) :
    IsGap (R.add x y) (p ∧ q) := by
  have hzero : ∀ {z : FloatQ} {p : Prop}, IsGap z p → (FloatQ.fin 0).le z = true := by
    rintro z p (⟨rfl, -⟩ | ⟨hz, -⟩)
    · decide
    · exact FloatQ.zero_le_of_le (by decide) hz
  have hx0 := hzero hx
  have hy0 := hzero hy
  refine IsGap.rounded ?_
  rcases hx with ⟨rfl, hp⟩ | ⟨hx, hp⟩
  · rcases hy with ⟨rfl, hq⟩ | ⟨hy, hq⟩
    · exact Or.inl ⟨by simp, hp, hq⟩
    · refine Or.inr ⟨?_, fun h => hq h.2⟩
      simpa using FloatQ.add_le_add (x := .fin 0) (y := .fin 1) (by decide) (by decide) hx0 hy
  · refine Or.inr ⟨?_, fun h => hp h.1⟩
    simpa using FloatQ.add_le_add (x := .fin 1) (y := .fin 0) (by decide) (by decide) hx hy0

theorem IsGap.eq_zero_iff {p : Prop} (h : IsGap x p) : x = .fin 0 ↔ p := by
  rcases h with ⟨hx, hp⟩ | ⟨hx, hp⟩
  · exact iff_of_true hx hp
  · refine iff_of_false ?_ hp
    rintro rfl
    exact absurd hx (by decide)

/-! ### Sums that need no rounding -/

/-- The entries are multiples of one unit, and so are the values of the format up to their sum. -/
def Adds (R : CFloat) (qs : List ℚ) : Prop :=
  ∃ unit : ℚ, 0 < unit ∧ (∀ q ∈ qs, ∃ m : ℕ, q = m * unit) ∧
    ∀ m : ℕ, m * unit ≤ qs.sum → R.round (m * unit) = .fin (m * unit)

theorem Adds.nonneg {qs : List ℚ} (h : R.Adds qs) : ∀ q ∈ qs, 0 ≤ q := by
  obtain ⟨unit, hunit, hmul, -⟩ := h
  intro q hq
  obtain ⟨m, rfl⟩ := hmul q hq
  positivity

/-- A part of them is added without rounding. -/
theorem Adds.sum_eq {qs ps : List ℚ} (h : R.Adds qs) (hsub : ps.Sublist qs) :
    R.sum (ps.map .fin) = .fin ps.sum := by
  have hnonneg := h.nonneg
  obtain ⟨unit, hunit, hmul, hround⟩ := h
  have hle : ps.sum ≤ qs.sum := hsub.sum_le_sum hnonneg
  -- the sum so far is a multiple of the unit
  have hfold : ∀ m : ℕ, m * unit + ps.sum ≤ qs.sum →
      (ps.map .fin).foldl R.add (.fin (m * unit)) = .fin (m * unit + ps.sum) := by
    have hps : ∀ q ∈ ps, ∃ m : ℕ, q = m * unit := fun q hq => hmul q (hsub.subset hq)
    clear hsub hle
    induction ps with
    | nil =>
      intro m _
      simp
    | cons q ps ih =>
      intro m hm
      obtain ⟨k, rfl⟩ := hps q List.mem_cons_self
      have hrest : 0 ≤ ps.sum := List.sum_nonneg fun q hq => by
        obtain ⟨j, rfl⟩ := hps q (List.mem_cons_of_mem _ hq)
        positivity
      rw [List.sum_cons] at hm
      have hsum : (m * unit + k * unit : ℚ) = ((m + k : ℕ) : ℚ) * unit := by
        push_cast
        ring
      have hadd : R.add (.fin (m * unit)) (.fin (k * unit)) = .fin ((m + k : ℕ) * unit) := by
        rw [add, FloatQ.fin_add_fin, hsum]
        exact hround _ (by rw [← hsum]; linarith)
      rw [List.map_cons, List.foldl_cons, hadd,
        ih (fun q hq => hps q (List.mem_cons_of_mem _ hq)) _ (by rw [← hsum]; linarith), ← hsum,
        List.sum_cons, add_assoc]
  have hall := hfold 0 (by simpa using hle)
  rw [Nat.cast_zero, zero_mul, zero_add] at hall
  exact hall

/-! ### How much rounding can add -/

/-- The unit of relative error, and a bound on the absolute one. -/
def delta : ℚ := 2 ^ (-53 : ℤ)

@[inherit_doc delta]
def epsilon : ℚ := 2 ^ (-200 : ℤ)

theorem delta_pos : 0 < delta := two_zpow_pos _

theorem epsilon_pos : 0 < epsilon := two_zpow_pos _

/-- A value that is not negative, in double precision. -/
theorem float8_round_le {q : ℚ} (hq : 0 ≤ q) (hle : q ≤ 2 ^ (100 : ℤ)) :
    ∃ y, float8.round q = .fin y ∧ 0 ≤ y ∧ y ≤ (q + epsilon) * (1 + delta) := by
  have hnear := BinaryFormat.nearest_le_mul (f := .double) hq
  have htiny : (2 : ℚ) ^ (BinaryFormat.double.least - BinaryFormat.double.digits) ≤
      epsilon * (1 + delta) :=
    (two_zpow_le (show BinaryFormat.double.least - BinaryFormat.double.digits ≤ -200 by decide)).trans
      (le_mul_of_one_le_right epsilon_pos.le (by linarith [delta_pos]))
  have hy : BinaryFormat.double.nearest q ≤ (q + epsilon) * (1 + delta) := by
    calc BinaryFormat.double.nearest q ≤ q * (1 + delta) + _ := hnear
      _ ≤ q * (1 + delta) + epsilon * (1 + delta) := by gcongr
      _ = (q + epsilon) * (1 + delta) := by ring
  have h0 := BinaryFormat.nearest_nonneg (f := .double) hq
  refine ⟨_, BinaryFormat.round_of_lt ?_, h0, hy⟩
  have hmono := BinaryFormat.nearest_mono (f := .double) hle
  rw [BinaryFormat.nearest_two_zpow (by decide)] at hmono
  rw [abs_of_nonneg h0]
  exact hmono.trans_lt (zpow_lt_zpow_right₀ (by norm_num) (by decide))

theorem pow_delta_nonneg (n : ℕ) : 0 ≤ (1 + delta) ^ n :=
  pow_nonneg (by linarith [delta_pos]) n

theorem one_le_pow_delta (n : ℕ) : 1 ≤ (1 + delta) ^ n :=
  one_le_pow₀ (by linarith [delta_pos])

/-- Adding a product to a sum, each rounded, adds two of the tiny errors and one relative one. -/
theorem float8_add_round_le {t s p : ℚ} {k : ℕ} (ht : 0 ≤ t) (hs : 0 ≤ s) (hp : 0 ≤ p)
    (hle : t ≤ (s + 2 * k * epsilon) * (1 + delta) ^ (k + 1))
    (hbound : (s + p + 2 * (k + 1) * epsilon) * (1 + delta) ^ (k + 2) ≤ 2 ^ (100 : ℤ)) :
    ∃ t', float8.add (.fin t) (float8.round p) = .fin t' ∧ 0 ≤ t' ∧
      t' ≤ (s + p + 2 * (k + 1) * epsilon) * (1 + delta) ^ (k + 2) := by
  have he := epsilon_pos
  have hd := delta_pos
  have hkeps : 0 ≤ 2 * (k : ℚ) * epsilon := by positivity
  have hpow1 := one_le_pow_delta (k + 1)
  have hpow2 := one_le_pow_delta (k + 2)
  have hsucc : (1 + delta) ^ (k + 2) = (1 + delta) ^ (k + 1) * (1 + delta) := pow_succ _ _
  have hfirst : 1 + delta ≤ (1 + delta) ^ (k + 1) :=
    le_self_pow₀ (by linarith) (Nat.succ_ne_zero k)
  have hpbound : p ≤ 2 ^ (100 : ℤ) := by
    refine le_trans ?_ hbound
    calc p ≤ s + p + 2 * (k + 1) * epsilon := by nlinarith
      _ ≤ _ := le_mul_of_one_le_right (by nlinarith) hpow2
  obtain ⟨y, hround, hy0, hy⟩ := float8_round_le hp hpbound
  have hsum : t + y + epsilon ≤ (s + p + 2 * (k + 1) * epsilon) * (1 + delta) ^ (k + 1) := by
    calc t + y + epsilon
        ≤ (s + 2 * k * epsilon) * (1 + delta) ^ (k + 1) + (p + epsilon) * (1 + delta) + epsilon := by
          gcongr
      _ ≤ (s + 2 * k * epsilon) * (1 + delta) ^ (k + 1) +
            (p + epsilon) * (1 + delta) ^ (k + 1) + epsilon * (1 + delta) ^ (k + 1) := by
          gcongr
          exact le_mul_of_one_le_right he.le hpow1
      _ = (s + p + 2 * (k + 1) * epsilon) * (1 + delta) ^ (k + 1) := by ring
  have hnext : (t + y + epsilon) * (1 + delta) ≤
      (s + p + 2 * (k + 1) * epsilon) * (1 + delta) ^ (k + 2) := by
    rw [hsucc, ← mul_assoc]
    exact mul_le_mul_of_nonneg_right hsum (by linarith)
  obtain ⟨t', hround', ht0, ht'⟩ := float8_round_le (q := t + y) (by linarith) <| by
    calc t + y ≤ t + y + epsilon := by linarith
      _ ≤ (t + y + epsilon) * (1 + delta) := le_mul_of_one_le_right (by linarith) (by linarith)
      _ ≤ 2 ^ (100 : ℤ) := hnext.trans hbound
  refine ⟨t', ?_, ht0, ht'.trans hnext⟩
  rw [hround, add, FloatQ.fin_add_fin]
  exact hround'

/-- A sum of products, each rounded. -/
theorem float8_foldl_le {ps : List ℚ} (hps : ∀ p ∈ ps, 0 ≤ p) {t s : ℚ} {k : ℕ} (ht : 0 ≤ t)
    (hs : 0 ≤ s) (hle : t ≤ (s + 2 * k * epsilon) * (1 + delta) ^ (k + 1))
    (hbound : (s + ps.sum + 2 * (k + ps.length : ℕ) * epsilon) *
      (1 + delta) ^ (k + ps.length + 1) ≤ 2 ^ (100 : ℤ)) :
    ∃ t', ps.foldl (fun t p => float8.add t (float8.round p)) (.fin t) = .fin t' ∧ 0 ≤ t' ∧
      t' ≤ (s + ps.sum + 2 * (k + ps.length : ℕ) * epsilon) *
        (1 + delta) ^ (k + ps.length + 1) := by
  induction ps generalizing t s k with
  | nil => exact ⟨t, rfl, ht, by simpa using hle⟩
  | cons p ps ih =>
    have he := epsilon_pos
    have hp := hps p List.mem_cons_self
    have hrest : 0 ≤ ps.sum := List.sum_nonneg fun q hq => hps q (List.mem_cons_of_mem p hq)
    have hindex : k + (p :: ps).length = k + 1 + ps.length := by
      rw [List.length_cons]
      omega
    rw [hindex, List.sum_cons, ← add_assoc] at hbound ⊢
    obtain ⟨t', hadd, ht0, ht'⟩ := float8_add_round_le ht hs hp hle <| by
      refine le_trans (mul_le_mul ?_ ?_ (pow_delta_nonneg _) ?_) hbound
      · push_cast
        nlinarith [mul_nonneg (Nat.cast_nonneg (α := ℚ) ps.length) he.le]
      · exact pow_le_pow_right₀ (by linarith [delta_pos]) (by omega)
      · have hcount : 0 ≤ 2 * ((k + 1 + ps.length : ℕ) : ℚ) * epsilon :=
          mul_nonneg (by positivity) he.le
        linarith
    rw [List.foldl_cons, hadd]
    exact ih (fun q hq => hps q (List.mem_cons_of_mem p hq)) ht0 (by linarith)
      (by push_cast; exact ht') hbound

/-- Few relative errors add up. -/
theorem pow_delta_le {n : ℕ} (hn : (n : ℚ) * (2 * delta) ≤ 1) :
    (1 + delta) ^ n ≤ 1 + n * (2 * delta) := by
  induction n with
  | zero => simp
  | succ n ih =>
    have hd := delta_pos
    push_cast at hn ⊢
    have hprev := ih (by linarith)
    rw [pow_succ]
    nlinarith [mul_le_mul_of_nonneg_right hprev (show 0 ≤ 1 + delta by linarith)]

/-- So many operations make no error of one. -/
theorem pow_delta_le_of_le {m : ℕ} (hm : m ≤ 2 ^ 41) :
    (1 + delta) ^ m ≤ 1 + m * (2 * delta) ∧ (m : ℚ) * (2 * delta) ≤ 1 := by
  have hd := delta_pos
  have hcast : (m : ℚ) ≤ 2 ^ (41 : ℤ) := by exact_mod_cast hm
  have hsmall : (m : ℚ) * (2 * delta) ≤ 1 := by
    calc (m : ℚ) * (2 * delta) ≤ 2 ^ (41 : ℤ) * (2 * delta) := by gcongr
      _ ≤ 1 := by norm_num [delta]
  exact ⟨pow_delta_le hsmall, hsmall⟩

/-- A sum of products, and its part of a number that it does not exceed. -/
theorem float8_foldl_div_le {ps : List ℚ} (hps : ∀ p ∈ ps, 0 ≤ p) {n : ℚ} (hn : 1 ≤ n)
    (hn' : n ≤ 2 ^ (64 : ℤ)) (hsum : ps.sum ≤ n) (hlen : ps.length ≤ 2 ^ 40) :
    ∃ t r, ps.foldl (fun t p => float8.add t (float8.round p)) (.fin 0) = .fin t ∧
      float8.div (.fin t) (.fin n) = .fin r ∧ 0 ≤ r ∧ r ≤ 1 + (ps.length + 3) * 2 ^ (-52 : ℤ) := by
  have he := epsilon_pos
  have hd := delta_pos
  have hcast : (ps.length : ℚ) ≤ 2 ^ (40 : ℤ) := by exact_mod_cast hlen
  have htiny : (2 * ps.length + 1) * epsilon ≤ delta := by
    calc (2 * ps.length + 1) * epsilon ≤ (2 * 2 ^ (40 : ℤ) + 1) * epsilon := by gcongr
      _ ≤ delta := by norm_num [epsilon, delta]
  have hlast := pow_delta_le_of_le (show ps.length + 1 ≤ 2 ^ 41 by omega)
  obtain ⟨hall, hsmall⟩ := pow_delta_le_of_le (show ps.length + 3 ≤ 2 ^ 41 by omega)
  push_cast at hall hsmall
  have hsum0 : 0 ≤ ps.sum := List.sum_nonneg hps
  have hcount : 0 ≤ 2 * (ps.length : ℚ) * epsilon := by positivity
  have hdelta : delta ≤ 1 := by norm_num [delta]
  obtain ⟨t, hfold, ht0, ht⟩ := float8_foldl_le hps (t := 0) (s := 0) (k := 0) le_rfl le_rfl
    (by simp) <| by
      rw [zero_add, zero_add]
      calc (ps.sum + 2 * ps.length * epsilon) * (1 + delta) ^ (ps.length + 1)
          ≤ (2 ^ (64 : ℤ) + 1) * 2 := by
            refine mul_le_mul (by linarith) (by linarith) (pow_delta_nonneg _) (by norm_num)
        _ ≤ 2 ^ (100 : ℤ) := by norm_num
  rw [zero_add, zero_add] at ht
  -- the part is at most one, up to the errors of the additions
  have hpart : t / n + epsilon ≤ (1 + (2 * ps.length + 1) * epsilon) * (1 + delta) ^ (ps.length + 1) := by
    have hn0 : 0 < n := by linarith
    have hdiv : t / n ≤ (1 + 2 * ps.length * epsilon) * (1 + delta) ^ (ps.length + 1) := by
      rw [div_le_iff₀ hn0, mul_right_comm]
      refine ht.trans (mul_le_mul_of_nonneg_right ?_ (pow_delta_nonneg _))
      nlinarith
    nlinarith [one_le_pow_delta (ps.length + 1)]
  have hr : (t / n + epsilon) * (1 + delta) ≤ 1 + (ps.length + 3) * (2 * delta) := by
    calc (t / n + epsilon) * (1 + delta)
        ≤ (1 + delta) * (1 + delta) ^ (ps.length + 1) * (1 + delta) := by
          gcongr
          exact hpart.trans (by gcongr)
      _ = (1 + delta) ^ (ps.length + 3) := by ring
      _ ≤ 1 + (ps.length + 3) * (2 * delta) := hall
  obtain ⟨r, hround, hr0, hr'⟩ := float8_round_le (q := t / n) (by positivity) <| by
    have hle : t / n + epsilon ≤ (t / n + epsilon) * (1 + delta) :=
      le_mul_of_one_le_right (by positivity) (by linarith)
    linarith [show (2 : ℚ) ≤ 2 ^ (100 : ℤ) by norm_num]
  have hunit : 2 * delta = 2 ^ (-52 : ℤ) := by norm_num [delta]
  rw [hunit] at hr
  refine ⟨t, r, hfold, ?_, hr0, hr'.trans hr⟩
  rw [div, FloatQ.fin_div_fin (by linarith)]
  exact hround

end CFloat

end PgRange.Math
