import PgRange.Math.CInt
import PgRange.Math.Loop
import Mathlib.Algebra.Order.Ring.Int
import Mathlib.Data.Nat.Size
import Mathlib.Tactic.Linarith

/-!
# Binary search for the last position that passes a test

A test on the positions of an array that, once failed, is failed by all later positions,
as comparisons with the entries of a sorted array are. The search keeps two ends: up to
the lower one all positions pass, and behind the upper one none does. The lower end
starts in front of the array, at `-1`.

`bsearchLast` is the search as a function. `searchLoop` is the loop of a C program: the
test may fail, the arithmetic is that of a reading of `int`, and the number of rounds is
not known beforehand. Each round halves the window between the two ends, so that the loop
ends after as many rounds as the length of the array has binary digits.

## Main results

* `isLast_bsearchLast` — the search finds the last position that passes
* `searchLoop_run` — the loop ends and finds the same, without a test outside the array
-/

set_option autoImplicit false

namespace PgRange.Math

/-- The loop, for at most `fuel` rounds. -/
def bisect (test : ℕ → Bool) : ℕ → ℤ → ℤ → ℤ
  | 0, lower, _ => lower
  | fuel + 1, lower, upper =>
    if lower < upper then
      let middle := (lower + upper + 1).tdiv 2
      if test middle.toNat then bisect test fuel middle upper
      else bisect test fuel lower (middle - 1)
    else lower

/-- The last of `n` positions that passes the test, or `-1`. -/
def bsearchLast (test : ℕ → Bool) (n : ℕ) : ℤ := bisect test n (-1) (n - 1)

/-- No position passes behind one that fails. -/
def PassesDown (test : ℕ → Bool) (n : ℕ) : Prop :=
  ∀ j k, j ≤ k → k < n → test k = true → test j = true

/-- The last position that passes lies between the two ends. -/
structure Bracket (test : ℕ → Bool) (n : ℕ) (lower upper : ℤ) : Prop where
  neg_one_le : -1 ≤ lower
  le : lower ≤ upper
  lt : upper < n
  below : ∀ k : ℕ, (k : ℤ) ≤ lower → test k = true
  above : ∀ k : ℕ, k < n → upper < k → test k = false

section Search

variable {test : ℕ → Bool} {n : ℕ}

theorem middle_bounds {lower upper : ℤ} (hlower : -1 ≤ lower) (hlt : lower < upper) :
    lower < (lower + upper + 1).tdiv 2 ∧ (lower + upper + 1).tdiv 2 ≤ upper := by
  rw [Int.tdiv_eq_ediv_of_nonneg (by omega)]
  omega

/-- A position that passes is a better lower end. -/
theorem Bracket.raise {lower upper middle : ℤ} (h : Bracket test n lower upper)
    (hdown : PassesDown test n) (hmiddle : lower < middle ∧ middle ≤ upper)
    (hpass : test middle.toNat = true) : Bracket test n middle upper where
  neg_one_le := h.neg_one_le.trans hmiddle.1.le
  le := hmiddle.2
  lt := h.lt
  below k hk := by
    have := h.neg_one_le
    have := h.lt
    exact hdown k middle.toNat (by omega) (by omega) hpass
  above := h.above

/-- What is in front of a position that fails is a better upper end. -/
theorem Bracket.cut {lower upper middle : ℤ} (h : Bracket test n lower upper)
    (hdown : PassesDown test n) (hmiddle : lower < middle ∧ middle ≤ upper)
    (hfail : test middle.toNat = false) : Bracket test n lower (middle - 1) where
  neg_one_le := h.neg_one_le
  le := Int.le_sub_one_of_lt hmiddle.1
  lt := by
    have := h.lt
    omega
  below := h.below
  above k hk hlt := by
    have := h.neg_one_le
    rw [← Bool.not_eq_true]
    intro hpass
    rw [hdown middle.toNat k (by omega) hk hpass] at hfail
    cases hfail

/-- With enough rounds the ends meet. -/
theorem Bracket.bisect (hdown : PassesDown test n) (fuel : ℕ) {lower upper : ℤ}
    (h : Bracket test n lower upper) (hfuel : upper - lower ≤ fuel) :
    Bracket test n (bisect test fuel lower upper) (bisect test fuel lower upper) := by
  have hle := h.le
  induction fuel generalizing lower upper with
  | zero =>
    obtain rfl : upper = lower := by omega
    exact h
  | succ fuel ih =>
    rw [Math.bisect]
    split_ifs with hlt
    · have hmiddle := middle_bounds h.neg_one_le hlt
      dsimp only
      cases htest : test ((lower + upper + 1).tdiv 2).toNat with
      | true =>
        have hraise := h.raise hdown hmiddle htest
        exact ih hraise (by push_cast at hfuel; omega) hraise.le
      | false =>
        have hcut := h.cut hdown hmiddle htest
        exact ih hcut (by push_cast at hfuel; omega) hcut.le
    · obtain rfl : upper = lower := by omega
      exact h

theorem bracket_start (test : ℕ → Bool) (n : ℕ) : Bracket test n (-1) (n - 1) where
  neg_one_le := le_rfl
  le := by omega
  lt := by omega
  below k hk := by omega
  above k hk hlt := by omega

/-- The search ends at a position between those that pass and those that fail. -/
theorem bracket_bsearchLast (hdown : PassesDown test n) :
    Bracket test n (bsearchLast test n) (bsearchLast test n) :=
  Bracket.bisect hdown n (bracket_start test n) (by omega)

theorem neg_one_le_bsearchLast (hdown : PassesDown test n) : -1 ≤ bsearchLast test n :=
  (bracket_bsearchLast hdown).neg_one_le

theorem bsearchLast_lt (hdown : PassesDown test n) : bsearchLast test n < n :=
  (bracket_bsearchLast hdown).lt

theorem le_bsearchLast_iff (hdown : PassesDown test n) {k : ℕ} (hk : k < n) :
    (k : ℤ) ≤ bsearchLast test n ↔ test k = true := by
  refine ⟨(bracket_bsearchLast hdown).below k, fun hpass => ?_⟩
  by_contra hlt
  rw [(bracket_bsearchLast hdown).above k hk (not_le.mp hlt)] at hpass
  cases hpass

/-- A test that is easier to pass is passed longer. -/
theorem bsearchLast_mono {test' : ℕ → Bool} (hdown : PassesDown test n)
    (hdown' : PassesDown test' n) (h : ∀ k < n, test k = true → test' k = true) :
    bsearchLast test n ≤ bsearchLast test' n := by
  by_contra hlt
  rw [not_le] at hlt
  have hlow := neg_one_le_bsearchLast hdown'
  have hhigh := bsearchLast_lt hdown
  obtain ⟨k, hk⟩ : ∃ k : ℕ, (k : ℤ) = bsearchLast test n :=
    ⟨(bsearchLast test n).toNat, Int.toNat_of_nonneg (by omega)⟩
  have hpass := (le_bsearchLast_iff hdown (by omega)).mp hk.le
  have hle := (le_bsearchLast_iff hdown' (by omega)).mpr (h k (by omega) hpass)
  omega

end Search

/-! ### The last position with a property -/

/-- `r` is the greatest of the positions below `n` with a property, or `-1` if there is
none. -/
def IsLast (p : ℕ → Prop) (n : ℕ) (r : ℤ) : Prop :=
  (∃ k : ℕ, r = k ∧ k < n ∧ p k ∧ ∀ j, k < j → j < n → ¬ p j) ∨ (r = -1 ∧ ∀ j < n, ¬ p j)

theorem IsLast.unique {p : ℕ → Prop} {n : ℕ} {r r' : ℤ} (h : IsLast p n r)
    (h' : IsLast p n r') : r = r' := by
  rcases h with ⟨k, rfl, hk, hp, hlast⟩ | ⟨rfl, hnone⟩
  · rcases h' with ⟨k', rfl, hk', hp', hlast'⟩ | ⟨rfl, hnone'⟩
    · rcases lt_trichotomy k k' with hlt | rfl | hgt
      · exact absurd hp' (hlast k' hlt hk')
      · rfl
      · exact absurd hp (hlast' k hgt hk)
    · exact absurd hp (hnone' k hk)
  · rcases h' with ⟨k', rfl, hk', hp', -⟩ | ⟨rfl, -⟩
    · exact absurd hp' (hnone k' hk')
    · rfl

theorem IsLast.congr {p q : ℕ → Prop} {n : ℕ} {r : ℤ} (h : IsLast p n r)
    (hpq : ∀ k < n, p k ↔ q k) : IsLast q n r := by
  rcases h with ⟨k, rfl, hk, hp, hlast⟩ | ⟨rfl, hnone⟩
  · refine Or.inl ⟨k, rfl, hk, (hpq k hk).mp hp, ?_⟩
    intro j hkj hj hq
    exact hlast j hkj hj ((hpq j hj).mpr hq)
  · refine Or.inr ⟨rfl, ?_⟩
    intro j hj hq
    exact hnone j hj ((hpq j hj).mpr hq)

section Last

variable {test : ℕ → Bool} {n : ℕ}

/-- Where the two ends meet is the last position that passes. -/
theorem Bracket.isLast {r : ℤ} (h : Bracket test n r r) :
    IsLast (fun k => test k = true) n r := by
  have hfail : ∀ j : ℕ, j < n → r < j → ¬ test j = true := by
    intro j hj hlt
    rw [h.above j hj hlt]
    exact Bool.false_ne_true
  rcases h.neg_one_le.eq_or_lt with rfl | hlt
  · exact Or.inr ⟨rfl, fun j hj => hfail j hj (by omega)⟩
  · obtain ⟨k, rfl⟩ : ∃ k : ℕ, r = k := ⟨r.toNat, by omega⟩
    refine Or.inl ⟨k, rfl, Int.ofNat_lt.mp h.lt, h.below k le_rfl, ?_⟩
    intro j hkj hj
    exact hfail j hj (Int.ofNat_lt.mpr hkj)

theorem isLast_bsearchLast (hdown : PassesDown test n) :
    IsLast (fun k => test k = true) n (bsearchLast test n) :=
  (bracket_bsearchLast hdown).isLast

end Last

/-! ### The loop -/

/-- The locals of the loop. -/
structure SearchEnds where
  lower : ℤ
  upper : ℤ

/-- The number of positions that are still open. -/
def SearchEnds.window (s : SearchEnds) : ℕ := (s.upper - s.lower).toNat

/-- The loop over the two ends, with a test that may fail. -/
def searchLoop {ε : Type} (A : CInt) (test : ℤ → Except ε Bool) : Loop ε SearchEnds where
  cond s := decide (s.lower < s.upper)
  step s := do
    let middle := (A.wrap (A.wrap (s.lower + s.upper) + 1)).tdiv 2
    if ← test middle then return ⟨middle, s.upper⟩
    else return ⟨s.lower, A.wrap (middle - 1)⟩
  check _ := none

section Loop

variable {ε : Type} {A : CInt} {test : ℕ → Bool} {read : ℤ → Except ε Bool} {n : ℕ}

/-- The sum of the two ends does not leave the reading of `int`. -/
theorem wrap_middle (hA : A.wrap (2 * n) = 2 * n) {lower upper : ℤ} (hlow : -1 ≤ lower)
    (hlt : lower < upper) (hupper : upper < n) :
    A.wrap (A.wrap (lower + upper) + 1) = lower + upper + 1 := by
  rw [A.wrap_wrap_add]
  exact A.wrap_of_between A.wrap_zero hA (by omega) (by omega)

/-- One round keeps the last position between the two ends and halves the window. -/
theorem searchLoop_round (hread : ∀ k : ℕ, k < n → read k = .ok (test k))
    (hA : A.wrap (2 * n) = 2 * n) (hdown : PassesDown test n) {lower upper : ℤ}
    (h : Bracket test n lower upper) (hlt : lower < upper) :
    ∃ s, (searchLoop A read).Round ⟨lower, upper⟩ s ∧ Bracket test n s.lower s.upper ∧
      s.window ≤ (upper - lower).toNat / 2 := by
  have hlow := h.neg_one_le
  have hupper := h.lt
  have hmiddle := middle_bounds hlow hlt
  have hwrap := wrap_middle hA hlow hlt hupper
  have hhalf : (lower + upper + 1).tdiv 2 = (lower + upper + 1) / 2 :=
    Int.tdiv_eq_ediv_of_nonneg (by omega)
  obtain ⟨k, hk⟩ : ∃ k : ℕ, (lower + upper + 1).tdiv 2 = k :=
    ⟨((lower + upper + 1).tdiv 2).toNat, by omega⟩
  rw [hk] at hmiddle hhalf
  have htest := hread k (by omega)
  cases hpass : test k with
  | true =>
    refine ⟨⟨k, upper⟩, ⟨decide_eq_true hlt, ?_, rfl⟩, h.raise hdown hmiddle hpass, ?_⟩
    · simp only [searchLoop, hwrap, hk, htest, hpass]
      rfl
    · simp only [SearchEnds.window]
      omega
  | false =>
    have hdec : A.wrap ((k : ℤ) - 1) = k - 1 :=
      A.wrap_of_between (A.wrap_of_fits (by decide : FitsInt32 (-1))) hA (by omega) (by omega)
    refine ⟨⟨lower, k - 1⟩, ⟨decide_eq_true hlt, ?_, rfl⟩, h.cut hdown hmiddle hpass, ?_⟩
    · simp only [searchLoop, hwrap, hk, htest, hpass, hdec]
      rfl
    · simp only [SearchEnds.window]
      omega

/-- Half a number has fewer binary digits. -/
theorem size_lt_of_le_half {m w : ℕ} (hle : m ≤ w / 2) (hw : 0 < w) : m.size < w.size := by
  obtain ⟨k, hk⟩ : ∃ k, w.size = k + 1 :=
    Nat.exists_eq_succ_of_ne_zero (Nat.size_pos.mpr hw).ne'
  have hlt : w < 2 ^ (k + 1) := Nat.size_le.mp hk.le
  rw [hk, Nat.lt_succ_iff, Nat.size_le]
  rw [Nat.pow_succ] at hlt
  omega

/-- The loop tests only positions of the array, ends after at most `fuel` rounds for an
array of less than `2 ^ fuel` entries, and finds the last position that passes. -/
theorem searchLoop_run (hread : ∀ k : ℕ, k < n → read k = .ok (test k))
    (hA : A.wrap (2 * n) = 2 * n) (hdown : PassesDown test n) (timeout : ε) {fuel : ℕ}
    (hfuel : n < 2 ^ fuel) :
    (searchLoop A read).run timeout fuel ⟨-1, n - 1⟩ =
      .ok ⟨bsearchLast test n, bsearchLast test n⟩ := by
  -- the measure is the number of binary digits of the window
  have hround : ∀ s : SearchEnds, Bracket test n s.lower s.upper →
      (searchLoop A read).cond s = true → ∃ s', (searchLoop A read).Round s s' ∧
        Bracket test n s'.lower s'.upper ∧ s'.window.size < s.window.size := by
    intro s hs hcond
    have hlt : s.lower < s.upper := of_decide_eq_true hcond
    obtain ⟨s', hr, hs', hle⟩ := searchLoop_round hread hA hdown hs hlt
    exact ⟨s', hr, hs', size_lt_of_le_half hle (Int.pos_iff_toNat_pos.mp (sub_pos.mpr hlt))⟩
  have hwindow : (SearchEnds.window ⟨-1, n - 1⟩).size ≤ fuel := by
    rw [Nat.size_le]
    simp only [SearchEnds.window]
    omega
  have hreach : ∃ t, (searchLoop A read).run timeout fuel ⟨-1, n - 1⟩ = .ok t ∧
      Bracket test n t.lower t.upper ∧ (searchLoop A read).cond t = false :=
    Loop.run_reaches (fun s : SearchEnds => Bracket test n s.lower s.upper)
      (fun s => s.window.size) hround (bracket_start test n) hwindow
  obtain ⟨⟨lower, upper⟩, hrun, hbracket, hcond⟩ := hreach
  -- the ends have met, and only one position is the last that passes
  have hmeet : ¬ lower < upper := of_decide_eq_false hcond
  obtain rfl : upper = lower := le_antisymm (not_lt.mp hmeet) hbracket.le
  have hlast : upper = bsearchLast test n := hbracket.isLast.unique (isLast_bsearchLast hdown)
  rw [hrun, hlast]

end Loop

end PgRange.Math
