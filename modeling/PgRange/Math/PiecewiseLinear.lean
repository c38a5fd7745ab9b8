import Mathlib.Analysis.SpecialFunctions.Integrals.Basic

/-!
# Piecewise linear functions and their integrals

A function that rises by one between each two consecutive points of a strictly increasing
sequence, linearly, and is constant before the first and behind the last of them. It is the
sum of ramps, one for each piece. Its integral over a part of one piece is the area of a
trapezoid.
-/

set_option autoImplicit false

noncomputable section

namespace PgRange.Math

/-- Zero up to `a`, one from `b` on, and linear between them. -/
def ramp (a b x : ℝ) : ℝ := max 0 (min 1 ((x - a) / (b - a)))

/-- One ramp for each of the first `m` pieces. -/
def rampSum (h : ℕ → ℝ) (m : ℕ) (x : ℝ) : ℝ := ∑ k ∈ Finset.range m, ramp (h k) (h (k + 1)) x

section Ramp

variable {a b x : ℝ}

theorem ramp_of_le (hab : a < b) (hx : x ≤ a) : ramp a b x = 0 := by
  have hquot : (x - a) / (b - a) ≤ 0 :=
    div_nonpos_of_nonpos_of_nonneg (sub_nonpos.mpr hx) (sub_nonneg.mpr hab.le)
  rw [ramp, min_eq_right (hquot.trans zero_le_one), max_eq_left hquot]

theorem ramp_of_ge (hab : a < b) (hx : b ≤ x) : ramp a b x = 1 := by
  have hquot : 1 ≤ (x - a) / (b - a) :=
    (one_le_div (sub_pos.mpr hab)).mpr (sub_le_sub_right hx a)
  rw [ramp, min_eq_left hquot, max_eq_right zero_le_one]

theorem ramp_of_mem (hab : a < b) (hax : a ≤ x) (hxb : x ≤ b) : ramp a b x = (x - a) / (b - a) := by
  have hlow : 0 ≤ (x - a) / (b - a) := div_nonneg (sub_nonneg.mpr hax) (sub_nonneg.mpr hab.le)
  have hhigh : (x - a) / (b - a) ≤ 1 :=
    (div_le_one (sub_pos.mpr hab)).mpr (sub_le_sub_right hxb a)
  rw [ramp, min_eq_right hhigh, max_eq_right hlow]

theorem continuous_ramp (a b : ℝ) : Continuous (ramp a b) := by
  unfold ramp
  fun_prop

end Ramp

section RampSum

variable {h : ℕ → ℝ} {m : ℕ} (hh : StrictMonoOn h (Set.Iic m))

theorem continuous_rampSum (h : ℕ → ℝ) (m : ℕ) : Continuous (rampSum h m) := by
  unfold rampSum
  exact continuous_finsetSum _ fun k _ => continuous_ramp _ _

include hh

theorem rampSum_of_le {x : ℝ} (hx : x ≤ h 0) : rampSum h m x = 0 := by
  refine Finset.sum_eq_zero fun k hk => ?_
  have hk := Finset.mem_range.mp hk
  have hle := hh.monotoneOn (Set.mem_Iic.mpr (Nat.zero_le m)) (Set.mem_Iic.mpr hk.le)
    (Nat.zero_le k)
  exact ramp_of_le (hh (Set.mem_Iic.mpr hk.le) (Set.mem_Iic.mpr hk) k.lt_succ_self) (hx.trans hle)

theorem rampSum_of_ge {x : ℝ} (hx : h m ≤ x) : rampSum h m x = m := by
  have hone : ∀ k ∈ Finset.range m, ramp (h k) (h (k + 1)) x = 1 := by
    intro k hk
    have hk := Finset.mem_range.mp hk
    have hle := hh.monotoneOn (Set.mem_Iic.mpr hk) (Set.mem_Iic.mpr le_rfl) hk
    exact ramp_of_ge (hh (Set.mem_Iic.mpr hk.le) (Set.mem_Iic.mpr hk) k.lt_succ_self)
      (hle.trans hx)
  rw [rampSum, Finset.sum_congr rfl hone, Finset.sum_const, Finset.card_range, nsmul_eq_mul,
    mul_one]

/-- On a piece, the earlier ramps have ended and the later ones have not begun. -/
theorem rampSum_of_mem {i : ℕ} (hi : i < m) {x : ℝ} (hlow : h i ≤ x) (hhigh : x ≤ h (i + 1)) :
    rampSum h m x = i + (x - h i) / (h (i + 1) - h i) := by
  have hpiece : ∀ k ∈ Finset.range m, ramp (h k) (h (k + 1)) x =
      (if k < i then 1 else 0) + if k = i then (x - h i) / (h (i + 1) - h i) else 0 := by
    intro k hk
    have hk := Finset.mem_range.mp hk
    have hstep := hh (Set.mem_Iic.mpr hk.le) (Set.mem_Iic.mpr hk) k.lt_succ_self
    rcases lt_trichotomy k i with hki | rfl | hik
    · have hle := hh.monotoneOn (Set.mem_Iic.mpr hk) (Set.mem_Iic.mpr hi.le) hki
      rw [if_pos hki, if_neg hki.ne, add_zero, ramp_of_ge hstep (hle.trans hlow)]
    · rw [if_neg (lt_irrefl _), if_pos rfl, zero_add, ramp_of_mem hstep hlow hhigh]
    · have hle := hh.monotoneOn (Set.mem_Iic.mpr hi) (Set.mem_Iic.mpr hk.le) hik
      rw [if_neg hik.not_gt, if_neg hik.ne', add_zero, ramp_of_le hstep (hhigh.trans hle)]
  have hcard : (Finset.range m).filter (· < i) = Finset.range i := by
    ext k
    rw [Finset.mem_filter, Finset.mem_range, Finset.mem_range]
    exact ⟨And.right, fun hk => ⟨hk.trans hi, hk⟩⟩
  rw [rampSum, Finset.sum_congr rfl hpiece, Finset.sum_add_distrib, Finset.sum_boole, hcard,
    Finset.card_range, Finset.sum_ite_eq', if_pos (Finset.mem_range.mpr hi)]

end RampSum

/-! ### Integrals -/

/-- The integral of a function that is linear on an interval is the area of a trapezoid. -/
theorem integral_eq_trapezoid {f : ℝ → ℝ} {a b c s : ℝ} (hab : a ≤ b)
    (hf : ∀ x ∈ Set.Icc a b, f x = c + s * x) :
    ∫ x in a..b, f x = (f a + f b) / 2 * (b - a) := by
  have hcongr : ∫ x in a..b, f x = ∫ x in a..b, (c + s * x) := by
    refine intervalIntegral.integral_congr fun x hx => ?_
    rw [Set.uIcc_of_le hab] at hx
    exact hf x hx
  rw [hcongr, intervalIntegral.integral_add (by simp)
      (Continuous.intervalIntegrable (by fun_prop) _ _), intervalIntegral.integral_const,
    intervalIntegral.integral_const_mul, integral_id,
    hf a ⟨le_rfl, hab⟩, hf b ⟨hab, le_rfl⟩, smul_eq_mul]
  ring

section Integral

variable {h : ℕ → ℝ} {m : ℕ} (hh : StrictMonoOn h (Set.Iic m)) {a b : ℝ} (hab : a ≤ b)

theorem integral_rampSum_split (h : ℕ → ℝ) (m : ℕ) (a b c : ℝ) :
    ∫ x in a..c, rampSum h m x = (∫ x in a..b, rampSum h m x) + ∫ x in b..c, rampSum h m x :=
  (intervalIntegral.integral_add_adjacent_intervals
    ((continuous_rampSum h m).intervalIntegrable _ _)
    ((continuous_rampSum h m).intervalIntegrable _ _)).symm

include hh hab

theorem integral_rampSum_of_le (hb : b ≤ h 0) : ∫ x in a..b, rampSum h m x = 0 := by
  have hzero : ∀ x ∈ Set.Icc a b, rampSum h m x = 0 + 0 * x := fun x hx => by
    rw [rampSum_of_le hh (hx.2.trans hb), zero_mul, add_zero]
  rw [integral_eq_trapezoid hab hzero, rampSum_of_le hh (hab.trans hb), rampSum_of_le hh hb]
  ring

theorem integral_rampSum_of_ge (ha : h m ≤ a) : ∫ x in a..b, rampSum h m x = m * (b - a) := by
  have hconst : ∀ x ∈ Set.Icc a b, rampSum h m x = m + 0 * x := fun x hx => by
    rw [rampSum_of_ge hh (ha.trans hx.1), zero_mul, add_zero]
  rw [integral_eq_trapezoid hab hconst, rampSum_of_ge hh ha, rampSum_of_ge hh (ha.trans hab)]
  ring

theorem integral_rampSum_of_mem {i : ℕ} (hi : i < m) (ha : h i ≤ a) (hb : b ≤ h (i + 1)) :
    ∫ x in a..b, rampSum h m x = (rampSum h m a + rampSum h m b) / 2 * (b - a) := by
  refine integral_eq_trapezoid (c := i - h i / (h (i + 1) - h i)) (s := 1 / (h (i + 1) - h i)) hab
    fun x hx => ?_
  rw [rampSum_of_mem hh hi (ha.trans hx.1) (hx.2.trans hb)]
  ring

end Integral

end PgRange.Math

end
