import Mathlib.Algebra.Order.Field.Basic
import Mathlib.Algebra.Order.Field.Rat
import Mathlib.Tactic.Linarith

/-!
# Equi-depth histograms

The `n` entries of a sorted array that are spread evenly over a population bound `n - 1`
bins with the same share of it. A value is located by the last entry at or below it, with
`-1` in front of the first one, and by its position within the bin that starts there. The
fraction of the population up to the value is the number of whole bins before it plus its
position, by the number of bins.
-/

set_option autoImplicit false

namespace PgRange.Math

/-- The fraction of the population up to the position `p` of bin `r`. -/
def binFraction (n : ℕ) (r : ℤ) (p : ℚ) : ℚ :=
  (max r 0 : ℤ) / (n - 1 : ℤ) + if 0 ≤ r ∧ r < n - 1 then p / (n - 1 : ℤ) else 0

section BinFraction

variable {n : ℕ} {r r' : ℤ} {p p' : ℚ}

theorem binFraction_of_neg (hr : r < 0) : binFraction n r p = 0 := by
  rw [binFraction, if_neg fun h => absurd h.1 (not_le.mpr hr), max_eq_right hr.le, Int.cast_zero,
    zero_div, add_zero]

theorem binFraction_of_last (hn : 2 ≤ n) : binFraction n (n - 1) p = 1 := by
  have hbins : ((n - 1 : ℤ) : ℚ) ≠ 0 := Int.cast_ne_zero.mpr (by omega)
  rw [binFraction, if_neg fun h => lt_irrefl _ h.2, max_eq_left (by omega), div_self hbins,
    add_zero]

theorem binFraction_of_bin (hr : 0 ≤ r) (hlt : r < n - 1) :
    binFraction n r p = (r + p) / (n - 1 : ℤ) := by
  rw [binFraction, if_pos ⟨hr, hlt⟩, max_eq_left hr, add_div]

/-- The value is not before its bin. -/
theorem le_binFraction (hn : 2 ≤ n) (hr : r < n) (hp : 0 ≤ p) :
    (r : ℚ) / (n - 1 : ℤ) ≤ binFraction n r p := by
  have hbins : (0 : ℚ) < (n - 1 : ℤ) := Int.cast_pos.mpr (by omega)
  rcases lt_or_ge r 0 with hneg | hnonneg
  · rw [binFraction_of_neg hneg]
    exact div_nonpos_of_nonpos_of_nonneg (Int.cast_nonpos.mpr hneg.le) hbins.le
  · rcases lt_or_ge r (n - 1) with hlt | hlast
    · rw [binFraction_of_bin hnonneg hlt]
      exact div_le_div_of_nonneg_right (le_add_of_nonneg_right hp) hbins.le
    · obtain rfl : r = n - 1 := by omega
      rw [binFraction_of_last hn, div_self hbins.ne']

/-- Nor is it behind its bin. -/
theorem binFraction_le (hn : 2 ≤ n) (hlow : -1 ≤ r) (hr : r < n) (hp : p ≤ 1) :
    binFraction n r p ≤ (r + 1 : ℤ) / (n - 1 : ℤ) := by
  have hbins : (0 : ℚ) < (n - 1 : ℤ) := Int.cast_pos.mpr (by omega)
  rcases lt_or_ge r 0 with hneg | hnonneg
  · rw [binFraction_of_neg hneg]
    exact div_nonneg (Int.cast_nonneg (by omega)) hbins.le
  · rcases lt_or_ge r (n - 1) with hlt | hlast
    · rw [binFraction_of_bin hnonneg hlt, Int.cast_add, Int.cast_one]
      exact div_le_div_of_nonneg_right (add_le_add_right hp _) hbins.le
    · obtain rfl : r = n - 1 := by omega
      rw [binFraction_of_last hn, one_le_div hbins]
      exact Int.cast_le.mpr (by omega)

theorem binFraction_nonneg (hn : 2 ≤ n) (hr : r < n) (hp : 0 ≤ p) : 0 ≤ binFraction n r p := by
  rcases lt_or_ge r 0 with hneg | hnonneg
  · rw [binFraction_of_neg hneg]
  · exact (div_nonneg (Int.cast_nonneg hnonneg) (Int.cast_nonneg (by omega))).trans
      (le_binFraction hn hr hp)

theorem binFraction_le_one (hn : 2 ≤ n) (hlow : -1 ≤ r) (hr : r < n) (hp : p ≤ 1) :
    binFraction n r p ≤ 1 := by
  have hbins : (0 : ℚ) < (n - 1 : ℤ) := Int.cast_pos.mpr (by omega)
  rcases lt_or_ge r (n - 1) with hlt | hlast
  · refine (binFraction_le hn hlow hr hp).trans ((div_le_one hbins).mpr ?_)
    exact Int.cast_le.mpr (by omega)
  · obtain rfl : r = n - 1 := by omega
    rw [binFraction_of_last hn]

/-- A value in a later bin, or at a later position of the same bin, has at least the same
fraction before it. -/
theorem binFraction_mono (hn : 2 ≤ n) (hlow : -1 ≤ r) (hrr' : r ≤ r') (hr' : r' < n)
    (hp : p ≤ 1) (hp' : 0 ≤ p') (h : r = r' → 0 ≤ r → r < n - 1 → p ≤ p') :
    binFraction n r p ≤ binFraction n r' p' := by
  have hbins : (0 : ℚ) < (n - 1 : ℤ) := Int.cast_pos.mpr (by omega)
  rcases hrr'.lt_or_eq with hlt | rfl
  · calc binFraction n r p
        ≤ (r + 1 : ℤ) / (n - 1 : ℤ) := binFraction_le hn hlow (hlt.trans hr') hp
      _ ≤ r' / (n - 1 : ℤ) := div_le_div_of_nonneg_right (Int.cast_le.mpr hlt) hbins.le
      _ ≤ binFraction n r' p' := le_binFraction hn hr' hp'
  · by_cases hbin : 0 ≤ r ∧ r < n - 1
    · rw [binFraction_of_bin hbin.1 hbin.2, binFraction_of_bin hbin.1 hbin.2]
      exact div_le_div_of_nonneg_right (add_le_add_right (h rfl hbin.1 hbin.2) _) hbins.le
    · rw [binFraction, binFraction, if_neg hbin, if_neg hbin]

theorem binFraction_eq_end_iff (hn : 2 ≤ n) (hlow : -1 ≤ r) (hr : r < n - 1) :
    binFraction n r p = (r + 1 : ℤ) / (n - 1 : ℤ) ↔ r = -1 ∨ p = 1 := by
  have hbins : ((n - 1 : ℤ) : ℚ) ≠ 0 := Int.cast_ne_zero.mpr (by omega)
  rcases lt_or_ge r 0 with hneg | hnonneg
  · obtain rfl : r = -1 := by omega
    rw [binFraction_of_neg hneg]
    simp
  · rw [binFraction_of_bin hnonneg hr, div_left_inj' hbins, Int.cast_add, Int.cast_one,
      add_right_inj]
    exact (or_iff_right (by omega)).symm

theorem binFraction_eq_start_iff (hn : 2 ≤ n) (hnonneg : 0 ≤ r) (hr : r < n) :
    binFraction n r p = r / (n - 1 : ℤ) ↔ r = n - 1 ∨ p = 0 := by
  have hbins : ((n - 1 : ℤ) : ℚ) ≠ 0 := Int.cast_ne_zero.mpr (by omega)
  rcases lt_or_ge r (n - 1) with hlt | hlast
  · rw [binFraction_of_bin hnonneg hlt, div_left_inj' hbins, add_eq_left]
    exact (or_iff_right hlt.ne).symm
  · obtain rfl : r = n - 1 := by omega
    rw [binFraction_of_last hn, div_self hbins]
    simp

/-- Two values in different bins have the same fraction before them only if the bins are
neighbours, with the one value at the end and the other one at the start. -/
theorem binFraction_eq_iff_of_lt (hn : 2 ≤ n) (hlow : -1 ≤ r) (hrr' : r < r') (hr' : r' < n)
    (hp : p ≤ 1) (hp' : 0 ≤ p') :
    binFraction n r p = binFraction n r' p' ↔
      r' = r + 1 ∧ (r = -1 ∨ p = 1) ∧ (r' = n - 1 ∨ p' = 0) := by
  have hbins : (0 : ℚ) < (n - 1 : ℤ) := Int.cast_pos.mpr (by omega)
  have hleft := binFraction_le hn hlow (hrr'.trans hr') hp
  have hright := le_binFraction hn hr' hp'
  rw [← binFraction_eq_end_iff hn hlow (by omega), ← binFraction_eq_start_iff hn (by omega) hr']
  constructor
  · intro heq
    -- the end of the one bin and the start of the other are squeezed between the two
    have hle : (r + 1 : ℤ) / (n - 1 : ℤ) ≤ (r' : ℚ) / (n - 1 : ℤ) :=
      div_le_div_of_nonneg_right (Int.cast_le.mpr hrr') hbins.le
    have hends : (r' : ℚ) / (n - 1 : ℤ) = (r + 1 : ℤ) / (n - 1 : ℤ) := by linarith
    have hsucc : r' = r + 1 := Int.cast_injective ((div_left_inj' hbins.ne').mp hends)
    exact ⟨hsucc, by linarith, by linarith⟩
  · rintro ⟨rfl, hend, hstart⟩
    rw [hend, hstart]

end BinFraction

end PgRange.Math
