import Mathlib.Algebra.Order.Ring.Int
import Mathlib.Tactic.Linarith

/-!
# Cutting a span into equal intervals

A span of `length` consecutive integers is cut into `count` intervals of one
`width`, the last of which may reach past the end. `Tiling` states that the
intervals cover the span and that none of them lies wholly beyond it.

Rounding up twice gives such a cut: first the number of intervals of a desired
width, then the width that this number needs.
-/

set_option autoImplicit false

namespace PgRange.Math

/-- `c` is the quotient of `n` by `d`, rounded up. -/
def IsCeil (n d c : ℤ) : Prop := (c - 1) * d < n ∧ n ≤ c * d

namespace IsCeil

variable {n d c c' : ℤ}

theorem le_of_le (hd : 0 < d) (h : IsCeil n d c) (hn : n ≤ c' * d) : c ≤ c' := by
  have hlt : (c - 1) * d < c' * d := lt_of_lt_of_le h.1 hn
  have := lt_of_mul_lt_mul_right hlt hd.le
  omega

theorem unique (hd : 0 < d) (h : IsCeil n d c) (h' : IsCeil n d c') : c = c' :=
  le_antisymm (h.le_of_le hd h'.2) (h'.le_of_le hd h.2)

theorem pos (hd : 0 < d) (hn : 0 < n) (h : IsCeil n d c) : 0 < c := by
  by_contra hc
  have hle : c * d ≤ 0 := mul_nonpos_of_nonpos_of_nonneg (not_lt.mp hc) hd.le
  exact absurd (lt_of_lt_of_le hn h.2) (not_lt.mpr hle)

theorem of_ediv (hd : 0 < d) : IsCeil n d ((n + d - 1) / d) := by
  have hsplit : (n + d - 1) % d + d * ((n + d - 1) / d) = n + d - 1 := Int.emod_add_mul_ediv _ d
  have hlt := Int.emod_lt_of_pos (n + d - 1) hd
  have hge := Int.emod_nonneg (n + d - 1) hd.ne'
  constructor <;> nlinarith

/-- One more in the numerator changes the quotient exactly when the division was
exact. -/
theorem succ_iff (hd : 0 < d) (h : IsCeil n d c) (h' : IsCeil (n + 1) d c') :
    c = c' ↔ ¬ d ∣ n := by
  constructor
  · rintro rfl ⟨k, rfl⟩
    -- an exact quotient is its own ceiling, and one more does not fit under it
    have hk : c = k := h.unique hd ⟨by rw [sub_mul, mul_comm]; omega, by rw [mul_comm]⟩
    have hle := h'.2
    rw [hk, mul_comm k d] at hle
    omega
  · intro hdvd
    refine h.unique hd ⟨?_, le_trans (by omega) h'.2⟩
    have hne : (c' - 1) * d ≠ n := fun heq => hdvd ⟨c' - 1, by rw [mul_comm, heq]⟩
    have hlt := h'.1
    omega

end IsCeil

/-- `count` intervals of `width` integers cover `length` integers, and the last
one begins inside. -/
structure Tiling (length count width : ℤ) : Prop where
  countPos : 0 < count
  widthPos : 0 < width
  lastInside : (count - 1) * width < length
  covers : length ≤ count * width

section Intervals

variable {length count width : ℤ} (h : Tiling length count width)

include h

/-- Every place of the span lies in one of the intervals. -/
theorem Tiling.exists_interval {x : ℤ} (hx0 : 0 ≤ x) (hx : x < length) :
    ∃ i, 0 ≤ i ∧ i < count ∧ i * width ≤ x ∧ x < (i + 1) * width := by
  refine ⟨x / width, Int.ediv_nonneg hx0 h.widthPos.le, ?_, ?_, ?_⟩
  · exact Int.ediv_lt_of_lt_mul h.widthPos (hx.trans_le h.covers)
  · exact Int.ediv_mul_le x h.widthPos.ne'
  · exact Int.lt_ediv_add_one_mul_self x h.widthPos

/-- Every interval begins inside the span. -/
theorem Tiling.start_lt {i : ℤ} (hi : i < count) : i * width < length := by
  have hle : i * width ≤ (count - 1) * width :=
    mul_le_mul_of_nonneg_right (Int.le_sub_one_of_lt hi) h.widthPos.le
  exact hle.trans_lt h.lastInside

end Intervals

/-- The number of intervals of a desired width, and the width which that number
needs, cut the span; the width only shrinks. -/
theorem tiling_of_isCeil {length desired count width : ℤ} (hlength : 0 < length)
    (hdesired : 0 < desired) (hcount : IsCeil length desired count)
    (hwidth : IsCeil length count width) :
    Tiling length count width ∧ width ≤ desired := by
  have hcpos := hcount.pos hdesired hlength
  have hwpos := hwidth.pos hcpos hlength
  have hle : width ≤ desired := hwidth.le_of_le hcpos (by rw [mul_comm]; exact hcount.2)
  refine ⟨⟨hcpos, hwpos, ?_, by rw [mul_comm]; exact hwidth.2⟩, hle⟩
  calc (count - 1) * width ≤ (count - 1) * desired :=
        mul_le_mul_of_nonneg_left hle (by omega)
    _ < length := hcount.1

end PgRange.Math
