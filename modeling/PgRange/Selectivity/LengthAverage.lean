import PgRange.Math.PiecewiseLinear
import PgRange.Selectivity.LengthHist

/-!
# What the average of lengths averages

The comment on `calc_length_hist_frac` says what it computes: the average, over an interval
of lengths, of the fraction of ranges that are shorter. This fraction is zero before the first
value of the histogram, one behind the last, and linear in every bin.

The code takes the height at the end of bin `i` to be `i` over the number of bins, which is
the height at its start. Every interval that passes the end of a bin gets too small an area.
An interval that starts before the histogram and ends in its first bin gets too large an area,
since the first trapezoid starts where the interval does. Only an interval within a bin, before
the histogram or behind it is averaged as documented.

## Main results

* `calcLengthHistFrac_average_iff` — when the result is the documented average
-/

set_option autoImplicit false

namespace PgRange.Selectivity

open Math

/-! ### The documented fraction -/

section Fraction

variable (hs : List ℚ)

/-- The values of the histogram. -/
noncomputable def node (k : ℕ) : ℝ := hs.getD k 0

/-- How many bins lie before a length. -/
noncomputable def binsBefore (x : ℝ) : ℝ := rampSum (node hs) (hs.length - 1) x

/-- The fraction of ranges shorter than a length, which is linear in every bin. -/
noncomputable def shorterFraction (x : ℝ) : ℝ := binsBefore hs x / (hs.length - 1 : ℕ)

variable {hs} (hmono : hs.Pairwise (· < ·))

include hmono

theorem strictMonoOn_node : StrictMonoOn (node hs) (Set.Iic (hs.length - 1)) := by
  intro i _ j hj hij
  have hj := Set.mem_Iic.mp hj
  rcases lt_or_ge j hs.length with hlt | hge
  · unfold node
    rw [List.getD_eq_getElem _ _ (hij.trans hlt), List.getD_eq_getElem _ _ hlt]
    exact Rat.cast_lt.mpr (List.pairwise_iff_getElem.mp hmono i j _ _ hij)
  · omega

theorem node_lt {i j : ℕ} (hij : i < j) (hj : j < hs.length) : node hs i < node hs j :=
  strictMonoOn_node hmono (Set.mem_Iic.mpr (by omega)) (Set.mem_Iic.mpr (by omega)) hij

theorem binsBefore_of_le {x : ℝ} (hx : x ≤ node hs 0) : binsBefore hs x = 0 :=
  rampSum_of_le (strictMonoOn_node hmono) hx

theorem binsBefore_of_ge {x : ℝ} (hx : node hs (hs.length - 1) ≤ x) :
    binsBefore hs x = (hs.length - 1 : ℕ) :=
  rampSum_of_ge (strictMonoOn_node hmono) hx

theorem binsBefore_of_mem {i : ℕ} (hi : i + 1 < hs.length) {x : ℝ} (hlow : node hs i ≤ x)
    (hhigh : x ≤ node hs (i + 1)) :
    binsBefore hs x = i + (x - node hs i) / (node hs (i + 1) - node hs i) :=
  rampSum_of_mem (strictMonoOn_node hmono) (by omega) hlow hhigh

theorem binsBefore_node {i : ℕ} (hi : i < hs.length) : binsBefore hs (node hs i) = i := by
  rcases lt_or_ge (i + 1) hs.length with hlt | hge
  · rw [binsBefore_of_mem hmono hlt le_rfl (node_lt hmono i.lt_succ_self hlt).le, sub_self,
      zero_div, add_zero]
  · obtain rfl : i = hs.length - 1 := by omega
    exact binsBefore_of_ge hmono le_rfl

end Fraction

/-! ### Pieces of the area -/

section Area

variable {hs : List ℚ} {l1 l2 : ℚ} {equal : Bool}

/-- An interval within a bin, or behind the histogram. -/
def InPiece (hs : List ℚ) (a b : ℝ) : Prop :=
  (∃ i, i + 1 < hs.length ∧ node hs i ≤ a ∧ b ≤ node hs (i + 1)) ∨ node hs (hs.length - 1) ≤ a

theorem integral_split (a b c : ℝ) :
    ∫ x in a..c, binsBefore hs x = (∫ x in a..b, binsBefore hs x) + ∫ x in b..c, binsBefore hs x :=
  integral_rampSum_split _ _ a b c

/-- There the area is a trapezoid. -/
theorem integral_of_inPiece (hmono : hs.Pairwise (· < ·)) {a b : ℝ} (hab : a ≤ b)
    (hpiece : InPiece hs a b) :
    ∫ x in a..b, binsBefore hs x = (binsBefore hs a + binsBefore hs b) / 2 * (b - a) := by
  rcases hpiece with ⟨i, hi, hlow, hhigh⟩ | hlast
  · exact integral_rampSum_of_mem (strictMonoOn_node hmono) hab (by omega) hlow hhigh
  · rw [binsBefore_of_ge hmono hlast, binsBefore_of_ge hmono (hlast.trans hab), add_self_div_two]
    exact integral_rampSum_of_ge (strictMonoOn_node hmono) hab hlast

/-- Heights that fall short by one bin in sum make the area fall short by half the width. -/
theorem trapezoid_le_integral (hmono : hs.Pairwise (· < ·)) {a b : ℝ} (hab : a ≤ b)
    (hpiece : InPiece hs a b) (pa pb : ℝ)
    (hshort : pa + pb + 1 ≤ binsBefore hs a + binsBefore hs b) :
    1 / 2 * (pb + pa) * (b - a) ≤ (∫ x in a..b, binsBefore hs x) - (b - a) / 2 := by
  rw [integral_of_inPiece hmono hab hpiece]
  have := mul_le_mul_of_nonneg_right hshort (sub_nonneg.mpr hab)
  linarith

theorem div_bins_mul (hlen : 2 ≤ hs.length) (y : ℚ) :
    ((y / (hs.length - 1 : ℤ) : ℚ) : ℝ) * (hs.length - 1 : ℕ) = y := by
  have hbins : ((hs.length - 1 : ℕ) : ℝ) ≠ 0 := Nat.cast_ne_zero.mpr (by omega)
  have hnat : (hs.length - 1 : ℤ) = (hs.length - 1 : ℕ) := by omega
  have hcast : (((hs.length - 1 : ℤ) : ℚ) : ℝ) = (hs.length - 1 : ℕ) := by
    rw [hnat, Rat.cast_intCast, Int.cast_natCast]
  rw [Rat.cast_div, hcast, div_mul_cancel₀ _ hbins]

/-- One more trapezoid, with heights in numbers of bins. -/
theorem addTrapezoid_mul {area pa pb width : ℚ} (ha : 0 ≤ pa) (hb : 0 ≤ pb) (n : ℝ) :
    (addTrapezoid area pa pb width : ℝ) * n = area * n + 1 / 2 * (pb * n + pa * n) * width := by
  rw [addTrapezoid_of_nonneg ha hb]
  push_cast
  ring

/-! ### The heights at the ends of the interval -/

theorem getD_lt_getD (hmono : hs.Pairwise (· < ·)) {i : ℕ} (hi : i + 1 < hs.length) :
    hs.getD i 0 < hs.getD (i + 1) 0 :=
  Rat.cast_lt.mp (node_lt hmono i.lt_succ_self hi)

theorem endPosition_of_bin (hmono : hs.Pairwise (· < ·)) {j : ℕ} (hj : j + 1 < hs.length) :
    endPosition hs l2 j = lenPosition l2 (hs.getD j 0) (hs.getD (j + 1) 0) :=
  if_neg (not_or.mpr ⟨by omega, (getD_lt_getD hmono hj).ne⟩)

theorem Start.binsBefore_eq (hmono : hs.Pairwise (· < ·)) {i : ℕ} {pos : ℚ}
    (h : Start hs l1 equal i pos) (hi : i + 1 < hs.length)
    (hnot : ¬ Reached equal (hs.getD (i + 1) 0) l1) : ((i + pos : ℚ) : ℝ) = binsBefore hs l1 := by
  cases h with
  | inside hreached =>
    rw [binsBefore_of_mem hmono hi (Rat.cast_le.mpr hreached.le)
      (Rat.cast_le.mpr (le_of_not_reached hnot)), lenPosition_eq (hreached.lt_of_not hnot).ne, node,
      node]
    push_cast
    rfl
  | before hbefore =>
    rw [binsBefore_of_le hmono (Rat.cast_le.mpr (le_of_not_reached hbefore))]
    simp

theorem endPosition_binsBefore_eq (hmono : hs.Pairwise (· < ·)) {j : ℕ} (hj : j < hs.length)
    (hle : hs.getD j 0 ≤ l2) (hnot : j + 1 < hs.length → ¬ Reached equal (hs.getD (j + 1) 0) l2) :
    ((j + endPosition hs l2 j : ℚ) : ℝ) = binsBefore hs l2 := by
  rcases lt_or_ge (j + 1) hs.length with hlt | hge
  · rw [binsBefore_of_mem hmono hlt (Rat.cast_le.mpr hle)
      (Rat.cast_le.mpr (le_of_not_reached (hnot hlt))), endPosition_of_bin hmono hlt,
      lenPosition_eq (getD_lt_getD hmono hlt).ne, node, node]
    push_cast
    rfl
  · obtain rfl : j = hs.length - 1 := by omega
    rw [binsBefore_of_ge hmono (Rat.cast_le.mpr hle), endPosition_of_last hge]
    simp

end Area

/-! ### The walk falls short -/

section Walk

variable {hs : List ℚ} {l1 l2 : ℚ} {equal : Bool}

/-- What the loop keeps once it has passed the end of a bin: the height is one bin too low,
and the area is too small by half the width since the start of the interval or of the
histogram, or more. -/
structure ShortInv (hs : List ℚ) (l1 l2 : ℚ) (equal : Bool) (i : ℕ) (area b pb : ℚ) : Prop where
  pos : 0 < i
  end_eq : b = hs.getD i 0
  reached : Reached equal b l2
  height : pb = ((i - 1 : ℕ) : ℚ) / (hs.length - 1 : ℤ)
  area_le : (area : ℝ) * (hs.length - 1 : ℕ) ≤
    (∫ x in (l1 : ℝ)..b, binsBefore hs x) - (b - max (l1 : ℝ) (node hs 0)) / 2

/-- The heights that the loop takes. -/
theorem loopHeight_nonneg (hlen : 2 ≤ hs.length) (i : ℕ) : 0 ≤ (i : ℚ) / (hs.length - 1 : ℤ) := by
  simpa using height_nonneg hlen i le_rfl

/-- The first round of the loop makes the area too small. -/
theorem ShortInv.first (hmono : hs.Pairwise (· < ·)) (hlen : 2 ≤ hs.length) {i : ℕ} {pos : ℚ}
    (hstart : Start hs l1 equal i pos) (hi : i + 1 < hs.length)
    (hnot : ¬ Reached equal (hs.getD (i + 1) 0) l1)
    (hreached : Reached equal (hs.getD (i + 1) 0) l2) :
    ShortInv hs l1 l2 equal (i + 1)
      (addTrapezoid 0 ((i + pos) / (hs.length - 1 : ℤ)) (i / (hs.length - 1 : ℤ))
        (hs.getD (i + 1) 0 - l1)) (hs.getD (i + 1) 0) (i / (hs.length - 1 : ℤ)) := by
  refine ⟨i.succ_pos, rfl, hreached, by rw [Nat.add_sub_cancel], ?_⟩
  have hnext : binsBefore hs (node hs (i + 1)) = (i + 1 : ℕ) := binsBefore_node hmono hi
  rw [addTrapezoid_mul (height_nonneg hlen i (hstart.mem hnot).1) (loopHeight_nonneg hlen i),
    div_bins_mul hlen, div_bins_mul hlen, hstart.binsBefore_eq hmono hi hnot]
  change _ ≤ (∫ x in (l1 : ℝ)..node hs (i + 1), binsBefore hs x) -
    (node hs (i + 1) - max (l1 : ℝ) (node hs 0)) / 2
  have hle : (l1 : ℝ) ≤ node hs (i + 1) := Rat.cast_le.mpr (le_of_not_reached hnot)
  cases hstart with
  | inside hbegun =>
    have harea := trapezoid_le_integral hmono hle
      (Or.inl ⟨i, hi, Rat.cast_le.mpr hbegun.le, le_rfl⟩) (binsBefore hs l1) i
      (by rw [hnext]; push_cast; linarith)
    have hmax := le_max_left (l1 : ℝ) (node hs 0)
    simp only [node] at *
    push_cast
    linarith
  | before hbefore =>
    -- the first trapezoid has no height at either side
    have hl1 : (l1 : ℝ) ≤ node hs 0 := Rat.cast_le.mpr (le_of_not_reached hbefore)
    have hbin := integral_of_inPiece hmono (node_lt hmono (Nat.lt_succ_self 0) hi).le
      (Or.inl ⟨0, hi, le_rfl, le_rfl⟩)
    rw [binsBefore_of_le hmono le_rfl, hnext] at hbin
    have hzero : ∫ x in (l1 : ℝ)..node hs 0, binsBefore hs x = 0 :=
      integral_rampSum_of_le (strictMonoOn_node hmono) hl1 le_rfl
    rw [binsBefore_of_le hmono hl1, integral_split _ (node hs 0), hzero, hbin, max_eq_right hl1]
    push_cast
    linarith

/-- Every other round leaves it too small. -/
theorem ShortInv.round (hmono : hs.Pairwise (· < ·)) (hlen : 2 ≤ hs.length) {i : ℕ}
    {area b pb : ℚ} (hi : i + 1 < hs.length) (hreached : Reached equal (hs.getD (i + 1) 0) l2)
    (h : ShortInv hs l1 l2 equal i area b pb) :
    ShortInv hs l1 l2 equal (i + 1)
      (addTrapezoid area pb (i / (hs.length - 1 : ℤ)) (hs.getD (i + 1) 0 - b))
      (hs.getD (i + 1) 0) (i / (hs.length - 1 : ℤ)) := by
  refine ⟨i.succ_pos, rfl, hreached, by rw [Nat.add_sub_cancel], ?_⟩
  have harea := h.area_le
  rw [h.height, h.end_eq] at *
  rw [addTrapezoid_mul (loopHeight_nonneg hlen _) (loopHeight_nonneg hlen i), div_bins_mul hlen,
    div_bins_mul hlen]
  have hpos : ((i - 1 : ℕ) : ℝ) = i - 1 := by
    rw [Nat.cast_sub h.pos, Nat.cast_one]
  have hbin := trapezoid_le_integral hmono (node_lt hmono i.lt_succ_self hi).le
    (Or.inl ⟨i, hi, le_rfl, le_rfl⟩) (i - 1 : ℕ) i
    (by rw [binsBefore_node hmono hi, binsBefore_node hmono (by omega), hpos]; push_cast; linarith)
  rw [integral_split (l1 : ℝ) (hs.getD i 0 : ℚ)]
  have hwidth := (node_lt hmono i.lt_succ_self hi).le
  simp only [node] at *
  push_cast
  linarith

/-- At the end, the area is too small. -/
theorem ShortInv.finish (hmono : hs.Pairwise (· < ·)) (hlen : 2 ≤ hs.length) (hlt : l1 < l2)
    {j : ℕ} {area b pb : ℚ} (h : ShortInv hs l1 l2 equal j area b pb) (hj : j < hs.length)
    (hnot : j + 1 < hs.length → ¬ Reached equal (hs.getD (j + 1) 0) l2) :
    (addTrapezoid area pb ((j + endPosition hs l2 j) / (hs.length - 1 : ℤ)) (l2 - b) : ℝ) *
        (hs.length - 1 : ℕ) < ∫ x in (l1 : ℝ)..l2, binsBefore hs x := by
  have hle : (b : ℝ) ≤ l2 := Rat.cast_le.mpr h.reached.le
  have harea := h.area_le
  have hpos : ((j - 1 : ℕ) : ℝ) = j - 1 := by
    rw [Nat.cast_sub h.pos, Nat.cast_one]
  have hnode : binsBefore hs (b : ℝ) = j := by
    rw [h.end_eq]
    exact binsBefore_node hmono hj
  have hjle : hs.getD j 0 ≤ l2 := h.end_eq ▸ h.reached.le
  have hpiece : InPiece hs (b : ℝ) l2 := by
    rw [h.end_eq]
    rcases lt_or_ge (j + 1) hs.length with hnext | hlast
    · exact Or.inl ⟨j, hnext, le_rfl, Rat.cast_le.mpr (le_of_not_reached (hnot hnext))⟩
    · obtain rfl : j = hs.length - 1 := by omega
      exact Or.inr le_rfl
  have hbin := trapezoid_le_integral hmono hle hpiece (j - 1 : ℕ) (binsBefore hs l2)
    (by rw [hnode, hpos]; linarith)
  -- the interval ends behind its own start and behind that of the histogram
  have hend : max (l1 : ℝ) (node hs 0) < l2 :=
    max_lt (Rat.cast_lt.mpr hlt) ((node_lt hmono h.pos hj).trans_le (Rat.cast_le.mpr hjle))
  rw [h.height, addTrapezoid_mul (loopHeight_nonneg hlen _)
    (height_nonneg hlen j ((endPosition_mem (hmono.imp le_of_lt) hnot).2 hjle)), div_bins_mul hlen,
    div_bins_mul hlen, endPosition_binsBefore_eq hmono hj hjle hnot,
    integral_split (l1 : ℝ) (b : ℝ)]
  push_cast at *
  linarith

end Walk

/-! ### When the average is the documented one -/

section Average

variable {hs : List ℚ} {l1 l2 : ℚ} {equal : Bool}

/-- The interval lies before the histogram, or it starts at its first value or later and no
other value is passed within it. -/
def PassesNoValue (hs : List ℚ) (l1 l2 : ℚ) (equal : Bool) : Prop :=
  l2 ≤ hs.getD 0 0 ∨ hs.getD 0 0 ≤ l1 ∧
    ∀ k < hs.length, 0 < k → Reached equal (hs.getD k 0) l2 → Reached equal (hs.getD k 0) l1

/-- The result is the average over the interval. -/
def IsAverage (hs : List ℚ) (l1 l2 : ℚ) (equal : Bool) : Prop :=
  ∃ q : ℚ, calcLengthHistFrac (hs.map .fin) (.fin l2) equal (.fin l1) = .ok (.fin q) ∧
    (q : ℝ) = (∫ x in (l1 : ℝ)..l2, shorterFraction hs x) / (l2 - l1)

/-- An area is the right one if the bins under it are. -/
theorem isAverage_iff (hlen : 2 ≤ hs.length) (hlt : l1 < l2) {area : ℚ}
    (h : calcLengthHistFrac (hs.map .fin) (.fin l2) equal (.fin l1) =
      .ok (.fin (area / (l2 - l1)))) :
    IsAverage hs l1 l2 equal ↔
      (area : ℝ) * (hs.length - 1 : ℕ) = ∫ x in (l1 : ℝ)..l2, binsBefore hs x := by
  have hbins : ((hs.length - 1 : ℕ) : ℝ) ≠ 0 := Nat.cast_ne_zero.mpr (by omega)
  have hwidth : (l2 : ℝ) - l1 ≠ 0 := sub_ne_zero.mpr (Rat.cast_lt.mpr hlt).ne'
  simp only [IsAverage, h, Except.ok.injEq, FloatQ.fin.injEq, exists_eq_left', shorterFraction,
    intervalIntegral.integral_div]
  rw [Rat.cast_div, Rat.cast_sub, div_left_inj' hwidth, eq_div_iff hbins]

section OneBin

variable (hmono : hs.Pairwise (· < ·)) (hlen : 2 ≤ hs.length) (hlt : l1 < l2)

include hmono hlen

/-- Within one bin the area is a trapezoid, as soon as the bin has begun. -/
theorem area_of_one_bin {i : ℕ} {pos : ℚ} (hstart : Start hs l1 equal i pos)
    (hi : i + 1 < hs.length) (hnot : ¬ Reached equal (hs.getD (i + 1) 0) l1)
    (hend : ¬ Reached equal (hs.getD (i + 1) 0) l2) (hbegun : hs.getD i 0 ≤ l2) :
    (addTrapezoid 0 ((i + pos) / (hs.length - 1 : ℤ))
        ((i + endPosition hs l2 i) / (hs.length - 1 : ℤ)) (l2 - l1) : ℝ) * (hs.length - 1 : ℕ) =
      1 / 2 * (binsBefore hs l2 + binsBefore hs l1) * (l2 - l1) := by
  rw [addTrapezoid_mul (height_nonneg hlen i (hstart.mem hnot).1)
    (height_nonneg hlen i ((endPosition_mem (hmono.imp le_of_lt) fun _ => hend).2 hbegun)),
    div_bins_mul hlen, div_bins_mul hlen, hstart.binsBefore_eq hmono hi hnot,
    endPosition_binsBefore_eq hmono (by omega) hbegun fun _ => hend]
  push_cast
  ring

/-- Before the histogram there is no area. -/
theorem area_of_before (hout : l2 ≤ hs.getD 0 0) :
    addTrapezoid 0 (((0 : ℕ) + 0) / (hs.length - 1 : ℤ))
      (((0 : ℕ) + endPosition hs l2 0) / (hs.length - 1 : ℤ)) (l2 - l1) = 0 := by
  have hbin := getD_lt_getD hmono (show 0 + 1 < hs.length by omega)
  have hneg : endPosition hs l2 0 ≤ 0 := by
    rw [endPosition_of_bin hmono (by omega), lenPosition_eq hbin.ne]
    exact div_nonpos_of_nonpos_of_nonneg (sub_nonpos.mpr hout) (sub_nonneg.mpr hbin.le)
  refine if_neg ?_
  rw [Nat.cast_zero, add_zero, zero_div, zero_add, not_or, not_lt, not_lt]
  exact ⟨le_rfl, div_nonpos_of_nonpos_of_nonneg hneg (bins_pos hlen).le⟩

/-- A trapezoid that starts at the interval and not at the first bin is too large, unless both
are the same. -/
theorem trapezoid_eq_integral_iff (hl1 : (l1 : ℝ) ≤ node hs 0) (hbin : node hs 0 < (l2 : ℝ))
    (hl2 : (l2 : ℝ) ≤ node hs 1) :
    1 / 2 * (binsBefore hs l2 + binsBefore hs l1) * (l2 - l1) =
      (∫ x in (l1 : ℝ)..l2, binsBefore hs x) ↔ node hs 0 = l1 := by
  have hone : 0 + 1 < hs.length := by omega
  have hzero : ∫ x in (l1 : ℝ)..node hs 0, binsBefore hs x = 0 :=
    integral_rampSum_of_le (strictMonoOn_node hmono) hl1 le_rfl
  have hrise : 0 < binsBefore hs l2 := by
    rw [binsBefore_of_mem hmono hone hbin.le hl2, Nat.cast_zero, zero_add]
    exact div_pos (sub_pos.mpr hbin) (sub_pos.mpr (node_lt hmono (Nat.lt_succ_self 0) hone))
  rw [integral_split _ (node hs 0), hzero, zero_add,
    integral_of_inPiece hmono hbin.le (Or.inl ⟨0, hone, le_rfl, hl2⟩), binsBefore_of_le hmono hl1,
    binsBefore_of_le hmono le_rfl]
  constructor
  · intro heq
    have hprod : binsBefore hs l2 * (node hs 0 - l1) = 0 := by linarith
    exact sub_eq_zero.mp ((mul_eq_zero.mp hprod).resolve_left hrise.ne')
  · intro hsame
    rw [hsame]
    ring

include hlt

/-- The loop has made no round: the interval ends before the end of the first bin. -/
theorem area_eq_iff_of_one_bin {i : ℕ} {pos : ℚ} (hstart : Start hs l1 equal i pos)
    (hi : i + 1 < hs.length) (hnot : ¬ Reached equal (hs.getD (i + 1) 0) l1)
    (hend : ¬ Reached equal (hs.getD (i + 1) 0) l2) :
    (addTrapezoid 0 ((i + pos) / (hs.length - 1 : ℤ))
        ((i + endPosition hs l2 i) / (hs.length - 1 : ℤ)) (l2 - l1) : ℝ) * (hs.length - 1 : ℕ) =
      (∫ x in (l1 : ℝ)..l2, binsBefore hs x) ↔ l2 ≤ hs.getD 0 0 ∨ hs.getD 0 0 ≤ l1 := by
  have hle : (l1 : ℝ) ≤ l2 := Rat.cast_le.mpr hlt.le
  have hl2 : (l2 : ℝ) ≤ node hs (i + 1) := Rat.cast_le.mpr (le_of_not_reached hend)
  have harea := area_of_one_bin hmono hlen hstart hi hnot hend
  cases hstart with
  | inside hbegun =>
    have hfirst : hs.getD 0 0 ≤ l1 :=
      (getD_le_getD (hmono.imp le_of_lt) (Nat.zero_le i) (by omega)).trans hbegun.le
    refine iff_of_true ?_ (Or.inr hfirst)
    rw [harea (hbegun.le.trans hlt.le), integral_of_inPiece hmono hle
      (Or.inl ⟨i, hi, Rat.cast_le.mpr hbegun.le, hl2⟩)]
    ring
  | before hbefore =>
    have hl1 : l1 ≤ hs.getD 0 0 := le_of_not_reached hbefore
    rcases le_or_gt l2 (hs.getD 0 0) with hout | hinside
    · refine iff_of_true ?_ (Or.inl hout)
      rw [area_of_before hmono hlen hout, Rat.cast_zero, zero_mul]
      exact (integral_rampSum_of_le (strictMonoOn_node hmono) hle (Rat.cast_le.mpr hout)).symm
    · rw [harea hinside.le, trapezoid_eq_integral_iff hmono hlen (Rat.cast_le.mpr hl1)
        (Rat.cast_lt.mpr hinside) hl2, or_iff_right (not_le.mpr hinside)]
      exact Rat.cast_inj.trans ⟨le_of_eq, fun h => le_antisymm h hl1⟩

end OneBin

/-- An interval behind the histogram. -/
theorem isAverage_of_behind (hmono : hs.Pairwise (· < ·)) (hlen : 2 ≤ hs.length) (hl1 : 0 ≤ l1)
    (hlt : l1 < l2)
    (hall : (hs.length : ℤ) - 1 ≤ lengthHistBsearch (hs.map .fin) (.fin l1) equal) :
    IsAverage hs l1 l2 equal ∧ PassesNoValue hs l1 l2 equal := by
  have hsorted := hmono.imp le_of_lt
  have hreached : ∀ k < hs.length, Reached equal (hs.getD k 0) l1 := fun k hk =>
    (le_lengthHistBsearch_iff hsorted l1 equal hk).mp (by omega)
  have hresult : calcLengthHistFrac (hs.map .fin) (.fin l2) equal (.fin l1) =
      .ok (.fin ((l2 - l1) / (l2 - l1))) := by
    rw [div_self (sub_ne_zero.mpr hlt.ne')]
    simp [calcLengthHistFrac, hlt.le, not_lt.mpr (hl1.trans hlt.le), hall]
  constructor
  · rw [isAverage_iff hlen hlt hresult]
    have harea : ∫ x in (l1 : ℝ)..l2, binsBefore hs x = (hs.length - 1 : ℕ) * ((l2 : ℝ) - l1) :=
      integral_rampSum_of_ge (strictMonoOn_node hmono) (Rat.cast_le.mpr hlt.le)
        (Rat.cast_le.mpr (hreached (hs.length - 1) (by omega)).le)
    rw [harea, mul_comm, Rat.cast_sub]
  · exact Or.inr ⟨(hreached 0 (by omega)).le, fun k hk _ _ => hreached k hk⟩

/-- The result is the documented average if and only if the interval lies before the
histogram, or starts at its first value or later and passes no other value. -/
theorem calcLengthHistFrac_average_iff (hmono : hs.Pairwise (· < ·)) (hlen : 2 ≤ hs.length)
    (hl1 : 0 ≤ l1) (hlt : l1 < l2) (equal : Bool) :
    IsAverage hs l1 l2 equal ↔ PassesNoValue hs l1 l2 equal := by
  have hsorted := hmono.imp le_of_lt
  rcases le_or_gt ((hs.length : ℤ) - 1) (lengthHistBsearch (hs.map .fin) (.fin l1) equal) with
    hall | hsearch
  · have hboth := isAverage_of_behind hmono hlen hl1 hlt hall
    exact iff_of_true hboth.1 hboth.2
  obtain ⟨i, pos, hfirst, hi, hnot, hstart⟩ := firstBin_start hsorted hlen hsearch
  -- no round has been made, or the area is too small
  let P : ℕ → ℚ → ℚ → ℚ → Prop := fun j area b pb =>
    (j = i ∧ area = 0 ∧ b = l1 ∧ pb = (i + pos) / (hs.length - 1 : ℤ)) ∨
      i < j ∧ ShortInv hs l1 l2 equal j area b pb
  have hround : ∀ j area b pb, j + 1 < hs.length → Reached equal (hs.getD (j + 1) 0) l2 →
      P j area b pb →
      P (j + 1) (addTrapezoid area pb (j / (hs.length - 1 : ℤ)) (hs.getD (j + 1) 0 - b))
        (hs.getD (j + 1) 0) (j / (hs.length - 1 : ℤ)) := by
    rintro j area b pb hj hreached (⟨rfl, rfl, rfl, rfl⟩ | ⟨hij, hshort⟩)
    · exact Or.inr ⟨j.lt_succ_self, ShortInv.first hmono hlen hstart hi hnot hreached⟩
    · exact Or.inr ⟨hij.trans j.lt_succ_self, hshort.round hmono hlen hj hreached⟩
  obtain ⟨j, area, b, pb, hloop, hj, hend, hinv⟩ := areaLoop_inv hlen hround
    (hs.length - 1 - i) (by omega) (Or.inl ⟨rfl, rfl, rfl, rfl⟩)
  rw [isAverage_iff hlen hlt
    (calcLengthHistFrac_of_loop hlen (hl1.trans hlt.le) hlt hsearch hfirst hloop)]
  rcases hinv with ⟨rfl, rfl, rfl, rfl⟩ | ⟨hij, hshort⟩
  · rw [area_eq_iff_of_one_bin hmono hlen hlt hstart hi hnot (hend hi), PassesNoValue]
    refine or_congr_right (and_iff_left fun k hk hpos hreached => ?_).symm
    -- values behind the bin are not passed, and those before it were passed before the start
    have hkj : k ≤ j := by
      by_contra hlate
      exact hend hi (hreached.mono (getD_le_getD hsorted (by omega) hk) le_rfl)
    cases hstart with
    | inside hbegun => exact hbegun.mono (getD_le_getD hsorted hkj hj) le_rfl
    | before _ => omega
  · refine iff_of_false (hshort.finish hmono hlen hlt hj hend).ne ?_
    have hpassed : Reached equal (hs.getD (i + 1) 0) l2 :=
      (hshort.end_eq ▸ hshort.reached).mono (getD_le_getD hsorted hij hj) le_rfl
    rintro (hout | ⟨-, hnone⟩)
    · have hlt' := Rat.cast_lt.mp (node_lt hmono i.succ_pos hi)
      exact absurd (hpassed.le.trans hout) (not_le.mpr hlt')
    · exact hnot (hnone (i + 1) hi i.succ_pos hpassed)

end Average

/-- Lengths from `0` to `4` and the interval from `1` to `2` within the second bin. -/
theorem calcLengthHistFrac_average_iff_within : IsAverage [0, 1, 3, 4] 1 2 true :=
  (calcLengthHistFrac_average_iff (by decide +kernel) (by decide) (by decide +kernel)
    (by decide +kernel) true).mpr (Or.inr ⟨by decide +kernel, by decide +kernel⟩)

/-- Lengths `0` and `2` are one bin, in which the fraction rises from zero to one. Its average
over the bin is a half. The code takes the height at the end of the bin to be zero and finds no
area at all. -/
theorem calcLengthHistFrac_whole_bin :
    calcLengthHistFrac ([0, 2].map .fin) (.fin 2) true (.fin 0) = .ok (.fin 0) ∧
      (∫ x in (0 : ℝ)..2, shorterFraction [0, 2] x) / (2 - 0) = 1 / 2 := by
  have hmono : [0, 2].Pairwise ((· < ·) : ℚ → ℚ → Prop) := by decide +kernel
  have hzero : node [0, 2] 0 = 0 := Rat.cast_zero
  have htwo : node [0, 2] 1 = 2 := Rat.cast_ofNat 2
  have harea := integral_of_inPiece hmono (a := 0) (b := 2) zero_le_two
    (Or.inl ⟨0, by decide, hzero.le, htwo.ge⟩)
  have hstart : binsBefore [0, 2] 0 = 0 := binsBefore_of_le hmono hzero.ge
  have hend : binsBefore [0, 2] 2 = 1 := (binsBefore_of_ge hmono htwo.le).trans Nat.cast_one
  refine ⟨by decide +kernel, ?_⟩
  simp only [shorterFraction, intervalIntegral.integral_div, harea, hstart, hend]
  norm_num

end PgRange.Selectivity
