import PgRange.Selectivity.HistScalar

/-!
# The fraction of short ranges

`calc_length_hist_frac` averages the fraction of ranges that are shorter than `x` over an
interval of lengths `x`. It walks over the bins of the length histogram that the interval
covers and adds up trapezoids.

This file follows the walk on a histogram of finite lengths in ascending order. No divisor is
zero, and all heights are fractions, so that the result is one.

## Main results

* `calcLengthHistFrac_mem` — the average is a fraction
-/

set_option autoImplicit false

namespace PgRange.Selectivity

open Math

/-! ### Lengths that have been reached -/

/-- The test of the code on finite lengths: `x` is below `l`, or at it if `equal` is set. -/
def Reached (equal : Bool) (x l : ℚ) : Prop := x < l ∨ equal = true ∧ x ≤ l

instance (equal : Bool) (x l : ℚ) : Decidable (Reached equal x l) :=
  inferInstanceAs (Decidable (_ ∨ _))

theorem lengthTest_fin (equal : Bool) (x l : ℚ) :
    lengthTest (.fin l) equal (.fin x) = decide (Reached equal x l) := by
  rw [Bool.eq_iff_iff, decide_eq_true_eq]
  simp [lengthTest, Reached]

section Reached

variable {equal : Bool} {x y l l' : ℚ}

theorem Reached.le (h : Reached equal x l) : x ≤ l := by
  rcases h with h | h
  · exact h.le
  · exact h.2

theorem le_of_not_reached (h : ¬ Reached equal x l) : l ≤ x :=
  not_lt.mp fun hlt => h (Or.inl hlt)

theorem Reached.mono (h : Reached equal x l) (hy : y ≤ x) (hl : l ≤ l') : Reached equal y l' := by
  rcases h with h | h
  · exact Or.inl (hy.trans_lt (h.trans_le hl))
  · exact Or.inr ⟨h.1, hy.trans (h.2.trans hl)⟩

/-- A length that has been reached lies before one that has not. -/
theorem Reached.lt_of_not (h : Reached equal x l) (h' : ¬ Reached equal y l) : x < y := by
  by_contra hle
  exact h' (h.mono (not_lt.mp hle) le_rfl)

end Reached

/-! ### The search -/

/-- What is at or below an entry that passes the test passes it. -/
theorem lengthTest_of_le {value x y : FloatQ} {equal : Bool} (hle : x.le y = true)
    (hpass : lengthTest value equal y = true) : lengthTest value equal x = true := by
  simp only [lengthTest, Bool.or_eq_true, Bool.and_eq_true] at hpass ⊢
  rcases hpass with hlt | ⟨hequal, hyv⟩
  · exact Or.inl (FloatQ.lt_of_le_of_lt hle hlt)
  · exact Or.inr ⟨hequal, FloatQ.le_trans hle hyv⟩

/-- The test passes for the lengths up to some place, whatever the value is. -/
theorem passesDown_of_sorted {lengthHist : List FloatQ}
    (hsorted : lengthHist.Pairwise fun x y => x.le y = true) (value : FloatQ) (equal : Bool) :
    PassesDown (fun i => lengthTest value equal (lengthHist.getD i (.fin 0)))
      lengthHist.length := by
  intro j k hjk hk hpass
  rcases hjk.lt_or_eq with hlt | rfl
  · refine lengthTest_of_le ?_ hpass
    rw [List.getD_eq_getElem _ _ hk, List.getD_eq_getElem _ _ (hlt.trans hk)]
    exact List.pairwise_iff_getElem.mp hsorted j k _ hk hlt
  · exact hpass

section Search

variable {hs : List ℚ} (hsorted : hs.Pairwise (· ≤ ·))

@[simp] theorem getD_map_fin (hs : List ℚ) (k : ℕ) :
    (hs.map FloatQ.fin).getD k (.fin 0) = .fin (hs.getD k 0) := List.getD_map _ _ _

include hsorted

theorem getD_le_getD {i j : ℕ} (hij : i ≤ j) (hj : j < hs.length) :
    hs.getD i 0 ≤ hs.getD j 0 := by
  rw [List.getD_eq_getElem _ _ hj, List.getD_eq_getElem _ _ (hij.trans_lt hj)]
  rcases hij.lt_or_eq with hlt | rfl
  · exact List.pairwise_iff_getElem.mp hsorted i j _ hj hlt
  · exact le_rfl

theorem passesDown_lengthTest (l : ℚ) (equal : Bool) :
    PassesDown (fun i => lengthTest (.fin l) equal ((hs.map FloatQ.fin).getD i (.fin 0)))
      (hs.map FloatQ.fin).length := by
  refine passesDown_of_sorted ?_ (.fin l) equal
  exact List.pairwise_map.mpr (hsorted.imp fun hle => decide_eq_true hle)

theorem le_lengthHistBsearch_iff (l : ℚ) (equal : Bool) {k : ℕ} (hk : k < hs.length) :
    (k : ℤ) ≤ lengthHistBsearch (hs.map .fin) (.fin l) equal ↔ Reached equal (hs.getD k 0) l := by
  rw [lengthHistBsearch, le_bsearchLast_iff (passesDown_lengthTest hsorted l equal) (by simpa),
    getD_map_fin, lengthTest_fin, decide_eq_true_eq]

theorem lengthHistBsearch_mem (l : ℚ) (equal : Bool) :
    -1 ≤ lengthHistBsearch (hs.map .fin) (.fin l) equal ∧
      lengthHistBsearch (hs.map .fin) (.fin l) equal < hs.length := by
  have hlt := bsearchLast_lt (passesDown_lengthTest hsorted l equal)
  rw [List.length_map] at hlt
  exact ⟨neg_one_le_bsearchLast (passesDown_lengthTest hsorted l equal), by
    simpa [lengthHistBsearch] using hlt⟩

end Search

/-! ### Positions and trapezoids -/

/-- The position of a length in a bin. -/
def lenPosition (value hist1 hist2 : ℚ) : ℚ := 1 - (hist2 - value) / (hist2 - hist1)

theorem getLenPosition_fin {value hist1 hist2 : ℚ} (hne : hist1 ≠ hist2) :
    getLenPosition (.fin value) (.fin hist1) (.fin hist2) =
      .ok (.fin (lenPosition value hist1 hist2)) := by
  have hwidth : hist2 - hist1 ≠ 0 := sub_ne_zero.mpr hne.symm
  simp [getLenPosition, divide_fin hwidth, lenPosition, bind, Except.bind, pure, Except.pure]

theorem lenPosition_eq {value hist1 hist2 : ℚ} (hne : hist1 ≠ hist2) :
    lenPosition value hist1 hist2 = (value - hist1) / (hist2 - hist1) := by
  have hwidth : hist2 - hist1 ≠ 0 := sub_ne_zero.mpr hne.symm
  rw [lenPosition, eq_div_iff hwidth, sub_mul, div_mul_cancel₀ _ hwidth]
  ring

theorem lenPosition_nonneg {value hist1 hist2 : ℚ} (hlt : hist1 < hist2) (hle : hist1 ≤ value) :
    0 ≤ lenPosition value hist1 hist2 := by
  rw [lenPosition_eq hlt.ne]
  exact div_nonneg (sub_nonneg.mpr hle) (sub_nonneg.mpr hlt.le)

theorem lenPosition_le_one {value hist1 hist2 : ℚ} (hlt : hist1 < hist2) (hle : value ≤ hist2) :
    lenPosition value hist1 hist2 ≤ 1 := by
  rw [lenPosition_eq hlt.ne, div_le_one (sub_pos.mpr hlt)]
  exact sub_le_sub_right hle _

/-- An area with one more trapezoid, unless both its sides have no height. -/
def addTrapezoid (area pa pb width : ℚ) : ℚ :=
  if 0 < pa ∨ 0 < pb then area + 1 / 2 * (pb + pa) * width else area

theorem AreaState.add_fin (i : ℕ) (area b pb b' pb' : ℚ) :
    AreaState.add ⟨i, .fin area, .fin b, .fin pb⟩ (.fin b') (.fin pb') =
      .fin (addTrapezoid area pb pb' (b' - b)) := by
  unfold AreaState.add addTrapezoid
  simp only [FloatQ.fin_lt_fin, Bool.or_eq_true, decide_eq_true_eq]
  split_ifs <;> rfl

/-- Sides of no height have no area, so the condition matters only for a negative height. -/
theorem addTrapezoid_of_nonneg {area pa pb width : ℚ} (ha : 0 ≤ pa) (hb : 0 ≤ pb) :
    addTrapezoid area pa pb width = area + 1 / 2 * (pb + pa) * width := by
  unfold addTrapezoid
  split_ifs with h
  · rfl
  · rw [not_or, not_lt, not_lt] at h
    rw [le_antisymm h.1 ha, le_antisymm h.2 hb]
    ring

/-- Heights that are fractions add at most the width. -/
theorem addTrapezoid_mem {area pa pb width bound : ℚ} (harea : 0 ≤ area ∧ area ≤ bound)
    (ha : 0 ≤ pa ∧ pa ≤ 1) (hb : pb ≤ 1) (hneg : 0 ≤ pb ∨ pa = 0) (hwidth : 0 ≤ width) :
    0 ≤ addTrapezoid area pa pb width ∧ addTrapezoid area pa pb width ≤ bound + width := by
  unfold addTrapezoid
  split_ifs with h
  · have hpb : 0 ≤ pb := by
      rcases hneg with hpb | rfl
      · exact hpb
      · exact (h.resolve_left (lt_irrefl _)).le
    have hheight : 0 ≤ 1 / 2 * (pb + pa) ∧ 1 / 2 * (pb + pa) ≤ 1 := by
      constructor <;> linarith
    have hlow := mul_nonneg hheight.1 hwidth
    have hhigh := mul_le_of_le_one_left hwidth hheight.2
    constructor <;> linarith
  · exact ⟨harea.1, harea.2.trans (le_add_of_nonneg_right hwidth)⟩

/-! ### The walk -/

section Walk

variable {hs : List ℚ} {l1 l2 : ℚ} {equal : Bool}

/-- The loop keeps what every round keeps, and ends at the last bin or before a bin whose end
has not been reached. -/
theorem areaLoop_inv (hlen : 2 ≤ hs.length) {P : ℕ → ℚ → ℚ → ℚ → Prop}
    (hround : ∀ i area b pb, i + 1 < hs.length → Reached equal (hs.getD (i + 1) 0) l2 →
      P i area b pb →
      P (i + 1) (addTrapezoid area pb (i / (hs.length - 1 : ℤ)) (hs.getD (i + 1) 0 - b))
        (hs.getD (i + 1) 0) (i / (hs.length - 1 : ℤ)))
    (rounds : ℕ) {i : ℕ} {area b pb : ℚ} (hi : i + rounds = hs.length - 1) (h : P i area b pb) :
    ∃ j area' b' pb',
      areaLoop (hs.map .fin) (.fin l2) equal rounds ⟨i, .fin area, .fin b, .fin pb⟩ =
        .ok ⟨j, .fin area', .fin b', .fin pb'⟩ ∧
      j < hs.length ∧ (j + 1 < hs.length → ¬ Reached equal (hs.getD (j + 1) 0) l2) ∧
      P j area' b' pb' := by
  have hbins : ((hs.length - 1 : ℤ) : ℚ) ≠ 0 := Int.cast_ne_zero.mpr (by omega)
  induction rounds generalizing i area b pb with
  | zero => exact ⟨i, area, b, pb, rfl, by omega, by omega, h⟩
  | succ rounds ih =>
    rw [areaLoop, getD_map_fin, lengthTest_fin]
    by_cases hreached : Reached equal (hs.getD (i + 1) 0) l2
    · rw [decide_eq_true hreached, List.length_map, divide_fin hbins]
      simp only [Bool.not_true, Bool.false_eq_true, ↓reduceIte, bind, Except.bind,
        AreaState.add_fin]
      exact ih (by omega) (hround i area b pb (by omega) hreached h)
    · rw [decide_eq_false hreached]
      exact ⟨i, area, b, pb, rfl, by omega, fun _ => hreached, h⟩

/-- The position of `length2` in the bin where the walk ends. -/
def endPosition (hs : List ℚ) (l2 : ℚ) (j : ℕ) : ℚ :=
  if hs.length - 1 ≤ j ∨ hs.getD j 0 = hs.getD (j + 1) 0 then 0
  else lenPosition l2 (hs.getD j 0) (hs.getD (j + 1) 0)

theorem lastPosition_eq (hs : List ℚ) (l2 : ℚ) (j : ℕ) :
    lastPosition (hs.map .fin) (.fin l2) j = .ok (.fin (endPosition hs l2 j)) := by
  unfold lastPosition endPosition
  rw [List.length_map, getD_map_fin, getD_map_fin, FloatQ.fin_isEq_fin]
  split_ifs with hlast hor hlevel hor hor
  · rfl
  · exact absurd (Or.inl hlast) hor
  · rfl
  · exact absurd (Or.inr (of_decide_eq_true hlevel)) hor
  · exact absurd hor (not_or.mpr ⟨hlast, fun h => hlevel (decide_eq_true h)⟩)
  · exact getLenPosition_fin fun h => hlevel (decide_eq_true h)

/-- What the walk computes from the first bin and the result of the loop. -/
theorem calcLengthHistFrac_of_loop (hlen : 2 ≤ hs.length) (hl2 : 0 ≤ l2) (hlt : l1 < l2)
    (hsearch : lengthHistBsearch (hs.map .fin) (.fin l1) equal < hs.length - 1) {i : ℕ} {pos : ℚ}
    (hfirst : firstBin (hs.map .fin) (.fin l1)
      (lengthHistBsearch (hs.map .fin) (.fin l1) equal) = .ok (i, .fin pos))
    {j : ℕ} {area b pb : ℚ}
    (hloop : areaLoop (hs.map .fin) (.fin l2) equal (hs.length - 1 - i)
      ⟨i, .fin 0, .fin l1, .fin ((i + pos) / (hs.length - 1 : ℤ))⟩ =
        .ok ⟨j, .fin area, .fin b, .fin pb⟩) :
    calcLengthHistFrac (hs.map .fin) (.fin l2) equal (.fin l1) =
      .ok (.fin (addTrapezoid area pb ((j + endPosition hs l2 j) / (hs.length - 1 : ℤ)) (l2 - b) /
        (l2 - l1))) := by
  have hbins : ((hs.length - 1 : ℤ) : ℚ) ≠ 0 := Int.cast_ne_zero.mpr (by omega)
  have hwidth : l2 - l1 ≠ 0 := sub_ne_zero.mpr hlt.ne'
  unfold calcLengthHistFrac
  simp only [FloatQ.fin_le_fin, decide_eq_true hlt.le, Bool.not_true, Bool.false_eq_true,
    ↓reduceIte, FloatQ.fin_lt_fin, decide_eq_false (not_lt.mpr hl2), FloatQ.isInf_fin,
    Bool.false_and, List.length_map, not_le.mpr hsearch, hfirst, bind, Except.bind,
    FloatQ.fin_add_fin, divide_fin hbins, FloatQ.fin_isEq_fin, decide_eq_false hlt.ne', hloop,
    lastPosition_eq, AreaState.add_fin, FloatQ.fin_sub_fin, divide_fin hwidth]

/-- The walk starts in the bin of `length1`, or in the first one if that is not before it. -/
inductive Start (hs : List ℚ) (l1 : ℚ) (equal : Bool) : ℕ → ℚ → Prop
  | inside {i : ℕ} (hreached : Reached equal (hs.getD i 0) l1) :
      Start hs l1 equal i (lenPosition l1 (hs.getD i 0) (hs.getD (i + 1) 0))
  | before (hnot : ¬ Reached equal (hs.getD 0 0) l1) : Start hs l1 equal 0 0

theorem firstBin_start (hsorted : hs.Pairwise (· ≤ ·)) (hlen : 2 ≤ hs.length)
    (hsearch : lengthHistBsearch (hs.map .fin) (.fin l1) equal < hs.length - 1) :
    ∃ i pos, firstBin (hs.map .fin) (.fin l1) (lengthHistBsearch (hs.map .fin) (.fin l1) equal) =
        .ok (i, .fin pos) ∧
      i + 1 < hs.length ∧ ¬ Reached equal (hs.getD (i + 1) 0) l1 ∧ Start hs l1 equal i pos := by
  have hiff : ∀ k < hs.length, _ := fun k hk => le_lengthHistBsearch_iff hsorted l1 equal hk
  obtain ⟨hlow, -⟩ := lengthHistBsearch_mem hsorted l1 equal
  generalize lengthHistBsearch (hs.map .fin) (.fin l1) equal = r at *
  rcases lt_or_ge r 0 with hneg | hnonneg
  · refine ⟨0, 0, if_pos hneg, by omega, ?_, .before ?_⟩
    · exact (hiff 1 (by omega)).not.mp (by omega)
    · exact (hiff 0 (by omega)).not.mp (by omega)
  · obtain ⟨i, rfl⟩ := Int.eq_ofNat_of_zero_le hnonneg
    have hreached := (hiff i (by omega)).mp le_rfl
    have hnot := (hiff (i + 1) (by omega)).not.mp (by omega)
    refine ⟨i, _, ?_, by omega, hnot, .inside hreached⟩
    rw [firstBin, if_neg (not_lt.mpr hnonneg), Int.toNat_natCast, getD_map_fin, getD_map_fin,
      getLenPosition_fin (hreached.lt_of_not hnot).ne]
    rfl

/-- The position of `length1` is a fraction of its bin. -/
theorem Start.mem {i : ℕ} {pos : ℚ} (h : Start hs l1 equal i pos)
    (hnot : ¬ Reached equal (hs.getD (i + 1) 0) l1) : 0 ≤ pos ∧ pos ≤ 1 := by
  cases h with
  | inside hreached =>
    have hlt := hreached.lt_of_not hnot
    exact ⟨lenPosition_nonneg hlt hreached.le, lenPosition_le_one hlt (le_of_not_reached hnot)⟩
  | before hnot => exact ⟨le_rfl, zero_le_one⟩

/-- What the loop keeps: the height is a fraction, the area is at most as wide as what has
been walked, and the bin where the walk stands begins before `length2` unless there has been
no height yet. -/
structure WalkInv (hs : List ℚ) (l1 l2 : ℚ) (i : ℕ) (area b pb : ℚ) : Prop where
  height : 0 ≤ pb ∧ pb ≤ 1
  areaMem : 0 ≤ area ∧ area ≤ b - l1
  le_end : b ≤ l2
  le_next : i + 1 < hs.length → b ≤ hs.getD (i + 1) 0
  begun : hs.getD i 0 ≤ l2 ∨ pb = 0

theorem bins_pos (hlen : 2 ≤ hs.length) : (0 : ℚ) < (hs.length - 1 : ℤ) :=
  Int.cast_pos.mpr (by omega)

theorem height_nonneg (hlen : 2 ≤ hs.length) (i : ℕ) {p : ℚ} (hp : 0 ≤ p) :
    0 ≤ (i + p) / (hs.length - 1 : ℤ) :=
  div_nonneg (add_nonneg (Nat.cast_nonneg i) hp) (bins_pos hlen).le

/-- A height is at most one; behind the last bin there are no positions. -/
theorem height_le_one (hlen : 2 ≤ hs.length) {i : ℕ} (hi : i < hs.length) {p : ℚ} (hp : p ≤ 1)
    (hlast : hs.length ≤ i + 1 → p = 0) : (i + p) / (hs.length - 1 : ℤ) ≤ 1 := by
  rw [div_le_one (bins_pos hlen)]
  rcases lt_or_ge (i + 1) hs.length with hlt | hge
  · have hle : ((i + 1 : ℤ) : ℚ) ≤ (hs.length - 1 : ℤ) := Int.cast_le.mpr (by omega)
    push_cast at hle ⊢
    linarith
  · have hle : ((i : ℤ) : ℚ) ≤ (hs.length - 1 : ℤ) := Int.cast_le.mpr (by omega)
    rw [hlast hge, add_zero]
    exact_mod_cast hle

theorem WalkInv.round (hsorted : hs.Pairwise (· ≤ ·)) (hlen : 2 ≤ hs.length) {i : ℕ}
    {area b pb : ℚ}
    (hi : i + 1 < hs.length) (hreached : Reached equal (hs.getD (i + 1) 0) l2)
    (h : WalkInv hs l1 l2 i area b pb) :
    WalkInv hs l1 l2 (i + 1)
      (addTrapezoid area pb (i / (hs.length - 1 : ℤ)) (hs.getD (i + 1) 0 - b))
      (hs.getD (i + 1) 0) (i / (hs.length - 1 : ℤ)) := by
  have hheight : 0 ≤ (i : ℚ) / (hs.length - 1 : ℤ) ∧ (i : ℚ) / (hs.length - 1 : ℤ) ≤ 1 :=
    ⟨by simpa using height_nonneg hlen i le_rfl,
      by simpa using height_le_one hlen (by omega : i < hs.length) zero_le_one fun _ => rfl⟩
  have harea := addTrapezoid_mem h.areaMem h.height hheight.2 (Or.inl hheight.1)
    (sub_nonneg.mpr (h.le_next hi))
  exact ⟨hheight, ⟨harea.1, by linarith [harea.2]⟩, hreached.le,
    fun hnext => getD_le_getD hsorted (Nat.le_succ _) hnext, Or.inl hreached.le⟩

/-- The position of `length2` is a fraction of the last bin, unless the walk has not come to
the first one. -/
theorem endPosition_mem (hsorted : hs.Pairwise (· ≤ ·)) {j : ℕ}
    (hnot : j + 1 < hs.length → ¬ Reached equal (hs.getD (j + 1) 0) l2) :
    endPosition hs l2 j ≤ 1 ∧ (hs.getD j 0 ≤ l2 → 0 ≤ endPosition hs l2 j) := by
  unfold endPosition
  split_ifs with h
  · exact ⟨zero_le_one, fun _ => le_rfl⟩
  · rw [not_or, not_le] at h
    have hlt := lt_of_le_of_ne (getD_le_getD hsorted (Nat.le_succ j) (by omega)) h.2
    exact ⟨lenPosition_le_one hlt (le_of_not_reached (hnot (by omega))),
      fun hle => lenPosition_nonneg hlt hle⟩

theorem endPosition_of_last {j : ℕ} (hlast : hs.length ≤ j + 1) : endPosition hs l2 j = 0 :=
  if_pos (Or.inl (by omega))

/-- At the end of the walk, the area is at most as wide as the interval. -/
theorem WalkInv.finish (hsorted : hs.Pairwise (· ≤ ·)) (hlen : 2 ≤ hs.length) {j : ℕ}
    {area b pb : ℚ} (h : WalkInv hs l1 l2 j area b pb) (hj : j < hs.length)
    (hnot : j + 1 < hs.length → ¬ Reached equal (hs.getD (j + 1) 0) l2) :
    0 ≤ addTrapezoid area pb ((j + endPosition hs l2 j) / (hs.length - 1 : ℤ)) (l2 - b) ∧
      addTrapezoid area pb ((j + endPosition hs l2 j) / (hs.length - 1 : ℤ)) (l2 - b) ≤
        l2 - l1 := by
  obtain ⟨hle, hnonneg⟩ := endPosition_mem hsorted hnot
  have hend := addTrapezoid_mem h.areaMem h.height (height_le_one hlen hj hle endPosition_of_last)
    (h.begun.imp_left fun hbegun => height_nonneg hlen j (hnonneg hbegun)) (sub_nonneg.mpr h.le_end)
  exact ⟨hend.1, by linarith [hend.2]⟩

/-- An interval of one length. -/
theorem calcLengthHistFrac_self (hlen : 2 ≤ hs.length) (hl1 : 0 ≤ l1)
    (hsearch : lengthHistBsearch (hs.map .fin) (.fin l1) equal < hs.length - 1) {i : ℕ} {pos : ℚ}
    (hfirst : firstBin (hs.map .fin) (.fin l1)
      (lengthHistBsearch (hs.map .fin) (.fin l1) equal) = .ok (i, .fin pos)) :
    calcLengthHistFrac (hs.map .fin) (.fin l1) equal (.fin l1) =
      .ok (.fin ((i + pos) / (hs.length - 1 : ℤ))) := by
  unfold calcLengthHistFrac
  simp only [FloatQ.fin_le_fin, le_refl, decide_true, Bool.not_true, Bool.false_eq_true, ↓reduceIte,
    FloatQ.fin_lt_fin, decide_eq_false (not_lt.mpr hl1), FloatQ.isInf_fin, Bool.false_and,
    List.length_map, ge_iff_le, not_le.mpr hsearch, hfirst, bind, Except.bind, FloatQ.fin_add_fin,
    divide_fin (bins_pos hlen).ne', FloatQ.fin_isEq_fin, pure, Except.pure]

/-- On a histogram of finite lengths in ascending order, the average over an interval is a
fraction, with no division by zero. -/
theorem calcLengthHistFrac_mem (hsorted : hs.Pairwise (· ≤ ·)) (hlen : 2 ≤ hs.length)
    (hle : l1 ≤ l2) (equal : Bool) :
    ∃ q, calcLengthHistFrac (hs.map .fin) (.fin l2) equal (.fin l1) = .ok (.fin q) ∧
      0 ≤ q ∧ q ≤ 1 := by
  rcases lt_or_ge l2 0 with hneg | hl2
  · exact ⟨0, by simp [calcLengthHistFrac, hle, hneg], le_rfl, zero_le_one⟩
  rcases le_or_gt ((hs.length : ℤ) - 1) (lengthHistBsearch (hs.map .fin) (.fin l1) equal) with
    hall | hsearch
  · exact ⟨1, by simp [calcLengthHistFrac, hle, not_lt.mpr hl2, hall], zero_le_one, le_rfl⟩
  obtain ⟨i, pos, hfirst, hi, hnot, hstart⟩ := firstBin_start hsorted hlen hsearch
  have hpos := hstart.mem hnot
  have hheight : 0 ≤ (i + pos) / (hs.length - 1 : ℤ) ∧ (i + pos) / (hs.length - 1 : ℤ) ≤ 1 :=
    ⟨height_nonneg hlen i hpos.1, height_le_one hlen (by omega) hpos.2 (by omega)⟩
  rcases hle.eq_or_lt with rfl | hlt
  · exact ⟨_, calcLengthHistFrac_self hlen hl2 hsearch hfirst, hheight⟩
  · have hinv : WalkInv hs l1 l2 i 0 l1 ((i + pos) / (hs.length - 1 : ℤ)) := by
      refine ⟨hheight, ⟨le_rfl, (sub_self l1).ge⟩, hle, fun _ => le_of_not_reached hnot, ?_⟩
      cases hstart with
      | inside hreached => exact Or.inl (hreached.le.trans hle)
      | before _ => exact Or.inr (by simp)
    obtain ⟨j, area, b, pb, hloop, hj, hend, hinv⟩ := areaLoop_inv hlen
      (fun _ _ _ _ hi hreached h => h.round hsorted hlen hi hreached) (hs.length - 1 - i) (by omega)
      hinv
    have hwidth : 0 < l2 - l1 := sub_pos.mpr hlt
    obtain ⟨hnonneg, hbound⟩ := hinv.finish hsorted hlen hj hend
    exact ⟨_, calcLengthHistFrac_of_loop hlen hl2 hlt hsearch hfirst hloop,
      div_nonneg hnonneg hwidth.le, (div_le_one hwidth).mpr hbound⟩

end Walk

end PgRange.Selectivity
