import PgRange.Selectivity.HistOperators
import PgRange.Selectivity.LengthHist

/-!
# Estimates of containment

`calc_hist_selectivity_contained` and `calc_hist_selectivity_contains` walk the bins of lower
bounds downwards from the constant. For each bin they ask what fraction of the lengths lies
between the distance at the bin behind and the distance at this one, and add up the answers.

The distances grow along the walk, because the lower bounds are sorted. So every question has
its two lengths in order, each answer is a fraction, and the bins add up to at most one.

## Main results

* `calcHistSelectivity_containment_mem` — both estimates are probabilities
-/

set_option autoImplicit false

namespace PgRange.Selectivity

open Math

/-! ### Integer lower bounds -/

/-- The inclusive lower bound at a value. -/
def lowerAt (v : ℤ) : RangeBound ℤ := ⟨v, false, true, true⟩

theorem getD_map_lowerAt {vs : List ℤ} {k : ℕ} (hk : k < vs.length) :
    (vs.map lowerAt).getD k default = lowerAt (vs.getD k 0) := by
  rw [List.getD_eq_getElem _ _ (by simpa using hk), List.getD_eq_getElem _ _ hk]
  exact List.getElem_map _

/-- The values of the lower bounds of a histogram. -/
def lowerVals (hist : List (RangeType ℤ)) : List ℤ :=
  hist.map fun range => (rangeDeserialize range).lower.val

namespace IntSubtype

variable {typcache : TypeCacheEntry ℤ} (h : IntSubtype typcache)

include h

theorem cmp_lowerAt (v w : ℤ) :
    rangeCmpBounds typcache.cmp (lowerAt v) (lowerAt w) = compareInt v w := by
  rw [h.cmp_eq]
  simp only [rangeCmpBounds, lowerAt, btintcmp, Bool.and_self, Bool.false_eq_true, ↓reduceIte]
  cases compareInt v w <;> rfl

/-- The finite lower bound of an integer range is inclusive. -/
theorem lower_eq_lowerAt {range : RangeType ℤ} (hvalue : typcache.IsValue range)
    (hne : range.flags.empty = false) (hfin : range.flags.lbInf = false) :
    (rangeDeserialize range).lower = lowerAt (rangeDeserialize range).lower.val := by
  have hinc := (hvalue.canonical h.canonical hne).1 hfin
  calc (rangeDeserialize range).lower
      = ⟨(rangeDeserialize range).lower.val, range.flags.lbInf, range.flags.lbInc, true⟩ := rfl
    _ = lowerAt (rangeDeserialize range).lower.val := by rw [hfin, hinc, lowerAt]

theorem lowerBounds_eq {hist : List (RangeType ℤ)}
    (hvalues : ∀ range ∈ hist, typcache.IsValue range)
    (hne : ∀ range ∈ hist, range.flags.empty = false)
    (hfin : ∀ range ∈ hist, range.flags.lbInf = false) :
    lowerBounds hist = (lowerVals hist).map lowerAt := by
  rw [lowerVals, List.map_map]
  refine List.map_congr_left fun range hrange => ?_
  exact h.lower_eq_lowerAt (hvalues range hrange) (hne range hrange) (hfin range hrange)

/-- The distance of two finite bounds in order is the difference of their values. -/
theorem getDistance_eq {b1 b2 : RangeBound ℤ} (h1 : b1.infinite = false)
    (h2 : b2.infinite = false) (hle : b1.val ≤ b2.val) :
    getDistance typcache b1 b2 = .fin ((b2.val : ℚ) - b1.val) := by
  have hnonneg : ¬ (b2.val : ℚ) - b1.val < 0 := not_lt.mpr (sub_nonneg.mpr (Int.cast_le.mpr hle))
  simp [getDistance, h1, h2, h.subdiff_eq, hnonneg]

theorem histSorted_map {vs : List ℤ} (hvs : vs.Pairwise (· ≤ ·)) :
    HistSorted typcache.cmp (vs.map lowerAt) := by
  refine List.pairwise_map.mpr (hvs.imp fun hle => ?_)
  rw [h.cmp_lowerAt]
  exact compareInt_isLE_iff.mpr hle

/-- A bound below or at another value is found there. -/
theorem le_of_le_rboundBsearch {vs : List ℤ} (hsorted : HistSorted typcache.cmp (vs.map lowerAt))
    {v : ℤ} (equal : Bool) {k : ℕ} (hk : k < vs.length)
    (hle : (k : ℤ) ≤ rboundBsearch typcache (lowerAt v) (vs.map lowerAt) equal) :
    vs.getD k 0 ≤ v := by
  have := h.transCmp
  have hcmp := hsorted.isLE_of_le (by simpa using hk) hle
  rw [getD_map_lowerAt hk, h.cmp_lowerAt] at hcmp
  exact compareInt_isLE_iff.mp hcmp

end IntSubtype

/-! ### What a bin adds -/

/-- The part of a bin, times the fraction of the lengths, over the number of bins. -/
theorem divide_share {f w : ℚ} {n : ℤ} (hn : 0 < n) (hf : 0 ≤ f ∧ f ≤ 1) (hw : 0 ≤ w ∧ w ≤ 1) :
    ∃ share, divide (.fin f * .fin w) (.fin n) = .ok (.fin share) ∧ 0 ≤ share ∧
      share ≤ 1 / n := by
  have hpos : (0 : ℚ) < n := Int.cast_pos.mpr hn
  refine ⟨f * w / n, divide_fin hpos.ne', div_nonneg (mul_nonneg hf.1 hw.1) hpos.le, ?_⟩
  exact div_le_div_of_nonneg_right (mul_le_one₀ hf.2 hw.1 hw.2) hpos.le

section Loops

variable {typcache : TypeCacheEntry ℤ} (h : IntSubtype typcache) {vs : List ℤ} {hs : List ℚ}
  {a b : ℤ}

/-- The distance of the last bin is no greater than those of the bins to come. -/
structure DistInv (vs : List ℤ) (b : ℤ) (i : ℕ) (prev : ℚ) : Prop where
  nonneg : 0 ≤ prev
  le : ∀ k < i, prev ≤ b - vs.getD k 0

theorem DistInv.val_le {i : ℕ} {prev : ℚ} (hinv : DistInv vs b (i + 1) prev) :
    vs.getD i 0 ≤ b := by
  have hle := hinv.nonneg.trans (hinv.le i i.lt_succ_self)
  exact Int.cast_le.mp (sub_nonneg.mp hle)

/-- The next distance is that of the next bin. -/
theorem DistInv.next (hvs : vs.Pairwise (· ≤ ·)) {i : ℕ} (hi : i < vs.length) {prev : ℚ}
    (hinv : DistInv vs b (i + 1) prev) : DistInv vs b i (b - vs.getD i 0) := by
  refine ⟨hinv.nonneg.trans (hinv.le i i.lt_succ_self), fun k hk => ?_⟩
  have hle : vs.getD k 0 ≤ vs.getD i 0 := by
    rw [List.getD_eq_getElem _ _ (hk.trans hi), List.getD_eq_getElem _ _ hi]
    exact List.pairwise_iff_getElem.mp hvs k i _ _ hk
  exact sub_le_sub_left (Int.cast_le.mpr hle) _

variable (hvs : vs.Pairwise (· ≤ ·)) (hlen : 2 ≤ vs.length) (hsorted : hs.Pairwise (· ≤ ·))
  (hslen : 2 ≤ hs.length)

include h hvs hlen hsorted hslen

omit hvs in
/-- The bin that holds the lower bound of the constant is the last one, and less of it counts. -/
theorem containedLoop_final {i : ℕ} (hi : i < vs.length) {prev w s : ℚ} (hprev : 0 ≤ prev)
    (hab : prev ≤ b - a) (hw : 0 ≤ w ∧ w ≤ 1) (hfinal : compareInt (vs.getD i 0) a = .lt) :
    ∃ share, containedLoop typcache (lowerAt a) (lowerAt b) (vs.map lowerAt) (hs.map .fin) (i + 1)
        ⟨.fin prev, .fin w, .fin s⟩ = .ok (.fin (s + share)) ∧
      0 ≤ share ∧ share ≤ 1 / (vs.length - 1 : ℤ) := by
  have hle : a ≤ b := Int.cast_le.mp (sub_nonneg.mp (hprev.trans hab))
  obtain ⟨p, hp, hp0, hp1⟩ : ∃ p, getPosition typcache (lowerAt a) (lowerAt (vs.getD i 0))
      ((vs.map lowerAt).getD (i + 1) default) = .ok (.fin p) ∧ 0 ≤ p ∧ p ≤ 1 :=
    ⟨_, getPosition_eq typcache _ _ _, binPosition_mem typcache _ _ _⟩
  obtain ⟨w', hw', hw'mem⟩ : ∃ w', (if (FloatQ.fin w - FloatQ.fin p).lt (.fin 0) then FloatQ.fin 0
      else FloatQ.fin w - FloatQ.fin p) = .fin w' ∧ 0 ≤ w' ∧ w' ≤ 1 := by
    by_cases hneg : w - p < 0
    · exact ⟨0, by simp [hneg], le_rfl, zero_le_one⟩
    · exact ⟨w - p, by simp [hneg], not_lt.mp hneg, by linarith⟩
  obtain ⟨f, hf, hfmem⟩ := calcLengthHistFrac_mem hsorted hslen hab true
  obtain ⟨share, hshare, hmem⟩ := divide_share (n := vs.length - 1) (by omega) hfmem hw'mem
  refine ⟨share, ?_, hmem⟩
  rw [containedLoop, List.length_map, getD_map_lowerAt hi, h.cmp_lowerAt, if_pos hfinal, hp,
    h.getDistance_eq rfl rfl hle]
  simp only [bind, Except.bind, hw']
  change (calcLengthHistFrac (hs.map .fin) (.fin ((b : ℚ) - a)) true (.fin prev)).bind _ = _
  rw [hf]
  simp only [Except.bind, hshare, pure, Except.pure, FloatQ.fin_add_fin]

theorem containedLoop_mem {i : ℕ} (hi : i ≤ vs.length) {prev w s : ℚ}
    (hinv : DistInv vs b i prev) (hab : prev ≤ b - a) (hw : 0 ≤ w ∧ w ≤ 1) :
    ∃ q, containedLoop typcache (lowerAt a) (lowerAt b) (vs.map lowerAt) (hs.map .fin) i
        ⟨.fin prev, .fin w, .fin s⟩ = .ok (.fin q) ∧
      s ≤ q ∧ q ≤ s + i * (1 / (vs.length - 1 : ℤ)) := by
  have hbins : 0 < (vs.length - 1 : ℤ) := by omega
  -- along the walk, from one bin to the bin before it
  induction i generalizing prev w s with
  | zero => exact ⟨s, rfl, le_rfl, by simp⟩
  | succ i ih =>
    by_cases hfinal : compareInt (vs.getD i 0) a = .lt
    · obtain ⟨share, hloop, hshare0, hshare1⟩ :=
        containedLoop_final h hlen hsorted hslen (s := s) hi hinv.nonneg hab hw hfinal
      refine ⟨s + share, hloop, le_add_of_nonneg_right hshare0, ?_⟩
      have hone : (0 : ℚ) ≤ 1 / (vs.length - 1 : ℤ) := hshare0.trans hshare1
      rw [Nat.cast_succ, add_mul, one_mul]
      linarith [mul_nonneg (Nat.cast_nonneg (α := ℚ) i) hone]
    · have hai : a ≤ vs.getD i 0 := not_lt.mp (compareInt_lt_iff.not.mp hfinal)
      obtain ⟨f, hf, hfmem⟩ := calcLengthHistFrac_mem hsorted hslen
        (hinv.le i i.lt_succ_self) true
      obtain ⟨share, hshare, hshare0, hshare1⟩ := divide_share hbins hfmem hw
      obtain ⟨q, hq, hq0, hq1⟩ := ih (s := s + share) (by omega) (hinv.next hvs hi)
        (sub_le_sub_left (Int.cast_le.mpr hai) _) ⟨zero_le_one, le_rfl⟩
      refine ⟨q, ?_, (le_add_of_nonneg_right hshare0).trans hq0, ?_⟩
      · rw [containedLoop, List.length_map, getD_map_lowerAt hi, h.cmp_lowerAt, if_neg hfinal,
          h.getDistance_eq rfl rfl hinv.val_le]
        change (calcLengthHistFrac (hs.map .fin) (.fin ((b : ℚ) - vs.getD i 0)) true
          (.fin prev)).bind _ = _
        rw [hf]
        simp only [Except.bind, bind, hshare, FloatQ.fin_add_fin]
        exact hq
      · rw [Nat.cast_succ, add_mul, one_mul]
        linarith

theorem containsLoop_mem {upper : RangeBound ℤ} (hupper : upper.infinite = false)
    (hval : upper.val = b) {i : ℕ} (hi : i ≤ vs.length) {prev w s : ℚ}
    (hinv : DistInv vs b i prev) (hw : 0 ≤ w ∧ w ≤ 1) :
    ∃ q, containsLoop typcache upper (vs.map lowerAt) (hs.map .fin) i
        ⟨.fin prev, .fin w, .fin s⟩ = .ok (.fin q) ∧
      s ≤ q ∧ q ≤ s + i * (1 / (vs.length - 1 : ℤ)) := by
  have hbins : 0 < (vs.length - 1 : ℤ) := by omega
  induction i generalizing prev w s with
  | zero => exact ⟨s, rfl, le_rfl, by simp⟩
  | succ i ih =>
    obtain ⟨f, hf, hf0, hf1⟩ := calcLengthHistFrac_mem hsorted hslen
      (hinv.le i i.lt_succ_self) false
    obtain ⟨share, hshare, hshare0, hshare1⟩ := divide_share (f := 1 - f) hbins
      ⟨sub_nonneg.mpr hf1, sub_le_self 1 hf0⟩ hw
    obtain ⟨q, hq, hq0, hq1⟩ := ih (s := s + share) (by omega) (hinv.next hvs hi)
      ⟨zero_le_one, le_rfl⟩
    refine ⟨q, ?_, (le_add_of_nonneg_right hshare0).trans hq0, ?_⟩
    · subst hval
      rw [containsLoop, List.length_map, getD_map_lowerAt hi,
        h.getDistance_eq rfl hupper hinv.val_le]
      change (calcLengthHistFrac (hs.map .fin) (.fin ((upper.val : ℚ) - vs.getD i 0)) false
        (.fin prev)).bind _ = _
      rw [hf]
      simp only [Except.bind, bind, FloatQ.fin_sub_fin, hshare, FloatQ.fin_add_fin]
      exact hq
    · rw [Nat.cast_succ, add_mul, one_mul]
      linarith

end Loops

/-! ### The two estimates -/

section Estimates

variable {typcache : TypeCacheEntry ℤ} (h : IntSubtype typcache) {vs : List ℤ} {hs : List ℚ}
  {a b : ℤ}

/-- A start bin below the last bound leaves at most the number of bins. -/
theorem bins_le_one {n i : ℕ} (hn : 2 ≤ n) (hi : i ≤ n - 1) :
    (0 : ℚ) + i * (1 / (n - 1 : ℤ)) ≤ 1 := by
  have hpos : (0 : ℚ) < (n - 1 : ℤ) := Int.cast_pos.mpr (by omega)
  rw [zero_add, mul_one_div, div_le_one hpos, ← Int.cast_natCast]
  exact Int.cast_le.mpr (by omega)

include h

/-- The bin that the walk starts from, and that all bounds up to it lie at or below the
value. -/
theorem IntSubtype.exists_startBin (hvs : vs.Pairwise (· ≤ ·)) (hlen : 2 ≤ vs.length) (v : ℤ)
    (equal : Bool) (hnonneg : ¬ rboundBsearch typcache (lowerAt v) (vs.map lowerAt) equal < 0) :
    ∃ i, (min (rboundBsearch typcache (lowerAt v) (vs.map lowerAt) equal)
        ((vs.map lowerAt).length - 2)).toNat = i ∧
      i + 1 ≤ vs.length - 1 ∧ ∀ k < i + 1, vs.getD k 0 ≤ v := by
  have := h.transCmp
  have hsorted := h.histSorted_map hvs
  rw [List.length_map]
  refine ⟨_, rfl, by omega, fun k hk => ?_⟩
  exact h.le_of_le_rboundBsearch hsorted equal (by omega) (by omega)

theorem calcHistSelectivityContained_mem (hvs : vs.Pairwise (· ≤ ·)) (hlen : 2 ≤ vs.length)
    (hsorted : hs.Pairwise (· ≤ ·)) (hslen : 2 ≤ hs.length) (hab : a ≤ b)
    {upper : RangeBound ℤ}
    (hupper : { upper with inclusive := !upper.inclusive, lower := true } = lowerAt b) :
    ∃ q, calcHistSelectivityContained typcache (lowerAt a) upper (vs.map lowerAt) (hs.map .fin) =
        .ok (.fin q) ∧ 0 ≤ q ∧ q ≤ 1 := by
  unfold calcHistSelectivityContained
  dsimp only
  rw [hupper]
  by_cases hneg : rboundBsearch typcache (lowerAt b) (vs.map lowerAt) false < 0
  · exact ⟨0, by rw [if_pos hneg], le_rfl, zero_le_one⟩
  · obtain ⟨i, hi, hilen, hbelow⟩ := h.exists_startBin hvs hlen b false hneg
    have hinv : DistInv vs b (i + 1) 0 :=
      ⟨le_rfl, fun k hk => sub_nonneg.mpr (Int.cast_le.mpr (hbelow k hk))⟩
    obtain ⟨q, hq, hq0, hq1⟩ := containedLoop_mem h hvs hlen hsorted hslen (by omega) hinv
      (sub_nonneg.mpr (Int.cast_le.mpr hab)) (binPosition_mem typcache (lowerAt b)
        ((vs.map lowerAt).getD i default) ((vs.map lowerAt).getD (i + 1) default)) (s := 0)
    refine ⟨q, ?_, hq0, hq1.trans (bins_le_one hlen hilen)⟩
    rw [if_neg hneg, hi, getPosition_eq]
    exact hq

theorem calcHistSelectivityContains_mem (hvs : vs.Pairwise (· ≤ ·)) (hlen : 2 ≤ vs.length)
    (hsorted : hs.Pairwise (· ≤ ·)) (hslen : 2 ≤ hs.length) {upper : RangeBound ℤ}
    (hupper : upper.infinite = false) (hab : a ≤ upper.val) :
    ∃ q, calcHistSelectivityContains typcache (lowerAt a) upper (vs.map lowerAt) (hs.map .fin) =
        .ok (.fin q) ∧ 0 ≤ q ∧ q ≤ 1 := by
  unfold calcHistSelectivityContains
  dsimp only
  by_cases hneg : rboundBsearch typcache (lowerAt a) (vs.map lowerAt) true < 0
  · exact ⟨0, by rw [if_pos hneg], le_rfl, zero_le_one⟩
  · obtain ⟨i, hi, hilen, hbelow⟩ := h.exists_startBin hvs hlen a true hneg
    -- the bins start at or before the constant, and so at least as far from its upper bound
    have hinv : DistInv vs upper.val (i + 1) (upper.val - a) :=
      ⟨sub_nonneg.mpr (Int.cast_le.mpr hab),
        fun k hk => sub_le_sub_left (Int.cast_le.mpr (hbelow k hk)) _⟩
    obtain ⟨q, hq, hq0, hq1⟩ := containsLoop_mem h hvs hlen hsorted hslen hupper rfl (by omega)
      hinv (binPosition_mem typcache (lowerAt a) ((vs.map lowerAt).getD i default)
        ((vs.map lowerAt).getD (i + 1) default)) (s := 0)
    refine ⟨q, ?_, hq0, hq1.trans (bins_le_one hlen hilen)⟩
    rw [if_neg hneg, hi, getPosition_eq, h.getDistance_eq rfl hupper hab]
    exact hq

/-- For a sorted histogram of integer ranges with finite lower bounds, a sorted histogram of
lengths and a finite constant, both estimates of containment are probabilities. No assertion
fails on the way and nothing is divided by zero, for either would be a fault in place of the
result. -/
theorem calcHistSelectivity_containment_mem {hist : List (RangeType ℤ)} (hlen : 2 ≤ hist.length)
    (hvalues : ∀ range ∈ hist, typcache.IsValue range)
    (hne : ∀ range ∈ hist, range.flags.empty = false)
    (hfin : ∀ range ∈ hist, range.flags.lbInf = false)
    (hlowers : HistSorted typcache.cmp (lowerBounds hist)) (hslen : 2 ≤ hs.length)
    (hsorted : hs.Pairwise (· ≤ ·)) {constval : RangeType ℤ}
    (hconst : typcache.IsValue constval) (hconstNe : constval.flags.empty = false)
    (hlow : constval.flags.lbInf = false) (hupp : constval.flags.ubInf = false) :
    (∃ q, calcHistSelectivityContained typcache (rangeDeserialize constval).lower
        (rangeDeserialize constval).upper (lowerBounds hist) (hs.map .fin) = .ok (.fin q) ∧
      0 ≤ q ∧ q ≤ 1) ∧
    ∃ q, calcHistSelectivityContains typcache (rangeDeserialize constval).lower
        (rangeDeserialize constval).upper (lowerBounds hist) (hs.map .fin) = .ok (.fin q) ∧
      0 ≤ q ∧ q ≤ 1 := by
  have heq := h.lowerBounds_eq hvalues hne hfin
  have hlenV : 2 ≤ (lowerVals hist).length := by rwa [lowerVals, List.length_map]
  have hvs : (lowerVals hist).Pairwise (· ≤ ·) := by
    rw [heq] at hlowers
    refine (List.pairwise_map.mp hlowers).imp fun hle => ?_
    rw [h.cmp_lowerAt] at hle
    exact compareInt_isLE_iff.mp hle
  have hab := (h.lower_lt_upper hconst hconstNe hlow hupp).le
  have hexc := (hconst.canonical h.canonical hconstNe).2 hupp
  rw [heq, h.lower_eq_lowerAt hconst hconstNe hlow]
  refine ⟨calcHistSelectivityContained_mem h hvs hlenV hsorted hslen hab ?_,
    calcHistSelectivityContains_mem h hvs hlenV hsorted hslen hupp hab⟩
  simp only [rangeDeserialize_upper_infinite, rangeDeserialize_upper_inclusive, hupp, hexc]
  rfl

end Estimates

/-- The ranges `[0,5)` and `[3,20)`, lengths from `5` to `17` and the constant `[2,10)`. -/
theorem calcHistSelectivity_containment_mem_two :
    (∃ q, calcHistSelectivityContained int4range
        (rangeDeserialize ⟨{ lbInc := true }, 2, 10⟩).lower
        (rangeDeserialize ⟨{ lbInc := true }, 2, 10⟩).upper
        (lowerBounds [⟨{ lbInc := true }, 0, 5⟩, ⟨{ lbInc := true }, 3, 20⟩])
        ([5, 17].map .fin) = .ok (.fin q) ∧ 0 ≤ q ∧ q ≤ 1) ∧
    ∃ q, calcHistSelectivityContains int4range
        (rangeDeserialize ⟨{ lbInc := true }, 2, 10⟩).lower
        (rangeDeserialize ⟨{ lbInc := true }, 2, 10⟩).upper
        (lowerBounds [⟨{ lbInc := true }, 0, 5⟩, ⟨{ lbInc := true }, 3, 20⟩])
        ([5, 17].map .fin) = .ok (.fin q) ∧ 0 ≤ q ∧ q ≤ 1 :=
  calcHistSelectivity_containment_mem intSubtype_int4range (by decide)
    (List.forall_mem_cons.mpr ⟨int4range_isValue (by decide),
      List.forall_mem_singleton.mpr (int4range_isValue (by decide))⟩)
    (by decide) (by decide) (by decide +kernel) (by decide) (by decide +kernel)
    (int4range_isValue (by decide)) rfl rfl rfl

end PgRange.Selectivity
