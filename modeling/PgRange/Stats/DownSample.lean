import PgRange.Stats.ComputeRangeStats
import Mathlib.Tactic.LinearCombination

/-!
# The loops that fill the histograms

The bounds histogram and the length histogram are filled by two loops that walk over the
sorted values with the same subscripts. To spread `num_hist` subscripts evenly over `n`
values without multiplying, the loops add the quotient of `n - 1` and `num_hist - 1` in each
round and keep its integral part in `pos` and its fractional part, in units of
`1 / (num_hist - 1)`, in `posfrac`.

This file models the loops with their `int` locals. What a round does with its subscript is
a parameter, since only that differs between the two loops. In a reading `A` of `int` the
results of all operations are wrapped; `HistCursor.sums` lists these results before they are
wrapped, so that a round in which none of them changes does not overflow.

## Main definitions

* `HistSteps`, `HistCursor` — the locals before the loop and those that change in it
* `histogramLoop` — the loop, from the computation of `num_hist` on
* `boundsHistogramLoop`, `lengthHistogramLoop` — the two loops of `compute_range_stats`

## Main results

* `histogramLoop_subscripts` — the subscripts are those intended, and nothing overflows
* `boundsHistogramLoop_eq`, `lengthHistogramLoop_eq` — the loops compute the histograms
-/

set_option autoImplicit false

namespace PgRange.Stats

open Math

/-! ### The loops of the code -/

/-- The locals that are computed before a loop. -/
structure HistSteps where
  numHist : ℤ
  delta : ℤ
  deltafrac : ℤ
  deriving DecidableEq, Repr

/-- The locals that change from round to round. -/
structure HistCursor where
  pos : ℤ
  posfrac : ℤ
  deriving DecidableEq, Repr

/-- What is computed before a loop over `nvals` values. -/
def histSteps (A : CInt) (nvals numBins : ℤ) : Except Fault HistSteps :=
  let numHist := if nvals > numBins then A.wrap (numBins + 1) else nvals
  let bins := A.wrap (numHist - 1)
  -- both operators trap on a zero divisor
  if bins = 0 then .error .divisionByZero
  else .ok ⟨numHist, (A.wrap (nvals - 1)).tdiv bins, (A.wrap (nvals - 1)).tmod bins⟩

/-- The end of a round. -/
def HistCursor.next (A : CInt) (s : HistSteps) (c : HistCursor) : HistCursor :=
  let pos := A.wrap (c.pos + s.delta)
  let posfrac := A.wrap (c.posfrac + s.deltafrac)
  if posfrac ≥ A.wrap (s.numHist - 1) then
    -- the fractional part exceeds one, carry to the integral part
    ⟨A.wrap (pos + 1), A.wrap (posfrac - A.wrap (s.numHist - 1))⟩
  else ⟨pos, posfrac⟩

/-- A number of rounds; `emit` is what a round does with its subscript. -/
def downSample {β : Type} (A : CInt) (s : HistSteps) (emit : ℤ → Except Fault β) :
    ℕ → HistCursor → Except Fault (List β)
  | 0, _ => .ok []
  | rounds + 1, c => do
    let entry ← emit c.pos
    let rest ← downSample A s emit rounds (c.next A s)
    return entry :: rest

/-- A histogram loop over `nvals` values. -/
def histogramLoop {β : Type} (A : CInt) (emit : ℤ → Except Fault β) (nvals numBins : ℤ) :
    Except Fault (List β) := do
  let s ← histSteps A nvals numBins
  downSample A s emit s.numHist.toNat ⟨0, 0⟩

section Source

variable {α : Type} [Inhabited α]

/-- One round of the loop for the bounds histogram. -/
def emitBounds (typcache : TypeCacheEntry α) (lowers uppers : List (RangeBound α)) (pos : ℤ) :
    Except Fault ((RangeBound α × RangeBound α) × RangeType α) := do
  let lower ← readEntry lowers pos
  let upper ← readEntry uppers pos
  let value ← rangeSerialize typcache.cmp lower upper false
  return ((lower, upper), value)

/-- The bounds histogram, with the loop of the code. -/
def boundsHistogramLoop (A : CInt) (typcache : TypeCacheEntry α)
    (lowers uppers : List (RangeBound α)) (bins : ℕ) : Except Fault (BoundsHistogram α) := do
  let lowers := sortBy (rangeCmpBounds typcache.cmp) lowers
  let uppers := sortBy (rangeCmpBounds typcache.cmp) uppers
  let entries ← histogramLoop A (emitBounds typcache lowers uppers) lowers.length bins
  return {
    tempLowers := entries.map fun entry => entry.1.1
    tempUppers := entries.map fun entry => entry.1.2
    values := entries.map Prod.snd }

/-- The length histogram, with the loop of the code. -/
def lengthHistogramLoop (A : CInt) (lengths : List FloatQ) (bins : ℕ) :
    Except Fault (List FloatQ) :=
  let lengths := sortBy float8QsortCmp lengths
  histogramLoop A (readEntry lengths) lengths.length bins

end Source

/-! ### The steps -/

/-- The exact step `total / (numHist - 1)`, of at least one, in its two parts. -/
structure HistSteps.Splits (total : ℤ) (s : HistSteps) : Prop where
  bins_pos : 0 < s.numHist - 1
  bins_le : s.numHist - 1 ≤ total
  split : s.delta * (s.numHist - 1) + s.deltafrac = total
  frac_nonneg : 0 ≤ s.deltafrac
  frac_lt : s.deltafrac < s.numHist - 1

theorem HistSteps.Splits.total_nonneg {total : ℤ} {s : HistSteps} (h : s.Splits total) :
    0 ≤ total :=
  h.bins_pos.le.trans h.bins_le

theorem HistSteps.Splits.one_le_delta {total : ℤ} {s : HistSteps} (h : s.Splits total) :
    1 ≤ s.delta := by
  have hlt : 0 * (s.numHist - 1) < s.delta * (s.numHist - 1) := by
    have := h.split
    have := h.bins_le
    have := h.frac_lt
    omega
  exact lt_of_mul_lt_mul_right hlt h.bins_pos.le

/-- With two values and a positive target there is a step. -/
theorem histSteps_eq (A : CInt) {n t : ℕ} (hn : 2 ≤ n) (ht : 1 ≤ t) (hint : A.wrap n = n) :
    ∃ s, histSteps A n t = .ok s ∧ s.numHist = numHist n t ∧ s.Splits (n - 1) := by
  have hwrap : ∀ x : ℤ, 0 ≤ x → x ≤ n → A.wrap x = x := fun x hx0 hx =>
    A.wrap_of_between A.wrap_zero hint hx0 hx
  have hnum : (if (n : ℤ) > t then A.wrap (t + 1) else n) = numHist n t := by
    unfold numHist
    split_ifs with hgt hgt'
    · rw [hwrap _ (by omega) (by omega)]
      rfl
    · omega
    · omega
    · rfl
  have htwo : 2 ≤ numHist n t ∧ numHist n t ≤ n := by
    unfold numHist
    split_ifs <;> omega
  have hbins : A.wrap ((numHist n t : ℤ) - 1) = numHist n t - 1 := hwrap _ (by omega) (by omega)
  have htotal : A.wrap ((n : ℤ) - 1) = n - 1 := hwrap _ (by omega) (by omega)
  refine ⟨⟨numHist n t, ((n : ℤ) - 1).tdiv (numHist n t - 1),
    ((n : ℤ) - 1).tmod (numHist n t - 1)⟩, ?_, rfl, ?_⟩
  · simp only [histSteps, hnum, hbins, htotal]
    rw [if_neg (by omega)]
  · refine ⟨?_, ?_, ?_, ?_, ?_⟩
    · simp only
      omega
    · simp only
      omega
    · simp only
      rw [add_comm, mul_comm]
      exact Int.tmod_add_mul_tdiv _ _
    · exact Int.tmod_nonneg _ (by omega)
    · exact Int.tmod_lt_of_pos _ (by omega)

/-! ### One round -/

/-- The results of the arithmetic of a round, before they are wrapped. -/
def HistCursor.sums (s : HistSteps) (c : HistCursor) : List ℤ :=
  [c.pos + s.delta, c.posfrac + s.deltafrac, s.numHist - 1] ++
    if c.posfrac + s.deltafrac ≥ s.numHist - 1 then
      [c.pos + s.delta + 1, c.posfrac + s.deltafrac - (s.numHist - 1)]
    else []

/-- An exact round with a carry, -/
theorem HistCursor.next_of_carry {s : HistSteps} {c : HistCursor}
    (h : c.posfrac + s.deltafrac ≥ s.numHist - 1) :
    c.next .unbounded s = ⟨c.pos + s.delta + 1, c.posfrac + s.deltafrac - (s.numHist - 1)⟩ :=
  if_pos h

/-- and one without. -/
theorem HistCursor.next_of_not_carry {s : HistSteps} {c : HistCursor}
    (h : ¬ c.posfrac + s.deltafrac ≥ s.numHist - 1) :
    c.next .unbounded s = ⟨c.pos + s.delta, c.posfrac + s.deltafrac⟩ :=
  if_neg h

/-- A round in which nothing overflows is exact. -/
theorem HistCursor.next_eq_of_sums {A : CInt} {s : HistSteps} {c : HistCursor}
    (h : ∀ x ∈ c.sums s, A.wrap x = x) : c.next A s = c.next .unbounded s := by
  have hpos : A.wrap (c.pos + s.delta) = c.pos + s.delta := h _ (by simp [sums])
  have hfrac : A.wrap (c.posfrac + s.deltafrac) = c.posfrac + s.deltafrac :=
    h _ (by simp [sums])
  have hbins : A.wrap (s.numHist - 1) = s.numHist - 1 := h _ (by simp [sums])
  by_cases hcarry : c.posfrac + s.deltafrac ≥ s.numHist - 1
  · rw [next_of_carry hcarry, next, hpos, hfrac, hbins, if_pos hcarry,
      h _ (by simp [sums, hcarry]), h _ (by simp [sums, hcarry])]
  · rw [next_of_not_carry hcarry, next, hpos, hfrac, hbins, if_neg hcarry]

/-- After `i` rounds the two parts together are `i` exact steps. -/
structure HistCursor.Spread (total : ℤ) (s : HistSteps) (i : ℤ) (c : HistCursor) : Prop where
  split : c.pos * (s.numHist - 1) + c.posfrac = i * total
  frac_nonneg : 0 ≤ c.posfrac
  frac_lt : c.posfrac < s.numHist - 1

namespace HistCursor.Spread

variable {total i : ℤ} {s : HistSteps} {c : HistCursor}

theorem start (hs : s.Splits total) : Spread total s 0 ⟨0, 0⟩ := by
  refine ⟨?_, le_rfl, hs.bins_pos⟩
  rw [zero_mul, zero_mul, zero_add]

/-- The step lemma: an exact round makes one more step. -/
theorem next (h : c.Spread total s i) (hs : s.Splits total) :
    (c.next .unbounded s).Spread total s (i + 1) := by
  have hsum : (c.pos + s.delta) * (s.numHist - 1) + (c.posfrac + s.deltafrac) =
      (i + 1) * total := by
    linear_combination h.split + hs.split
  have hc := h.frac_nonneg
  have hc' := h.frac_lt
  have hd := hs.frac_nonneg
  have hd' := hs.frac_lt
  by_cases hcarry : c.posfrac + s.deltafrac ≥ s.numHist - 1
  · rw [next_of_carry hcarry]
    refine ⟨?_, by simp only; omega, by simp only; omega⟩
    simp only
    linear_combination hsum
  · rw [next_of_not_carry hcarry]
    exact ⟨hsum, add_nonneg hc hd, not_le.mp hcarry⟩

theorem pos_eq (h : c.Spread total s i) : c.pos = i * total / (s.numHist - 1) := by
  have hbins : 0 < s.numHist - 1 := lt_of_le_of_lt h.frac_nonneg h.frac_lt
  refine ((Int.ediv_emod_unique hbins).mpr ⟨?_, h.frac_nonneg, h.frac_lt⟩).1.symm
  linear_combination h.split

theorem pos_nonneg (h : c.Spread total s i) (hs : s.Splits total) (hi : 0 ≤ i) : 0 ≤ c.pos := by
  rw [h.pos_eq]
  exact Int.ediv_nonneg (mul_nonneg hi hs.total_nonneg) hs.bins_pos.le

/-- As many rounds as `k` histograms have bins reach at most `k` times the last value. -/
theorem pos_le (h : c.Spread total s i) (hs : s.Splits total) {k : ℤ}
    (hi : i ≤ k * (s.numHist - 1)) : c.pos ≤ k * total := by
  refine le_of_mul_le_mul_right ?_ hs.bins_pos
  calc c.pos * (s.numHist - 1) ≤ i * total := by
        have := h.split
        have := h.frac_nonneg
        omega
    _ ≤ k * (s.numHist - 1) * total := mul_le_mul_of_nonneg_right hi hs.total_nonneg
    _ = k * total * (s.numHist - 1) := by ring

/-- Nothing overflows in a round whose result, and `k` times the last value, can be
represented. -/
theorem sums_wrap (h : c.Spread total s i) (hs : s.Splits total) {A : CInt} {k : ℤ} (hk : 1 ≤ k)
    (hfit : A.wrap (k * total) = k * total) (hi0 : 0 ≤ i) (hi : i + 1 ≤ k * (s.numHist - 1)) :
    ∀ x ∈ c.sums s, A.wrap x = x := by
  have hlimit : total ≤ k * total := le_mul_of_one_le_left hs.total_nonneg hk
  have hpos := h.pos_nonneg hs hi0
  have hdelta := hs.one_le_delta
  -- the carry comes after the sum, so the subscript of the next round bounds both
  have hnext := (h.next hs).pos_le hs hi
  -- the sum of the fractional parts stays below the last value
  have hfrac : c.posfrac + s.deltafrac ≤ total := by
    have hle : s.numHist - 1 ≤ s.delta * (s.numHist - 1) :=
      le_mul_of_one_le_left hs.bins_pos.le hdelta
    have := hs.split
    have := h.frac_lt
    omega
  have hc := h.frac_nonneg
  have hd := hs.frac_nonneg
  have hbins := hs.bins_pos
  have hbins' := hs.bins_le
  have hbound : ∀ x ∈ c.sums s, 0 ≤ x ∧ x ≤ k * total := by
    intro x hx
    by_cases hcarry : c.posfrac + s.deltafrac ≥ s.numHist - 1
    · rw [next_of_carry hcarry] at hnext
      simp only [sums, hcarry, ↓reduceIte, List.cons_append, List.nil_append, List.mem_cons,
        List.not_mem_nil, or_false] at hx hnext
      rcases hx with rfl | rfl | rfl | rfl | rfl <;> constructor <;> omega
    · rw [next_of_not_carry hcarry] at hnext
      simp only [sums, hcarry, ↓reduceIte, List.append_nil, List.mem_cons, List.not_mem_nil,
        or_false] at hx hnext
      rcases hx with rfl | rfl | rfl <;> constructor <;> omega
  intro x hx
  exact A.wrap_of_between A.wrap_zero hfit (hbound x hx).1 (hbound x hx).2

end HistCursor.Spread

/-! ### All rounds -/

/-- The locals at the start of round `i`. -/
def cursorAt (A : CInt) (s : HistSteps) (i : ℕ) : HistCursor :=
  (HistCursor.next A s)^[i] ⟨0, 0⟩

theorem cursorAt_succ (A : CInt) (s : HistSteps) (i : ℕ) :
    cursorAt A s (i + 1) = (cursorAt A s i).next A s :=
  Function.iterate_succ_apply' _ _ _

/-- The run lemma: up to the last subscript every round is exact. -/
theorem spread_cursorAt {A : CInt} {total : ℤ} {s : HistSteps} (hs : s.Splits total)
    (hfit : A.wrap total = total) {i : ℕ} (hi : (i : ℤ) ≤ s.numHist - 1) :
    (cursorAt A s i).Spread total s i := by
  induction i with
  | zero => exact HistCursor.Spread.start hs
  | succ i ih =>
    rw [Nat.cast_succ] at hi ⊢
    have hspread := ih (by omega)
    -- the invariant bounds the sums of the round, and so the round is an exact one
    have hexact := hspread.sums_wrap hs (k := 1) le_rfl (by rwa [one_mul]) (Nat.cast_nonneg i)
      (by rwa [one_mul])
    rw [cursorAt_succ, HistCursor.next_eq_of_sums hexact]
    exact hspread.next hs

/-- The rounds emit what belongs to their subscripts. -/
theorem downSample_eq {β : Type} (A : CInt) (s : HistSteps) (emit : ℤ → Except Fault β)
    (rounds : ℕ) (c : HistCursor) :
    downSample A s emit rounds c =
      (List.range rounds).mapM fun i => emit ((HistCursor.next A s)^[i] c).pos := by
  induction rounds generalizing c with
  | zero => rfl
  | succ rounds ih =>
    rw [downSample, List.range_succ_eq_map, List.mapM_cons, List.mapM_map, ih]
    rfl

theorem histogramLoop_of_steps {β : Type} {A : CInt} {nvals numBins : ℤ} {s : HistSteps}
    (hs : histSteps A nvals numBins = .ok s) (emit : ℤ → Except Fault β) :
    histogramLoop A emit nvals numBins =
      (List.range s.numHist.toNat).mapM fun i => emit (cursorAt A s i).pos := by
  rw [histogramLoop, hs]
  exact downSample_eq A s emit _ _

/-- For every number of values and every target, the loops for both histograms read at the
intended subscripts. Round `i` finds in `pos` the quotient of `i * (n - 1)` by
`num_hist - 1`, rounded down, and in `posfrac` a proper fraction; the first subscript is that
of the first value and the last one that of the last value. No operation overflows on the
way to a subscript that is read. The round of the last subscript computes one more; that does
not overflow either, because `compute_range_stats` has allocated arrays of bounds of 16 bytes
for the values. -/
theorem histogramLoop_subscripts (A : CInt) {n t : ℕ} (hn : 2 ≤ n) (ht : 1 ≤ t)
    (hint : A.wrap n = n) :
    ∃ s, histSteps A n t = .ok s ∧ s.numHist = (min n (t + 1) : ℕ) ∧
      (∀ i : ℕ, i < s.numHist →
        (cursorAt A s i).pos = i * (n - 1) / (s.numHist - 1) ∧
        (0 ≤ (cursorAt A s i).posfrac ∧ (cursorAt A s i).posfrac < s.numHist - 1) ∧
        (0 ≤ (cursorAt A s i).pos ∧ (cursorAt A s i).pos < n)) ∧
      (cursorAt A s 0).pos = 0 ∧ (cursorAt A s (s.numHist.toNat - 1)).pos = n - 1 ∧
      (∀ i : ℕ, i + 1 < s.numHist → ∀ x ∈ (cursorAt A s i).sums s, A.wrap x = x) ∧
      (16 * n ≤ maxAllocSize →
        ∀ i : ℕ, i < s.numHist → ∀ x ∈ (cursorAt A s i).sums s, A.wrap x = x) ∧
      ∀ (β : Type) (emit : ℤ → Except Fault β),
        histogramLoop A emit n t =
          (List.range s.numHist.toNat).mapM fun i => emit (cursorAt A s i).pos := by
  obtain ⟨s, hrun, hnum, hs⟩ := histSteps_eq A hn ht hint
  have hfit : A.wrap ((n : ℤ) - 1) = n - 1 :=
    A.wrap_of_between A.wrap_zero hint (by omega) (by omega)
  have hspread : ∀ i : ℕ, i < s.numHist → (cursorAt A s i).Spread (n - 1) s i := fun i hi =>
    spread_cursorAt hs hfit (by omega)
  have hbins := hs.bins_pos
  refine ⟨s, hrun, by rw [hnum, numHist_eq_min], ?_, rfl, ?_, ?_, ?_, ?_⟩
  · intro i hi
    have h := hspread i hi
    have hle := h.pos_le hs (k := 1) (by omega)
    exact ⟨h.pos_eq, ⟨h.frac_nonneg, h.frac_lt⟩, h.pos_nonneg hs (by omega), by omega⟩
  · have h := hspread (s.numHist.toNat - 1) (by omega)
    have hlast : ((s.numHist.toNat - 1 : ℕ) : ℤ) = s.numHist - 1 := by omega
    rw [h.pos_eq, hlast, Int.mul_ediv_cancel_left _ hbins.ne']
  · intro i hi
    exact (hspread i (by omega)).sums_wrap hs (k := 1) le_rfl (by rwa [one_mul]) (by omega)
      (by omega)
  · intro halloc i hi
    -- the round after the last subscript stays below twice the last value
    unfold maxAllocSize at halloc
    have htwice : A.wrap (2 * ((n : ℤ) - 1)) = 2 * (n - 1) :=
      A.wrap_of_fits ⟨by omega, by omega⟩
    exact (hspread i hi).sums_wrap hs (by omega) htwice (by omega) (by omega)
  · intro β emit
    exact histogramLoop_of_steps hrun emit

/-- Ten values and a target of three give the subscripts 0, 3, 6 and 9. -/
theorem histogramLoop_subscripts_ten :
    CInt.int32.wrap 10 = 10 ∧
      histogramLoop .int32 (readEntry [10, 20, 30, 40, 50, 60, 70, 80, 90, 100]) 10 3 =
        .ok [10, 40, 70, 100] := by
  obtain ⟨s, hs, -, -, -, -, -, -, hloop⟩ := histogramLoop_subscripts .int32
    (by decide : 2 ≤ 10) (by decide : 1 ≤ 3) (by decide)
  obtain rfl : s = ⟨4, 3, 0⟩ := Except.ok.inj (hs.symm.trans (by decide))
  exact ⟨by decide, (hloop ℕ _).trans (by decide)⟩

/-! ### The two histograms -/

/-- The loop reads at the evenly spread positions. -/
theorem histogramLoop_eq {β : Type} (A : CInt) {n t : ℕ} (hn : 2 ≤ n) (ht : 1 ≤ t)
    (hint : A.wrap n = n) (emit : ℤ → Except Fault β) :
    histogramLoop A emit n t =
      (evenPositions n (numHist n t)).mapM fun pos => emit (pos : ℕ) := by
  obtain ⟨s, hrun, hnum, hs⟩ := histSteps_eq A hn ht hint
  have hfit : A.wrap ((n : ℤ) - 1) = n - 1 :=
    A.wrap_of_between A.wrap_zero hint (by omega) (by omega)
  have hbins := hs.bins_pos
  have hcount : s.numHist.toNat = numHist n t := by omega
  rw [histogramLoop_of_steps hrun, evenPositions_eq (by omega), List.mapM_map, hcount]
  refine mapM_congr fun i hi => ?_
  have hi' := List.mem_range.mp hi
  have hpos := (spread_cursorAt hs hfit (i := i) (by omega)).pos_eq
  rw [hpos, Function.comp_apply, hnum]
  congr 1
  push_cast
  rw [Nat.cast_sub (by omega), Nat.cast_sub (by omega)]
  rfl

section Histograms

variable {α : Type} [Inhabited α]

theorem lengthHistogramLoop_eq (A : CInt) {lengths : List FloatQ} {t : ℕ}
    (hn : 2 ≤ lengths.length) (ht : 1 ≤ t) (hint : A.wrap lengths.length = lengths.length) :
    lengthHistogramLoop A lengths t = .ok (lengthHistogram lengths t) := by
  simp only [lengthHistogramLoop, lengthHistogram, length_sortBy]
  rw [histogramLoop_eq A hn ht hint]
  refine mapM_eq_ok fun pos hpos => readEntry_of_lt ?_ _
  rw [length_sortBy]
  exact evenPositions_lt hn (two_le_numHist_of_pos hn ht) hpos

/-- A round on sorted bounds is the serialization of the two bounds at its subscript. -/
theorem emitBounds_eq (typcache : TypeCacheEntry α) {low up : List (RangeBound α)} {pos : ℕ}
    (hlow : pos < low.length) (hup : pos < up.length) :
    emitBounds typcache low up pos =
      (rangeSerialize typcache.cmp (low.getD pos default) (up.getD pos default) false).map
        fun value => ((low.getD pos default, up.getD pos default), value) := by
  rw [emitBounds, readEntry_of_lt hlow default, readEntry_of_lt hup default]
  rfl

theorem boundsHistogramLoop_eq (A : CInt) (typcache : TypeCacheEntry α)
    {lowers uppers : List (RangeBound α)} {t : ℕ} (hn : 2 ≤ lowers.length) (ht : 1 ≤ t)
    (hlength : uppers.length = lowers.length) (hint : A.wrap lowers.length = lowers.length) :
    boundsHistogramLoop A typcache lowers uppers t =
      boundsHistogram typcache lowers uppers t := by
  simp only [boundsHistogramLoop, boundsHistogram, length_sortBy]
  rw [histogramLoop_eq A hn ht hint]
  have hlt : ∀ pos ∈ evenPositions lowers.length (numHist lowers.length t),
      pos < lowers.length := fun pos hpos =>
    evenPositions_lt hn (two_le_numHist_of_pos hn ht) hpos
  generalize evenPositions lowers.length (numHist lowers.length t) = positions at hlt ⊢
  have hemit : ∀ pos ∈ positions, emitBounds typcache
      (sortBy (rangeCmpBounds typcache.cmp) lowers) (sortBy (rangeCmpBounds typcache.cmp) uppers)
      pos = _ := fun pos hpos =>
    emitBounds_eq typcache (by simpa using hlt pos hpos) (by simpa [hlength] using hlt pos hpos)
  rw [mapM_congr hemit, mapM_beside]
  -- the loop fails at the first pair that does not serialize, or not at all
  cases hvalues : positions.mapM fun pos => rangeSerialize typcache.cmp
      ((sortBy (rangeCmpBounds typcache.cmp) lowers).getD pos default)
      ((sortBy (rangeCmpBounds typcache.cmp) uppers).getD pos default) false with
  | error e => rfl
  | ok values =>
    have hcount := length_of_mapM_eq_ok hvalues
    change Except.ok (BoundsHistogram.mk (List.map (Prod.fst ∘ Prod.fst) _)
      (List.map (Prod.snd ∘ Prod.fst) _) (List.map Prod.snd _)) = _
    rw [← List.map_map, ← List.map_map, List.map_fst_zip (by simp [hcount]),
      List.map_snd_zip (by simp [hcount]), List.map_map, List.map_map]
    rfl

end Histograms

theorem lengthHistogramLoop_eq_five :
    lengthHistogramLoop .int32 [.fin 5, .fin 1, .fin 4, .fin 2, .fin 3] 2 =
      .ok (lengthHistogram [.fin 5, .fin 1, .fin 4, .fin 2, .fin 3] 2) :=
  lengthHistogramLoop_eq .int32 (by decide) (by decide) (by decide)

theorem boundsHistogramLoop_eq_three :
    boundsHistogramLoop .int32 int4range
        [⟨4, false, true, true⟩, ⟨1, false, true, true⟩, ⟨2, false, true, true⟩]
        [⟨5, false, false, false⟩, ⟨9, false, false, false⟩, ⟨3, false, false, false⟩] 1 =
      boundsHistogram int4range
        [⟨4, false, true, true⟩, ⟨1, false, true, true⟩, ⟨2, false, true, true⟩]
        [⟨5, false, false, false⟩, ⟨9, false, false, false⟩, ⟨3, false, false, false⟩] 1 :=
  boundsHistogramLoop_eq .int32 int4range (by decide) (by decide) rfl (by decide)

end PgRange.Stats
