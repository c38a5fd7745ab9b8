import PgRange.Stats.CountFrequencies

/-!
# The elements that the sweep reads

`count_frequencies` reads the two bound arrays through pointers, without a check of its
own. Both `while` loops evaluate the bound at the current index before they compare the
index with the number of rows. This file lists every element that is read, interval by
interval, and determines when all of them exist.

## Main results

* `cursors` — how far the two indexes get, interval by interval
* `countReads_inBounds_iff` — when the rows carried over are a stretch of the arrays and
  all elements that are read exist; for bounds that fit an `int` an element behind the last
  one is read exactly if some interval reaches the last lower bound, as it does on every
  grid that is computed without overflow
-/

set_option autoImplicit false

namespace PgRange.Stats

open Math

/-! ### The reads of the source -/

/-- A read of an element of one of the arrays. -/
inductive Access
  | lower (k : ℕ)
  | upper (k : ℕ)
  deriving DecidableEq, Repr

/-- The index of the element. -/
def Access.index : Access → ℕ
  | .lower k => k
  | .upper k => k

section Source

variable (A : CInt) (R : CFloat) (lowers uppers : List (RangeBound Datum)) (rows : ℕ)
  (intervalLength : ℤ)

/-- The reads of `for (k=u; k < l; k++)`. -/
def carriedReads (u l : ℕ) : List Access :=
  (List.Ico u l).flatMap fun k => [.upper k, .lower k]

/-- The reads of the first `while`: in its condition, and in its body if that is reached. -/
def startedReads (sup : ℤ) (s : ℕ × Bucket) : List Access :=
  ((startedLoop A R lowers uppers rows sup).trace rows s).flatMap fun (s, tested) =>
    if tested then
      .lower s.1 ::
        if (startedLoop A R lowers uppers rows sup).cond s then [.upper s.1, .lower s.1] else []
    else []

/-- The reads of the second `while`, all in its condition. -/
def endedReads (sup : ℤ) (u : ℕ) : List Access :=
  ((endedLoop A uppers rows sup).trace rows u).flatMap fun (u, tested) =>
    if tested then [.upper u] else []

/-- The reads of one round of the loop over the intervals. -/
def intervalReads (s : Sweep) : List Access :=
  let sup := A.wrap (s.sup + intervalLength)
  let carried := carriedLoop A R lowers uppers intervalLength sup s.u s.l ⟨sup, [], .fin 0⟩
  carriedReads s.u s.l ++ startedReads A R lowers uppers rows sup (s.l, carried) ++
    endedReads A uppers rows sup s.u

/-- The reads of the loop over the intervals, each round with the locals it starts
from. -/
def sweepReads : ℕ → Sweep → List (Sweep × List Access)
  | 0, _ => []
  | n + 1, s =>
    (s, intervalReads A R lowers uppers rows intervalLength s) ::
      match sweepInterval A R lowers uppers rows intervalLength s with
      | .ok (_, s') => sweepReads n s'
      | .error _ => []

/-- The reads of `count_frequencies`. -/
def countReads (nbOfIntervals min : ℤ) : List (Sweep × List Access) :=
  sweepReads A R lowers uppers rows intervalLength nbOfIntervals.toNat ⟨0, 0, A.wrap (min - 1)⟩

end Source

/-! ### The reads of one interval -/

section Interval

variable {A : CInt} {R : CFloat} {lowers uppers : List (RangeBound Datum)} {rows : ℕ}
  {intervalLength : ℤ}

theorem startedLoop_round {sup : ℤ} {s s' : ℕ × Bucket}
    (h : (startedLoop A R lowers uppers rows sup).Round s s') :
    A.wrap (valueAt lowers s.1) ≤ sup ∧ s.1 < rows ∧ s'.1 = s.1 + 1 := by
  obtain ⟨hcond, hstep, -⟩ := h
  simp only [startedLoop, Bool.and_eq_true, decide_eq_true_eq] at hcond
  obtain rfl := Except.ok.inj hstep
  exact ⟨hcond.1, hcond.2, rfl⟩

theorem endedLoop_round {sup : ℤ} {u u' : ℕ} (h : (endedLoop A uppers rows sup).Round u u') :
    A.wrap (valueAt uppers u) ≤ A.wrap (sup + 1) ∧ u < rows ∧ u' = u + 1 := by
  obtain ⟨hcond, hstep, -⟩ := h
  simp only [endedLoop, Bool.and_eq_true, decide_eq_true_eq] at hcond
  obtain rfl := Except.ok.inj hstep
  exact ⟨hcond.1, hcond.2, rfl⟩

/-- The first `while` passes rows whose lower bound the interval reaches, and stops at
one that it does not reach. -/
theorem startedLoop_passes {sup : ℤ} {l : ℕ} {b : Bucket} {t : ℕ × Bucket} (hl : l ≤ rows)
    (h : (startedLoop A R lowers uppers rows sup).run .outOfFuel rows (l, b) = .ok t) :
    (l ≤ t.1 ∧ t.1 ≤ rows ∧ ∀ k, l ≤ k → k < t.1 → A.wrap (valueAt lowers k) ≤ sup) ∧
      (t.1 < rows → sup < A.wrap (valueAt lowers t.1)) := by
  have hrun := Loop.run_inv (fun t : ℕ × Bucket => l ≤ t.1 ∧ t.1 ≤ rows ∧
    ∀ k, l ≤ k → k < t.1 → A.wrap (valueAt lowers k) ≤ sup) ?_ rows
    ⟨le_rfl, hl, fun k hlk hkl => absurd hlk (not_le.mpr hkl)⟩ h
  · refine ⟨hrun.1, fun hlt => ?_⟩
    have hstop := hrun.2
    simp only [startedLoop, Bool.and_eq_false_iff, decide_eq_false_iff_not, not_le, not_lt]
      at hstop
    rcases hstop with hstop | hstop
    · exact hstop
    · omega
  · rintro s s' ⟨hle, -, hpassed⟩ hround
    obtain ⟨hreach, hlt, heq⟩ := startedLoop_round hround
    refine ⟨by omega, by omega, fun k hlk hk => ?_⟩
    rcases Nat.lt_or_eq_of_le (Nat.le_of_lt_succ (heq ▸ hk)) with hk' | rfl
    · exact hpassed k hlk hk'
    · exact hreach

/-- The second `while` does so with the upper bounds. -/
theorem endedLoop_passes {sup : ℤ} {u t : ℕ} (hu : u ≤ rows)
    (h : (endedLoop A uppers rows sup).run .outOfFuel rows u = .ok t) :
    (u ≤ t ∧ t ≤ rows ∧ ∀ k, u ≤ k → k < t → A.wrap (valueAt uppers k) ≤ A.wrap (sup + 1)) ∧
      (t < rows → A.wrap (sup + 1) < A.wrap (valueAt uppers t)) := by
  have hrun := Loop.run_inv (fun t => u ≤ t ∧ t ≤ rows ∧
    ∀ k, u ≤ k → k < t → A.wrap (valueAt uppers k) ≤ A.wrap (sup + 1)) ?_ rows
    ⟨le_rfl, hu, fun k huk hku => absurd huk (not_le.mpr hku)⟩ h
  · refine ⟨hrun.1, fun hlt => ?_⟩
    have hstop := hrun.2
    simp only [endedLoop, Bool.and_eq_false_iff, decide_eq_false_iff_not, not_le, not_lt] at hstop
    rcases hstop with hstop | hstop
    · exact hstop
    · omega
  · rintro s s' ⟨hle, -, hpassed⟩ hround
    obtain ⟨hreach, hlt, rfl⟩ := endedLoop_round hround
    refine ⟨by omega, by omega, fun k huk hk => ?_⟩
    rcases Nat.lt_or_eq_of_le (Nat.le_of_lt_succ hk) with hk' | rfl
    · exact hpassed k huk hk'
    · exact hreach

/-- The first `while` reads elements that exist exactly if it stops before the end. -/
theorem startedReads_inBounds_iff {sup : ℤ} {s t : ℕ × Bucket}
    (h : (startedLoop A R lowers uppers rows sup).run .outOfFuel rows s = .ok t) :
    (∀ a ∈ startedReads A R lowers uppers rows sup s, a.index < rows) ↔ t.1 < rows := by
  constructor
  · intro hall
    refine hall (.lower t.1) (List.mem_flatMap.mpr ⟨(t, true), Loop.mem_trace_of_run rows h, ?_⟩)
    simp
  · intro hlt a ha
    obtain ⟨⟨r, tested⟩, hr, ha⟩ := List.mem_flatMap.mp ha
    cases tested with
    | false => simp at ha
    | true =>
      have hle : r.1 ≤ t.1 := by
        refine Loop.le_of_mem_trace Prod.fst (fun s s' hround => ?_) rows h hr
        rw [(startedLoop_round hround).2.2]
        exact Nat.le_succ _
      have hindex : a.index = r.1 := by
        simp only [↓reduceIte, List.mem_cons] at ha
        rcases ha with rfl | ha
        · rfl
        · split_ifs at ha
          · rcases List.mem_pair.mp ha with rfl | rfl <;> rfl
          · simp at ha
      omega

/-- The second `while` reads elements that exist exactly if it stops before the end. -/
theorem endedReads_inBounds_iff {sup : ℤ} {u t : ℕ}
    (h : (endedLoop A uppers rows sup).run .outOfFuel rows u = .ok t) :
    (∀ a ∈ endedReads A uppers rows sup u, a.index < rows) ↔ t < rows := by
  constructor
  · intro hall
    refine hall (.upper t) (List.mem_flatMap.mpr ⟨(t, true), Loop.mem_trace_of_run rows h, ?_⟩)
    simp
  · intro hlt a ha
    obtain ⟨⟨r, tested⟩, hr, ha⟩ := List.mem_flatMap.mp ha
    cases tested with
    | false => simp at ha
    | true =>
      have hle : r ≤ t := by
        refine Loop.le_of_mem_trace id (fun s s' hround => ?_) rows h hr
        rw [(endedLoop_round hround).2.2]
        exact Nat.le_succ _
      simp only [↓reduceIte, List.mem_singleton] at ha
      rw [ha]
      exact lt_of_le_of_lt hle hlt

/-- The rows carried over exist. -/
theorem carriedReads_inBounds {u l : ℕ} (hl : l ≤ rows) :
    ∀ a ∈ carriedReads u l, a.index < rows := by
  intro a ha
  obtain ⟨k, hk, ha⟩ := List.mem_flatMap.mp ha
  have hkl := (List.Ico.mem.mp hk).2
  rcases List.mem_pair.mp ha with rfl | rfl
  · exact lt_of_lt_of_le hkl hl
  · exact lt_of_lt_of_le hkl hl

/-- An interval that passes at most all rows reads elements that exist exactly if both
indexes stop before the end. -/
theorem intervalReads_inBounds_iff {s s' : Sweep} {b : Bucket} (hl : s.l ≤ rows)
    (h : sweepInterval A R lowers uppers rows intervalLength s = .ok (b, s')) :
    (∀ a ∈ intervalReads A R lowers uppers rows intervalLength s, a.index < rows) ↔
      s'.l < rows ∧ s'.u < rows := by
  obtain ⟨hstarted, hended, hsup⟩ := sweepInterval_inv h
  simp only [intervalReads, List.mem_append, or_imp, forall_and]
  rw [← hsup, startedReads_inBounds_iff hstarted, endedReads_inBounds_iff hended]
  exact and_congr_left fun _ => and_iff_right (carriedReads_inBounds hl)

end Interval

/-! ### The reads of a sweep -/

section Sweep

variable (A : CInt) (R : CFloat) (lowers uppers : List (RangeBound Datum)) (rows : ℕ)
  (intervalLength : ℤ)

/-- The end of interval `i`, as the code computes it. -/
def supAt (min : ℤ) (i : ℕ) : ℤ := A.wrap (min - 1 + ((i : ℕ) + 1) * intervalLength)

/-- Interval `i` reaches the lower bound at position `k`. -/
def StartReached (min : ℤ) (k i : ℕ) : Prop :=
  A.wrap (valueAt lowers k) ≤ supAt A intervalLength min i

/-- Interval `i` reaches the upper bound at position `k`. -/
def EndReached (min : ℤ) (k i : ℕ) : Prop :=
  A.wrap (valueAt uppers k) ≤ A.wrap (supAt A intervalLength min i + 1)

/-- The states between the intervals. -/
theorem exists_sweeps (s : Sweep) : ∃ sweep : ℕ → Sweep, sweep 0 = s ∧ ∀ i, ∃ b,
    sweepInterval A R lowers uppers rows intervalLength (sweep i) = .ok (b, sweep (i + 1)) := by
  choose bucket next hnext using sweepInterval_total A R lowers uppers rows intervalLength
  refine ⟨fun i => next^[i] s, rfl, fun i => ⟨bucket (next^[i] s), ?_⟩⟩
  dsimp only
  rw [Function.iterate_succ_apply', hnext]

variable {A R lowers uppers rows intervalLength}

theorem sweepReads_eq {sweep : ℕ → Sweep}
    (hsweep : ∀ i, ∃ b,
      sweepInterval A R lowers uppers rows intervalLength (sweep i) = .ok (b, sweep (i + 1)))
    (n i : ℕ) : sweepReads A R lowers uppers rows intervalLength n (sweep i) =
      (List.range n).map fun j =>
        (sweep (i + j), intervalReads A R lowers uppers rows intervalLength (sweep (i + j))) := by
  induction n generalizing i with
  | zero => rfl
  | succ n ih =>
    obtain ⟨b, hb⟩ := hsweep i
    rw [sweepReads, hb, List.range_succ_eq_map, List.map_cons, List.map_map]
    simp only [ih]
    congr 2
    funext j
    rw [Function.comp_apply, Nat.succ_add]
    rfl

/-- The two indexes are moved over the bounds that the intervals reach. -/
theorem cursors {min : ℤ} {sweep : ℕ → Sweep} (hzero : sweep 0 = ⟨0, 0, A.wrap (min - 1)⟩)
    (hsweep : ∀ i, ∃ b,
      sweepInterval A R lowers uppers rows intervalLength (sweep i) = .ok (b, sweep (i + 1))) :
    IsCursor (StartReached A lowers intervalLength min) rows (fun i => (sweep i).l) ∧
      IsCursor (EndReached A uppers intervalLength min) rows (fun i => (sweep i).u) := by
  have hsup : ∀ i, (sweep (i + 1)).sup = supAt A intervalLength min i := by
    intro i
    induction i with
    | zero =>
      obtain ⟨b, hb⟩ := hsweep 0
      rw [(sweepInterval_inv hb).2.2, hzero, A.wrap_wrap_add, supAt]
      simp
    | succ i ih =>
      obtain ⟨b, hb⟩ := hsweep (i + 1)
      rw [(sweepInterval_inv hb).2.2, ih, supAt, supAt, A.wrap_wrap_add]
      congr 1
      push_cast
      ring
  have hrange : ∀ i, (sweep i).l ≤ rows ∧ (sweep i).u ≤ rows := by
    intro i
    induction i with
    | zero => rw [hzero]; exact ⟨Nat.zero_le _, Nat.zero_le _⟩
    | succ i ih =>
      obtain ⟨b, hb⟩ := hsweep i
      obtain ⟨hstarted, hended, -⟩ := sweepInterval_inv hb
      exact ⟨(startedLoop_passes ih.1 hstarted).1.2.1, (endedLoop_passes ih.2 hended).1.2.1⟩
  have hstarted : ∀ i, _ := fun i =>
    startedLoop_passes (hrange i).1 (sweepInterval_inv (hsweep i).choose_spec).1
  have hended : ∀ i, _ := fun i =>
    endedLoop_passes (hrange i).2 (sweepInterval_inv (hsweep i).choose_spec).2.1
  constructor
  · refine ⟨by rw [hzero], fun i => (hstarted i).1.1, fun i => (hrange i).1, fun i k hk hlt => ?_,
      fun i hlt => ?_⟩
    · rw [StartReached, ← hsup]
      exact (hstarted i).1.2.2 k hk hlt
    · rw [StartReached, ← hsup, not_le]
      exact (hstarted i).2 hlt
  · refine ⟨by rw [hzero], fun i => (hended i).1.1, fun i => (hrange i).2, fun i k hk hlt => ?_,
      fun i hlt => ?_⟩
    · rw [EndReached, ← hsup]
      exact (hended i).1.2.2 k hk hlt
    · rw [EndReached, ← hsup, not_le]
      exact (hended i).2 hlt

end Sweep

/-! ### Sorted bounds that fit an `int` -/

section Kept

variable {lowers uppers : List (RangeBound Datum)} {rows : ℕ} {intervalLength min : ℤ}
  (hsorted : SortedBounds lowers uppers rows) (hkeeps : KeepsBounds .int32 lowers uppers rows)

include hsorted hkeeps

/-- A row is reached together with those before it. -/
theorem passes_started_iff {k i : ℕ} (hk : 1 ≤ k) (hrow : k ≤ rows) :
    Passes (StartReached .int32 lowers intervalLength min) k i ↔
      ∃ j < i, valueAt lowers (k - 1) ≤ supAt .int32 intervalLength min j := by
  constructor
  · rintro ⟨round, -, hround⟩
    obtain ⟨hlt, hreach⟩ := hround (k - 1) (by omega)
    rw [StartReached, hkeeps.lower _ (by omega)] at hreach
    exact ⟨round (k - 1), hlt, hreach⟩
  · rintro ⟨j, hj, hreach⟩
    refine ⟨fun _ => j, fun _ _ _ _ => le_rfl, fun m hm => ⟨hj, ?_⟩⟩
    rw [StartReached, hkeeps.lower _ (by omega)]
    exact (hsorted.lowerMono m (k - 1) (by omega) (by omega)).trans hreach

/-- Rows that have ended have started. -/
theorem passes_started_of_ended {k i : ℕ} (hrow : k ≤ rows)
    (h : Passes (EndReached .int32 uppers intervalLength min) k i) :
    Passes (StartReached .int32 lowers intervalLength min) k i := by
  rcases Nat.eq_zero_or_pos k with rfl | hk
  · obtain ⟨round, hmono, -⟩ := h
    exact ⟨round, hmono, fun j hj => absurd hj (Nat.not_lt_zero j)⟩
  · obtain ⟨round, -, hround⟩ := h
    obtain ⟨hlt, hreach⟩ := hround (k - 1) (by omega)
    rw [EndReached, hkeeps.upper _ (by omega)] at hreach
    -- the end of an interval is an `int`, so its successor does not wrap to something greater
    have hnext : CInt.int32.wrap (supAt .int32 intervalLength min (round (k - 1)) + 1) ≤
        supAt .int32 intervalLength min (round (k - 1)) + 1 := by
      have hfits := CInt.wrap32_fits (min - 1 + ((round (k - 1) : ℕ) + 1) * intervalLength)
      change FitsInt32 (supAt .int32 intervalLength min (round (k - 1))) at hfits
      unfold FitsInt32 at hfits
      simp only [CInt.int32_wrap, CInt.wrap32]
      omega
    have hltrow := hsorted.lt (k - 1) (by omega)
    exact (passes_started_iff hsorted hkeeps hk hrow).mpr ⟨_, hlt, by omega⟩

/-- If neither the length of the span nor the end of the grid overflows, the last
interval ends behind the last lower bound. -/
theorem exists_interval_reaches (hrows : 1 ≤ rows) {grid : Grid}
    (hgrid : chooseIntervals .int32 (wordAt lowers 0) (wordAt uppers (rows - 1)) = .ok grid)
    (hlength : valueAt uppers (rows - 1) - valueAt lowers 0 + 1 ≤ 2147483647)
    (hend : grid.min - 1 + grid.nbOfIntervals * grid.intervalLength ≤ 2147483647) :
    ∃ i < grid.nbOfIntervals.toNat,
      valueAt lowers (rows - 1) ≤ supAt .int32 grid.intervalLength grid.min i := by
  have hlast := hsorted.lt (rows - 1) (by omega)
  have hfirst := hsorted.lowerMono 0 (rows - 1) (by omega) (by omega)
  have hkept := (CInt.wrap32_eq_iff _).mp (hkeeps.lower 0 (by omega))
  have hle : valueAt lowers 0 ≤ valueAt uppers (rows - 1) := by omega
  have hlength' : CInt.int32.wrap (valueAt uppers (rows - 1) - valueAt lowers 0 + 1) =
      valueAt uppers (rows - 1) - valueAt lowers 0 + 1 :=
    CInt.int32.wrap_of_fits ⟨by omega, hlength⟩
  have hchosen : chooseIntervals .int32 (wordAt lowers 0) (wordAt uppers (rows - 1)) =
      .ok (.ofSpan (valueAt lowers 0) (valueAt uppers (rows - 1))) :=
    chooseIntervals_eq .int32 _ _ hle (hkeeps.lower 0 (by omega)) (hkeeps.upper _ (by omega))
      hlength'
  obtain rfl := Except.ok.inj (hgrid.symm.trans hchosen)
  have htiling := (interval_tiling
    (by omega : 1 ≤ valueAt uppers (rows - 1) - valueAt lowers 0 + 1)).1
  have hpos := htiling.countPos
  have hcover := htiling.covers
  refine ⟨(intervalCount (valueAt uppers (rows - 1) - valueAt lowers 0 + 1)).toNat - 1, ?_, ?_⟩
  · simp only [Grid.ofSpan]
    omega
  · have hcast : (((intervalCount (valueAt uppers (rows - 1) - valueAt lowers 0 + 1)).toNat - 1 :
        ℕ) : ℤ) + 1 = intervalCount (valueAt uppers (rows - 1) - valueAt lowers 0 + 1) := by omega
    simp only [supAt, Grid.ofSpan] at hend ⊢
    rw [hcast, CInt.int32.wrap_of_fits ⟨by have := hkept.1; omega, hend⟩]
    omega

end Kept

/-- The rows carried over are a stretch of the arrays whenever the loop over them starts, and
every element that is read exists. -/
def ReadsInBounds (reads : List (Sweep × List Access)) (rows : ℕ) : Prop :=
  (∀ r ∈ reads, r.1.u ≤ r.1.l) ∧ ∀ r ∈ reads, ∀ a ∈ r.2, a.index < rows

/-- The reads are in bounds exactly if the intervals can reach neither all lower nor all upper
bounds one after the other, and whenever those before some interval can reach the first upper
bounds they can reach as many lower bounds. For bounds that fit an `int` only the last lower
bound matters, and if nothing overflows the last interval reaches it. -/
theorem countReads_inBounds_iff {lowers uppers : List (RangeBound Datum)} {rows : ℕ}
    (hrows : 1 ≤ rows) (hsorted : SortedBounds lowers uppers rows) {grid : Grid}
    (hgrid : chooseIntervals .int32 (wordAt lowers 0) (wordAt uppers (rows - 1)) = .ok grid) :
    let nb := grid.nbOfIntervals.toNat
    let started := StartReached .int32 lowers grid.intervalLength grid.min
    let ended := EndReached .int32 uppers grid.intervalLength grid.min
    let reads := countReads .int32 .float4 lowers uppers rows grid.intervalLength
      grid.nbOfIntervals grid.min
    (ReadsInBounds reads rows ↔
      ¬ Passes started rows nb ∧ ¬ Passes ended rows nb ∧
        ∀ i < nb, ∀ k ≤ rows, Passes ended k i → Passes started k i) ∧
    (KeepsBounds .int32 lowers uppers rows →
      (∀ r ∈ reads, r.1.u ≤ r.1.l) ∧
      (ReadsInBounds reads rows ↔ ∀ i < nb,
        supAt .int32 grid.intervalLength grid.min i < valueAt lowers (rows - 1)) ∧
      (valueAt uppers (rows - 1) - valueAt lowers 0 + 1 ≤ 2147483647 →
        grid.min - 1 + grid.nbOfIntervals * grid.intervalLength ≤ 2147483647 →
        ∃ r ∈ reads, ∃ a ∈ r.2, rows ≤ a.index)) := by
  intro nb started ended reads
  obtain ⟨sweep, hzero, hsweep⟩ := exists_sweeps .int32 .float4 lowers uppers rows
    grid.intervalLength ⟨0, 0, CInt.int32.wrap (grid.min - 1)⟩
  obtain ⟨hl, hu⟩ := cursors hzero hsweep
  have hreads : reads = (List.range nb).map fun i =>
      (sweep i, intervalReads .int32 .float4 lowers uppers rows grid.intervalLength (sweep i)) := by
    have heq := sweepReads_eq hsweep nb 0
    rw [hzero] at heq
    simp only [Nat.zero_add] at heq
    exact heq
  have hwindow : (∀ r ∈ reads, r.1.u ≤ r.1.l) ↔
      ∀ i < nb, ∀ k ≤ rows, Passes ended k i → Passes started k i := by
    rw [hreads, List.forall_mem_map]
    simp only [List.mem_range]
    refine forall₂_congr fun i _ => ⟨fun hle k hk hpass => ?_, fun hpass => ?_⟩
    · exact (hl.le_iff hk).mp (((hu.le_iff hk).mpr hpass).trans hle)
    · exact (hl.le_iff (hu.le i)).mpr (hpass _ (hu.le i) ((hu.le_iff (hu.le i)).mp le_rfl))
  have hindex : (∀ r ∈ reads, ∀ a ∈ r.2, a.index < rows) ↔
      ¬ Passes started rows nb ∧ ¬ Passes ended rows nb := by
    rw [← hl.le_iff le_rfl, ← hu.le_iff le_rfl, not_le, not_le, hreads, List.forall_mem_map]
    simp only [List.mem_range, intervalReads_inBounds_iff (hl.le _) (hsweep _).choose_spec]
    constructor
    · intro hall
      rcases Nat.eq_zero_or_pos nb with hnb | hnb
      · rw [hnb, hzero]
        exact ⟨hrows, hrows⟩
      · have hlast := hall (nb - 1) (by omega)
        rwa [Nat.sub_add_cancel hnb] at hlast
    · rintro ⟨hlt, hut⟩ i hi
      exact ⟨(hl.mono hi).trans_lt hlt, (hu.mono hi).trans_lt hut⟩
  refine ⟨by rw [ReadsInBounds, hwindow, hindex, and_comm, and_assoc], fun hkeeps => ?_⟩
  have hordered : ∀ r ∈ reads, r.1.u ≤ r.1.l :=
    hwindow.mpr fun i _ k hk => passes_started_of_ended hsorted hkeeps hk
  have hlast : (∀ r ∈ reads, ∀ a ∈ r.2, a.index < rows) ↔ ∀ i < nb,
      supAt .int32 grid.intervalLength grid.min i < valueAt lowers (rows - 1) := by
    have hended : ¬ Passes started rows nb → ¬ Passes ended rows nb :=
      mt (passes_started_of_ended hsorted hkeeps le_rfl)
    rw [hindex, and_iff_left_of_imp hended, passes_started_iff hsorted hkeeps hrows le_rfl]
    push Not
    rfl
  refine ⟨hordered, (and_iff_right hordered).trans hlast, fun hlength hend => ?_⟩
  obtain ⟨i, hi, hreach⟩ := exists_interval_reaches hsorted hkeeps hrows hgrid hlength hend
  by_contra hnone
  push Not at hnone
  exact absurd (hlast.mp hnone i hi) (not_lt.mpr hreach)

/-- The sweep over the rows `[0,30)` and `[10,45)`, on sixteen intervals of three integers,
reads an element behind them. -/
theorem countReads_inBounds_iff_crossing :
    let reads := countReads .int32 .float4 [int4Lower 0, int4Lower 10]
      [int4Upper 30, int4Upper 45] 2 3 16 0
    (∀ r ∈ reads, r.1.u ≤ r.1.l) ∧ ∃ r ∈ reads, ∃ a ∈ r.2, 2 ≤ a.index := by
  have hgrid : chooseIntervals .int32 (wordAt [int4Lower 0, int4Lower 10] 0)
      (wordAt [int4Upper 30, int4Upper 45] (2 - 1)) = .ok ⟨0, 45, 46, 16, 3⟩ := by decide +kernel
  have hsorted : SortedBounds [int4Lower 0, int4Lower 10] [int4Upper 30, int4Upper 45] 2 :=
    { lowerMono := fun i j hij hj =>
        (by decide : ∀ j < 2, ∀ i ≤ j, valueAt [int4Lower 0, int4Lower 10] i ≤
          valueAt [int4Lower 0, int4Lower 10] j) j hj i hij
      upperMono := fun i j hij hj =>
        (by decide : ∀ j < 2, ∀ i ≤ j, valueAt [int4Upper 30, int4Upper 45] i ≤
          valueAt [int4Upper 30, int4Upper 45] j) j hj i hij
      lt := by decide }
  obtain ⟨hwindow, -, hbehind⟩ := (countReads_inBounds_iff (by decide) hsorted hgrid).2
    ⟨by decide, by decide⟩
  exact ⟨hwindow, hbehind (by decide) (by decide)⟩

/-- The first of two intervals over `[0,1)` starts the only row, and then evaluates
`lowers[1]`. -/
theorem countReads_unit :
    chooseIntervals .int32 (int4Word 0) (int4Word 1) = .ok ⟨0, 1, 2, 2, 1⟩ ∧
    (countReads .int32 .float4 [int4Lower 0] [int4Upper 1] 1 1 2 0).map Prod.snd =
      [[.lower 0, .upper 0, .lower 0, .lower 1, .upper 0, .upper 1], [.lower 1, .upper 1]] := by
  decide +kernel

end PgRange.Stats
