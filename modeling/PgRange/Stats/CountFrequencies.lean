import PgRange.Math.CFloat
import PgRange.Math.Loop
import PgRange.Stats.Grid
import Mathlib.Order.Interval.Finset.Nat
import Mathlib.Data.Int.ConditionallyCompleteOrder
import Mathlib.Data.List.Intervals

/-!
# The sweep that counts frequencies

`count_frequencies` runs once over the grid with two indexes into the bound
arrays: `l` counts the lower bounds passed so far, `u` the upper bounds. In each
interval it adds the share of the rows carried over from before (those from `u`
to `l`) and of the rows that start there.

The multiplicity `mult` of a row is an `int`, computed from 64-bit words; the
comparisons of a word with `sup` are unsigned. The sums are made in `float`; the reading
`R` of that type is a parameter, as the one of `int` is.

## Main results

* `countFrequencies_eq` — on sorted bounds that the reading of `int` keeps, the
  sweep ends and visits, in each interval, exactly the rows that reach into it
* `visits_eq` — with which multiplicities, if the reading of `int` keeps the differences
* `PlainInterval.bucketAt_count_eq` — for non-negative bounds, what it adds up there
-/

set_option autoImplicit false

namespace PgRange.Stats

open Math

/-! ### The function of the source -/

/-- The word of the bound at position `k`. Behind the last element the code reads
whatever follows, and the rest of the loop condition discards it. -/
def wordAt (bounds : List (RangeBound Datum)) (k : ℕ) : Datum := (bounds.getD k default).val

/-- The multiplicity of a row that started in an earlier interval. -/
def carriedMult (A : CInt) (sup intervalLength : ℤ) (upper : Datum) : ℤ :=
  -- `val` is unsigned, so the comparison converts `sup` to an unsigned word
  if A.word upper.toInt < A.word sup then
    A.wrap (upper.toInt - A.wrap (A.wrap (sup - intervalLength) + 1))
  else intervalLength

/-- The multiplicity of a row that starts in this interval. -/
def startedMult (A : CInt) (sup : ℤ) (lower upper : Datum) : ℤ :=
  if A.word sup ≤ A.word upper.toInt then A.wrap (A.wrap (1 + sup) - lower.toInt)
  else A.wrap (upper.toInt - lower.toInt)

/-- What is kept of one interval: its last integer, every value of the local
`mult`, and the sum. -/
structure Bucket where
  sup : ℤ
  mults : List ℤ
  count : FloatQ
  deriving DecidableEq, Repr

/-- `(float) mult / (upper - lower)`. -/
def quotient (R : CFloat) (mult : ℤ) (lower upper : Datum) : FloatQ :=
  -- the difference of the two words wraps around at zero and is then converted to `float`
  R.div (R.round mult) (R.round (upper - lower).toNat)

/-- `count += (float) mult / (upper - lower)`. -/
def Bucket.add (R : CFloat) (b : Bucket) (mult : ℤ) (lower upper : Datum) : Bucket where
  sup := b.sup
  mults := b.mults ++ [mult]
  count := R.add b.count (quotient R mult lower upper)

/-- The locals that survive from one interval to the next. -/
structure Sweep where
  l : ℕ
  u : ℕ
  sup : ℤ
  deriving DecidableEq, Repr

section Source

variable (A : CInt) (R : CFloat) (lowers uppers : List (RangeBound Datum)) (rows : ℕ)
  (intervalLength : ℤ)

/-- `for (k=u; k < l; k++)`: the rows carried over. -/
def carriedLoop (sup : ℤ) (u l : ℕ) (bucket : Bucket) : Bucket :=
  (List.Ico u l).foldl (fun b k =>
    let mult := carriedMult A sup intervalLength (wordAt uppers k)
    Bucket.add R b mult (wordAt lowers k) (wordAt uppers k)) bucket

/-- The first `while`: the rows that start. -/
def startedLoop (sup : ℤ) : Loop Fault (ℕ × Bucket) where
  -- the bound is read before its index is compared with `rows`
  cond := fun (l, _) => decide (A.wrap (wordAt lowers l).toInt ≤ sup) && decide (l < rows)
  step := fun (l, b) =>
    let mult := startedMult A sup (wordAt lowers l) (wordAt uppers l)
    .ok (l + 1, Bucket.add R b mult (wordAt lowers l) (wordAt uppers l))
  check := fun _ => none

/-- The second `while`: the rows that end. -/
def endedLoop (sup : ℤ) : Loop Fault ℕ where
  cond := fun u => decide (A.wrap (wordAt uppers u).toInt ≤ A.wrap (sup + 1)) && decide (u < rows)
  step := fun u => .ok (u + 1)
  check := fun _ => none

/-- One round of the loop over the intervals. -/
def sweepInterval (s : Sweep) : Except Fault (Bucket × Sweep) := do
  let sup := A.wrap (s.sup + intervalLength)
  let carried := carriedLoop A R lowers uppers intervalLength sup s.u s.l ⟨sup, [], .fin 0⟩
  let (l, bucket) ← (startedLoop A R lowers uppers rows sup).run .outOfFuel rows (s.l, carried)
  -- a row that ends here is still counted here
  let u ← (endedLoop A uppers rows sup).run .outOfFuel rows s.u
  return (bucket, ⟨l, u, sup⟩)

/-- The loop over the intervals. -/
def sweepIntervals : ℕ → Sweep → Except Fault (List Bucket)
  | 0, _ => .ok []
  | n + 1, s => do
    let (bucket, s') ← sweepInterval A R lowers uppers rows intervalLength s
    let buckets ← sweepIntervals n s'
    return bucket :: buckets

/-- `count_frequencies`. The frequencies are the counts of the buckets. -/
def countFrequencies (nbOfIntervals min : ℤ) : Except Fault (List Bucket) :=
  sweepIntervals A R lowers uppers rows intervalLength nbOfIntervals.toNat ⟨0, 0, A.wrap (min - 1)⟩

end Source

/-! ### The loops end -/

section Total

variable (A : CInt) (R : CFloat) (lowers uppers : List (RangeBound Datum)) (rows : ℕ)
  (intervalLength : ℤ)

theorem startedLoop_total (sup : ℤ) (s : ℕ × Bucket) :
    ∃ t, (startedLoop A R lowers uppers rows sup).run .outOfFuel rows s = .ok t := by
  refine Loop.run_total (fun s => rows - s.1) (fun s hcond => ?_) (Nat.sub_le _ _)
  have hlt : s.1 < rows := by
    simp only [startedLoop, Bool.and_eq_true, decide_eq_true_eq] at hcond
    exact hcond.2
  exact ⟨_, rfl, rfl, by dsimp only; omega⟩

theorem endedLoop_total (sup : ℤ) (u : ℕ) :
    ∃ t, (endedLoop A uppers rows sup).run .outOfFuel rows u = .ok t := by
  refine Loop.run_total (fun u => rows - u) (fun u hcond => ?_) (Nat.sub_le _ _)
  have hlt : u < rows := by
    simp only [endedLoop, Bool.and_eq_true, decide_eq_true_eq] at hcond
    exact hcond.2
  exact ⟨_, rfl, rfl, by omega⟩

theorem sweepIntervals_succ {n : ℕ} {s s' : Sweep} {bucket : Bucket} {buckets : List Bucket}
    (hs : sweepInterval A R lowers uppers rows intervalLength s = .ok (bucket, s'))
    (hrest : sweepIntervals A R lowers uppers rows intervalLength n s' = .ok buckets) :
    sweepIntervals A R lowers uppers rows intervalLength (n + 1) s = .ok (bucket :: buckets) := by
  simp only [sweepIntervals, hs]
  change (sweepIntervals A R lowers uppers rows intervalLength n s' >>= _) = _
  rw [hrest]
  rfl

variable {A R lowers uppers rows intervalLength} in
/-- One round of the loop over the intervals consists of a run of each `while`. -/
theorem sweepInterval_inv {s s' : Sweep} {b : Bucket}
    (h : sweepInterval A R lowers uppers rows intervalLength s = .ok (b, s')) :
    (startedLoop A R lowers uppers rows s'.sup).run .outOfFuel rows (s.l, carriedLoop A R lowers
        uppers intervalLength s'.sup s.u s.l ⟨s'.sup, [], .fin 0⟩) = .ok (s'.l, b) ∧
      (endedLoop A uppers rows s'.sup).run .outOfFuel rows s.u = .ok s'.u ∧
      s'.sup = A.wrap (s.sup + intervalLength) := by
  obtain ⟨⟨l, bucket⟩, hstarted, h⟩ := bind_eq_ok_iff.mp h
  obtain ⟨u, hended, h⟩ := bind_eq_ok_iff.mp h
  obtain ⟨rfl, rfl⟩ := Prod.mk.inj (Except.ok.inj h)
  exact ⟨hstarted, hended, rfl⟩

theorem sweepInterval_total (s : Sweep) :
    ∃ bucket s', sweepInterval A R lowers uppers rows intervalLength s = .ok (bucket, s') := by
  unfold sweepInterval
  obtain ⟨⟨l, bucket⟩, hl⟩ := startedLoop_total A R lowers uppers rows
    (A.wrap (s.sup + intervalLength)) (s.l, carriedLoop A R lowers uppers intervalLength
      (A.wrap (s.sup + intervalLength)) s.u s.l ⟨A.wrap (s.sup + intervalLength), [], .fin 0⟩)
  obtain ⟨u, hu⟩ := endedLoop_total A uppers rows (A.wrap (s.sup + intervalLength)) s.u
  simp only [hl, hu]
  exact ⟨bucket, _, rfl⟩

theorem sweepIntervals_total (n : ℕ) (s : Sweep) :
    ∃ buckets, sweepIntervals A R lowers uppers rows intervalLength n s = .ok buckets ∧
      buckets.length = n := by
  induction n generalizing s with
  | zero => exact ⟨[], rfl, rfl⟩
  | succ n ih =>
    obtain ⟨bucket, s', hs⟩ := sweepInterval_total A R lowers uppers rows intervalLength s
    obtain ⟨buckets, hrest, hlen⟩ := ih s'
    exact ⟨bucket :: buckets, sweepIntervals_succ A R lowers uppers rows intervalLength hs hrest,
      by rw [List.length_cons, hlen]⟩

theorem startedLoop_sup {sup : ℤ} {s t : ℕ × Bucket}
    (h : (startedLoop A R lowers uppers rows sup).run .outOfFuel rows s = .ok t) :
    t.2.sup = s.2.sup := by
  refine (Loop.run_inv (fun t : ℕ × Bucket => t.2.sup = s.2.sup) ?_ rows rfl h).1
  rintro ⟨l, b⟩ t' hinv ⟨-, hstep, -⟩
  obtain rfl := Except.ok.inj hstep
  exact hinv

theorem carriedLoop_sup (sup : ℤ) (u l : ℕ) (b : Bucket) :
    (carriedLoop A R lowers uppers intervalLength sup u l b).sup = b.sup := by
  unfold carriedLoop
  generalize List.Ico u l = ks
  induction ks generalizing b with
  | nil => rfl
  | cons k ks ih => exact ih _

/-- The ends of the intervals do not depend on the arrays. -/
theorem sweepIntervals_sups (n : ℕ) (s : Sweep) (buckets : List Bucket)
    (h : sweepIntervals A R lowers uppers rows intervalLength n s = .ok buckets) :
    buckets.map Bucket.sup =
      (List.range n).map fun i : ℕ => A.wrap (s.sup + (i + 1) * intervalLength) := by
  induction n generalizing s buckets with
  | zero =>
    obtain rfl := Except.ok.inj h
    rfl
  | succ n ih =>
    obtain ⟨⟨b, s'⟩, hs, h⟩ := bind_eq_ok_iff.mp h
    obtain ⟨rest, hrest, h⟩ := bind_eq_ok_iff.mp h
    obtain rfl := Except.ok.inj h
    obtain ⟨hstarted, -, hsup⟩ := sweepInterval_inv hs
    have hb : b.sup = s'.sup := (startedLoop_sup A R lowers uppers rows hstarted).trans
      (carriedLoop_sup A R lowers uppers _ _ _ _ _)
    rw [List.map_cons, hb, ih _ _ hrest, hsup, List.range_succ_eq_map, List.map_cons,
      List.map_map]
    congr 1
    · simp
    · refine List.map_congr_left fun i _ => ?_
      simp only [Function.comp]
      rw [A.wrap_wrap_add]
      congr 1
      push_cast
      ring

/-- On the machine every bucket ends at an `int`. -/
theorem countFrequencies_sup_fits {lowers uppers : List (RangeBound Datum)} {rows : ℕ}
    {intervalLength nbOfIntervals min : ℤ} {buckets : List Bucket}
    (h : countFrequencies .int32 R lowers uppers rows intervalLength nbOfIntervals min =
      .ok buckets) : ∀ b ∈ buckets, FitsInt32 b.sup := by
  intro b hb
  have hmem := List.mem_map_of_mem (f := Bucket.sup) hb
  rw [sweepIntervals_sups .int32 R lowers uppers rows intervalLength _ _ _ h] at hmem
  obtain ⟨i, -, heq⟩ := List.mem_map.mp hmem
  rw [← heq]
  exact CInt.wrap32_fits _

/-- Whatever the arrays hold, the sweep ends with one bucket per interval. -/
theorem countFrequencies_total (nbOfIntervals min : ℤ) :
    ∃ buckets, countFrequencies A R lowers uppers rows intervalLength nbOfIntervals min =
      .ok buckets ∧ buckets.length = nbOfIntervals.toNat :=
  sweepIntervals_total A R lowers uppers rows intervalLength _ _

end Total

/-! ### The sweep over sorted bounds -/

/-- The value of the lower bound at position `k`. -/
abbrev valueAt (bounds : List (RangeBound Datum)) (k : ℕ) : ℤ := (wordAt bounds k).toInt

/-- Both arrays ascend. -/
structure AscendingBounds (lowers uppers : List (RangeBound Datum)) (rows : ℕ) : Prop where
  lowerMono : ∀ i j, i ≤ j → j < rows → valueAt lowers i ≤ valueAt lowers j
  upperMono : ∀ i j, i ≤ j → j < rows → valueAt uppers i ≤ valueAt uppers j

/-- What sorting the bounds of canonical ranges leaves: both arrays ascend, and at
each position the lower bound is below the upper one. -/
structure SortedBounds (lowers uppers : List (RangeBound Datum)) (rows : ℕ) : Prop
    extends AscendingBounds lowers uppers rows where
  lt : ∀ k < rows, valueAt lowers k < valueAt uppers k

/-- The reading of `int` keeps every bound. -/
structure KeepsBounds (A : CInt) (lowers uppers : List (RangeBound Datum)) (rows : ℕ) : Prop where
  lower : ∀ k < rows, A.wrap (valueAt lowers k) = valueAt lowers k
  upper : ∀ k < rows, A.wrap (valueAt uppers k) = valueAt uppers k

section Sorted

variable (A : CInt) (R : CFloat) (lowers uppers : List (RangeBound Datum)) (rows : ℕ)
  (intervalLength min : ℤ)

/-- The last integer before interval `i`. -/
def supBefore (i : ℕ) : ℤ := min - 1 + i * intervalLength

/-- The number of rows that start before interval `i`. -/
def startedBefore (i : ℕ) : ℕ :=
  Nat.count (fun k => valueAt lowers k ≤ supBefore intervalLength min i) rows

/-- The number of rows that end before interval `i`. -/
def endedBefore (i : ℕ) : ℕ :=
  Nat.count (fun k => valueAt uppers k ≤ supBefore intervalLength min i + 1) rows

/-- The rows that interval `i` visits, with their multiplicities. -/
def visits (i : ℕ) : List (ℤ × ℕ) :=
  let sup := supBefore intervalLength min (i + 1)
  let ended := endedBefore uppers rows intervalLength min i
  let started := startedBefore lowers rows intervalLength min i
  let started' := startedBefore lowers rows intervalLength min (i + 1)
  (List.Ico ended started).map (fun k => (carriedMult A sup intervalLength (wordAt uppers k), k)) ++
    (List.Ico started started').map
      (fun k => (startedMult A sup (wordAt lowers k) (wordAt uppers k), k))

/-- The positions of these rows. -/
def visitedAt (i : ℕ) : List ℕ :=
  List.Ico (endedBefore uppers rows intervalLength min i)
      (startedBefore lowers rows intervalLength min i) ++
    List.Ico (startedBefore lowers rows intervalLength min i)
      (startedBefore lowers rows intervalLength min (i + 1))

/-- Adding up a list of visits. -/
def addVisits (b : Bucket) (vs : List (ℤ × ℕ)) : Bucket :=
  vs.foldl (fun b v => Bucket.add R b v.1 (wordAt lowers v.2) (wordAt uppers v.2)) b

/-- The bucket of interval `i`. -/
def bucketAt (i : ℕ) : Bucket :=
  addVisits R lowers uppers ⟨supBefore intervalLength min (i + 1), [], .fin 0⟩
    (visits A lowers uppers rows intervalLength min i)

theorem addVisits_count (b : Bucket) (vs : List (ℤ × ℕ)) :
    (addVisits R lowers uppers b vs).count = (vs.map fun v =>
      quotient R v.1 (wordAt lowers v.2) (wordAt uppers v.2)).foldl R.add b.count := by
  induction vs generalizing b with
  | nil => rfl
  | cons v vs ih => exact ih _

theorem addVisits_mults (b : Bucket) (vs : List (ℤ × ℕ)) :
    (addVisits R lowers uppers b vs).mults = b.mults ++ vs.map Prod.fst := by
  induction vs generalizing b with
  | nil => exact (List.append_nil _).symm
  | cons v vs ih =>
    refine (ih _).trans ?_
    simp [Bucket.add]

theorem addVisits_append (b : Bucket) (vs ws : List (ℤ × ℕ)) :
    addVisits R lowers uppers b (vs ++ ws) =
      addVisits R lowers uppers (addVisits R lowers uppers b vs) ws :=
  List.foldl_append

theorem addVisits_sup (b : Bucket) (vs : List (ℤ × ℕ)) :
    (addVisits R lowers uppers b vs).sup = b.sup := by
  induction vs generalizing b with
  | nil => rfl
  | cons v vs ih => exact ih _

theorem visits_snd (i : ℕ) : (visits A lowers uppers rows intervalLength min i).map Prod.snd =
    visitedAt lowers uppers rows intervalLength min i := by
  simp [visits, visitedAt, Function.comp_def]

theorem bucketAt_sup (i : ℕ) : (bucketAt A R lowers uppers rows intervalLength min i).sup =
    supBefore intervalLength min (i + 1) :=
  addVisits_sup R lowers uppers _ _

theorem bucketAt_mults (i : ℕ) : (bucketAt A R lowers uppers rows intervalLength min i).mults =
    (visits A lowers uppers rows intervalLength min i).map Prod.fst := by
  rw [bucketAt, addVisits_mults, List.nil_append]

theorem bucketAt_count (i : ℕ) : (bucketAt A R lowers uppers rows intervalLength min i).count =
    R.sum ((visits A lowers uppers rows intervalLength min i).map fun v =>
      quotient R v.1 (wordAt lowers v.2) (wordAt uppers v.2)) :=
  addVisits_count R lowers uppers _ _

theorem carriedLoop_eq (sup : ℤ) (u l : ℕ) (b : Bucket) :
    carriedLoop A R lowers uppers intervalLength sup u l b =
      addVisits R lowers uppers b ((List.Ico u l).map fun k =>
        (carriedMult A sup intervalLength (wordAt uppers k), k)) := by
  unfold carriedLoop addVisits
  rw [List.foldl_map]

variable {A R lowers uppers rows intervalLength min} in
/-- The visits of two readings differ in the multiplicities only. -/
theorem visits_ext {B : CInt} {i : ℕ}
    (h : (visits A lowers uppers rows intervalLength min i).map Prod.fst =
      (visits B lowers uppers rows intervalLength min i).map Prod.fst) :
    visits A lowers uppers rows intervalLength min i =
      visits B lowers uppers rows intervalLength min i := by
  exact (List.zip_of_prod h (visits_snd A lowers uppers rows intervalLength min i)).trans
    (List.zip_of_prod rfl (visits_snd B lowers uppers rows intervalLength min i)).symm

variable {A R lowers uppers rows}

/-- The loop over the rows that start, from the rows already passed. -/
theorem startedLoop_run (hs : AscendingBounds lowers uppers rows)
    (hk : KeepsBounds A lowers uppers rows) {sup : ℤ} {l : ℕ} (b : Bucket)
    (hl : l ≤ Nat.count (fun k => valueAt lowers k ≤ sup) rows) :
    (startedLoop A R lowers uppers rows sup).run .outOfFuel rows (l, b) =
      .ok (Nat.count (fun k => valueAt lowers k ≤ sup) rows,
        addVisits R lowers uppers b
          ((List.Ico l (Nat.count (fun k => valueAt lowers k ≤ sup) rows)).map fun k =>
            (startedMult A sup (wordAt lowers k) (wordAt uppers k), k))) := by
  -- the state after the index has reached `k`
  let f : ℕ → ℕ × Bucket := fun k => (k, addVisits R lowers uppers b
    ((List.Ico l k).map fun k => (startedMult A sup (wordAt lowers k) (wordAt uppers k), k)))
  have hf : f l = (l, b) := by simp [f, addVisits]
  rw [← hf]
  refine Loop.run_scan f (fun k => valueAt lowers k ≤ sup) ?_ ?_ ?_ (fun _ => rfl) hl (by omega)
  · intro i j hij hj hle
    exact le_trans (hs.lowerMono i j hij hj) hle
  · intro k _
    simp only [startedLoop, f]
    by_cases hrow : k < rows
    · rw [hk.lower k hrow]
    · simp [hrow]
  · intro k hlk
    simp only [startedLoop, f, List.Ico.succ_top hlk, List.map_append, addVisits_append]
    rfl

/-- The loop over the rows that end, if it does not wrap at the top. -/
theorem endedLoop_run (hs : AscendingBounds lowers uppers rows)
    (hk : KeepsBounds A lowers uppers rows) {sup : ℤ} {u : ℕ} (hsup : A.wrap (sup + 1) = sup + 1)
    (hu : u ≤ Nat.count (fun k => valueAt uppers k ≤ sup + 1) rows) :
    (endedLoop A uppers rows sup).run .outOfFuel rows u =
      .ok (Nat.count (fun k => valueAt uppers k ≤ sup + 1) rows) := by
  refine Loop.run_scan id (fun k => valueAt uppers k ≤ sup + 1) ?_ ?_ (fun _ _ => rfl)
    (fun _ => rfl) hu (by omega)
  · intro i j hij hj hle
    exact le_trans (hs.upperMono i j hij hj) hle
  · intro k _
    simp only [endedLoop, id, hsup]
    by_cases hrow : k < rows
    · rw [hk.upper k hrow]
    · simp [hrow]

theorem supBefore_succ (i : ℕ) : supBefore intervalLength min (i + 1) =
    supBefore intervalLength min i + intervalLength := by
  unfold supBefore
  push_cast
  ring

theorem supBefore_zero : supBefore intervalLength min 0 = min - 1 := by
  rw [supBefore, Nat.cast_zero, zero_mul, add_zero]

/-- Interval `i` starts behind the end of those before. -/
theorem supBefore_add_one (i : ℕ) :
    supBefore intervalLength min i + 1 = min + i * intervalLength := by
  unfold supBefore
  ring

theorem supBefore_strictMono (hL : 1 ≤ intervalLength) :
    StrictMono (supBefore intervalLength min) := by
  refine strictMono_nat_of_lt_succ fun i => ?_
  rw [supBefore_succ]
  exact lt_add_of_pos_right _ hL

theorem lt_startedBefore_iff (hs : AscendingBounds lowers uppers rows) {i k : ℕ} :
    k < startedBefore lowers rows intervalLength min i ↔
      k < rows ∧ valueAt lowers k ≤ supBefore intervalLength min i :=
  Loop.lt_count_iff fun i j hij hj hle => le_trans (hs.lowerMono i j hij hj) hle

theorem lt_endedBefore_iff (hs : AscendingBounds lowers uppers rows) {i k : ℕ} :
    k < endedBefore uppers rows intervalLength min i ↔
      k < rows ∧ valueAt uppers k ≤ supBefore intervalLength min i + 1 :=
  Loop.lt_count_iff fun i j hij hj hle => le_trans (hs.upperMono i j hij hj) hle

/-- The rows that an interval carries on. -/
theorem mem_carried_iff (hs : AscendingBounds lowers uppers rows) {i k : ℕ} :
    k ∈ List.Ico (endedBefore uppers rows intervalLength min i)
        (startedBefore lowers rows intervalLength min i) ↔
      k < rows ∧ valueAt lowers k ≤ supBefore intervalLength min i ∧
        supBefore intervalLength min i + 1 < valueAt uppers k := by
  rw [List.Ico.mem, ← not_lt, lt_endedBefore_iff _ _ hs, lt_startedBefore_iff _ _ hs, not_and,
    not_le]
  exact ⟨fun h => ⟨h.2.1, h.2.2, h.1 h.2.1⟩, fun h => ⟨fun _ => h.2.2, h.1, h.2.1⟩⟩

/-- The rows that start in an interval. -/
theorem mem_started_iff (hs : AscendingBounds lowers uppers rows) {i k : ℕ} :
    k ∈ List.Ico (startedBefore lowers rows intervalLength min i)
        (startedBefore lowers rows intervalLength min (i + 1)) ↔
      k < rows ∧ supBefore intervalLength min i < valueAt lowers k ∧
        valueAt lowers k ≤ supBefore intervalLength min (i + 1) := by
  rw [List.Ico.mem, ← not_lt, lt_startedBefore_iff _ _ hs, lt_startedBefore_iff _ _ hs, not_and,
    not_le]
  exact ⟨fun h => ⟨h.2.1, h.1 h.2.1, h.2.2⟩, fun h => ⟨fun _ => h.2.1, h.1, h.2.2⟩⟩

/-- Every row that ended before an interval also started before it. -/
theorem endedBefore_le_startedBefore (hs : SortedBounds lowers uppers rows) (i : ℕ) :
    endedBefore uppers rows intervalLength min i ≤
      startedBefore lowers rows intervalLength min i := by
  refine Nat.count_mono_left fun k hrow hle => ?_
  have := hs.lt k hrow
  omega

theorem startedBefore_mono (hL : 0 ≤ intervalLength) (i : ℕ) :
    startedBefore lowers rows intervalLength min i ≤
      startedBefore lowers rows intervalLength min (i + 1) := by
  have hsucc := supBefore_succ intervalLength min i
  exact Nat.count_mono_left fun k _ hle => le_trans hle (by omega)

theorem endedBefore_mono (hL : 0 ≤ intervalLength) (i : ℕ) :
    endedBefore uppers rows intervalLength min i ≤
      endedBefore uppers rows intervalLength min (i + 1) := by
  have hsucc := supBefore_succ intervalLength min i
  exact Nat.count_mono_left fun k _ hle => le_trans hle (by omega)

/-- One interval: from the rows passed before it to the rows passed after it. The
index `u` may lag behind as long as that adds no row to those carried over, and it
is right afterwards if the interval does not end at the last `int`. -/
theorem sweepInterval_eq (hs : AscendingBounds lowers uppers rows)
    (hk : KeepsBounds A lowers uppers rows) (hL : 0 ≤ intervalLength) {i u0 : ℕ} {sup : ℤ}
    (hu0 : u0 ≤ endedBefore uppers rows intervalLength min i)
    (hcarried : List.Ico u0 (startedBefore lowers rows intervalLength min i) =
      List.Ico (endedBefore uppers rows intervalLength min i)
        (startedBefore lowers rows intervalLength min i))
    (hsup : A.wrap (sup + intervalLength) = supBefore intervalLength min (i + 1)) :
    ∃ u, sweepInterval A R lowers uppers rows intervalLength
        ⟨startedBefore lowers rows intervalLength min i, u0, sup⟩ =
      .ok (bucketAt A R lowers uppers rows intervalLength min i,
        ⟨startedBefore lowers rows intervalLength min (i + 1), u,
          supBefore intervalLength min (i + 1)⟩) ∧
      (A.wrap (supBefore intervalLength min (i + 1) + 1) =
          supBefore intervalLength min (i + 1) + 1 →
        u = endedBefore uppers rows intervalLength min (i + 1)) := by
  obtain ⟨u, hu⟩ := endedLoop_total A uppers rows (supBefore intervalLength min (i + 1)) u0
  refine ⟨u, ?_, fun hwrap => ?_⟩
  · unfold sweepInterval
    simp only [hsup, carriedLoop_eq, hu, hcarried]
    rw [startedLoop_run hs hk _ (startedBefore_mono intervalLength min hL i)]
    simp only [bucketAt, visits, addVisits_append]
    rfl
  · rw [endedLoop_run hs hk hwrap (hu0.trans (endedBefore_mono intervalLength min hL i))] at hu
    exact (Except.ok.inj hu).symm

/-- The intervals from number `i` on. -/
theorem sweepIntervals_eq (hs : AscendingBounds lowers uppers rows)
    (hk : KeepsBounds A lowers uppers rows) (hL : 1 ≤ intervalLength)
    (hmin : A.wrap min = min) (n i u0 : ℕ) (sup : ℤ)
    (hu0 : u0 ≤ endedBefore uppers rows intervalLength min i)
    (hcarried : List.Ico u0 (startedBefore lowers rows intervalLength min i) =
      List.Ico (endedBefore uppers rows intervalLength min i)
        (startedBefore lowers rows intervalLength min i))
    (hsup : A.wrap (sup + intervalLength) = A.wrap (supBefore intervalLength min (i + 1)))
    (hend : A.wrap (supBefore intervalLength min (i + n)) =
      supBefore intervalLength min (i + n)) :
    sweepIntervals A R lowers uppers rows intervalLength n
        ⟨startedBefore lowers rows intervalLength min i, u0, sup⟩ =
      .ok ((List.range n).map fun j =>
        bucketAt A R lowers uppers rows intervalLength min (i + j)) := by
  -- by induction on the intervals to come; `l` and `u` are determined by those passed
  induction n generalizing i u0 sup with
  | zero => rfl
  | succ n ih =>
    -- the ends of the intervals before the last lie between values that are kept
    have hmono := supBefore_strictMono intervalLength min hL
    have hbound : min ≤ supBefore intervalLength min (i + 1) := by
      have hlt := hmono (Nat.succ_pos i)
      rw [supBefore_zero] at hlt
      exact Int.le_of_sub_one_lt hlt
    have hkeep : A.wrap (supBefore intervalLength min (i + 1)) =
        supBefore intervalLength min (i + 1) :=
      A.wrap_of_between hmin hend hbound (hmono.monotone (by omega))
    obtain ⟨u, hrun, hu⟩ := sweepInterval_eq intervalLength min hs hk (by omega) hu0 hcarried
      (hsup.trans hkeep)
    have hlist : (List.range (n + 1)).map
          (fun j => bucketAt A R lowers uppers rows intervalLength min (i + j)) =
        bucketAt A R lowers uppers rows intervalLength min i ::
          (List.range n).map
            (fun j => bucketAt A R lowers uppers rows intervalLength min (i + 1 + j)) := by
      rw [List.range_succ_eq_map, List.map_cons, List.map_map]
      congr 2
      funext j
      simp only [Function.comp]
      congr 1
      omega
    rw [hlist]
    refine sweepIntervals_succ A R lowers uppers rows intervalLength hrun ?_
    cases n with
    | zero => rfl
    | succ n =>
      -- another interval follows, so `sup + 1` does not overflow in the last loop
      have hlast : supBefore intervalLength min (i + 1) + 1 ≤
          supBefore intervalLength min (i + (n + 1 + 1)) :=
        Int.add_one_le_of_lt (hmono (by omega))
      have hnext : A.wrap (supBefore intervalLength min (i + 1) + 1) =
          supBefore intervalLength min (i + 1) + 1 :=
        A.wrap_of_between hmin hend (by omega) hlast
      rw [hu hnext]
      refine ih (i + 1) _ _ le_rfl rfl (by rw [supBefore_succ intervalLength min (i + 1)]) ?_
      rw [Nat.add_assoc, Nat.add_comm 1]
      exact hend

/-- The sweep over sorted bounds that the reading of `int` keeps: interval by
interval it visits the rows that reach into it. -/
theorem countFrequencies_eq (hs : AscendingBounds lowers uppers rows)
    (hk : KeepsBounds A lowers uppers rows) (hL : 1 ≤ intervalLength)
    (hmin : A.wrap min = min) (hfirst : ∀ k < rows, min ≤ valueAt lowers k) {nb : ℤ}
    (hnb : 0 ≤ nb) (hend : A.wrap (min - 1 + nb * intervalLength) = min - 1 + nb * intervalLength) :
    countFrequencies A R lowers uppers rows intervalLength nb min =
      .ok ((List.range nb.toNat).map (bucketAt A R lowers uppers rows intervalLength min)) := by
  have hstart : startedBefore lowers rows intervalLength min 0 = 0 := by
    refine Nat.count_of_forall_not fun k hk' => ?_
    have := hfirst k hk'
    rw [supBefore_zero]
    omega
  -- no row has started, so it does not matter how many have ended
  have hcarried : List.Ico 0 (startedBefore lowers rows intervalLength min 0) =
      List.Ico (endedBefore uppers rows intervalLength min 0)
        (startedBefore lowers rows intervalLength min 0) := by
    rw [hstart, List.Ico.eq_nil_of_le (Nat.zero_le _), List.Ico.eq_nil_of_le (Nat.zero_le _)]
  have hsup : A.wrap (A.wrap (min - 1) + intervalLength) =
      A.wrap (supBefore intervalLength min (0 + 1)) := by
    rw [A.wrap_wrap_add, supBefore]
    congr 1
    push_cast
    ring
  have hrun := sweepIntervals_eq (R := R) intervalLength min hs hk hL hmin nb.toNat 0 0 _
    (Nat.zero_le _) hcarried hsup (by
      unfold supBefore
      rw [Nat.zero_add, Int.toNat_of_nonneg hnb]
      exact hend)
  rw [hstart] at hrun
  unfold countFrequencies
  rw [hrun]
  simp only [Nat.zero_add]

end Sorted

/-! ### What is added up

A row that an interval visits is counted from its start, or the start of the interval,
to its end, or the end of the interval. The comparison that decides between the two
ends takes the last integer of the interval for an end behind it, and on the machine it
is wrong if the upper bound and that integer lie on different sides of zero. -/

theorem toNat_sub_of_le {x y : Datum} (h : y.toInt ≤ x.toInt) :
    ((x - y).toNat : ℤ) = x.toInt - y.toInt := by
  have hx := x.isLt
  have hy := y.isLt
  rw [BitVec.toInt_eq_toNat_cond, BitVec.toInt_eq_toNat_cond] at h ⊢
  rw [BitVec.toNat_sub]
  split_ifs at h ⊢ <;> omega

/-- The machine compares a word with an `int` as unsigned words: on different sides of zero
the negative one is the greater. -/
theorem int32_word_lt_iff {x : Datum} {s : ℤ} (hs : FitsInt32 s) :
    CInt.int32.word x.toInt < CInt.int32.word s ↔
      if x.toInt < 0 ↔ s < 0 then x.toInt < s else s < 0 := by
  obtain ⟨hlo, hhi⟩ := hs
  have hlt := x.isLt
  change _ % _ < _ % _ ↔ _
  rw [BitVec.toInt_eq_toNat_cond]
  split_ifs <;> omega

/-- The number of integers that the row from `lower` to `upper` has among the
`width` integers from `first` on. -/
def overlapCard (lower upper first width : ℤ) : ℕ :=
  ((Finset.range width.toNat).filter fun d : ℕ => lower ≤ first + d ∧ first + d < upper).card

theorem overlapCard_eq (lower upper first width : ℤ) : (overlapCard lower upper first width : ℤ) =
    max 0 (min upper (first + width) - max lower first) := by
  have hfilter : (Finset.range width.toNat).filter
      (fun d : ℕ => lower ≤ first + d ∧ first + d < upper) =
        Finset.Ico (lower - first).toNat (min (upper - first) width).toNat := by
    ext d
    simp only [Finset.mem_filter, Finset.mem_range, Finset.mem_Ico]
    omega
  rw [overlapCard, hfilter, Nat.card_Ico]
  omega

/-- What the sweep takes for the number of integers of a row in an interval. -/
def countedCard (lower upper first width : ℤ) : ℤ :=
  overlapCard lower upper first width +
    if 1 < width ∧ upper = first + width - 1 then 1 else 0

/-- A row outside of the interval has no integers in it. -/
theorem countedCard_eq_zero {lower upper first width : ℤ}
    (h : upper ≤ first ∨ first + width ≤ lower) (hlt : lower < upper) :
    countedCard lower upper first width = 0 := by
  rw [countedCard, overlapCard_eq]
  split_ifs <;> omega

/-- The distance from the row's start to its end in the interval, where the last integer
of the interval is not told from a later one. -/
theorem countedCard_eq {lower upper first width : ℤ} (hwidth : 1 ≤ width) (hlt : lower < upper)
    (hstart : lower < first + width) (hend : first < upper) :
    countedCard lower upper first width =
      (if upper < first + width - 1 then upper else first + width) - max lower first := by
  rw [countedCard, overlapCard_eq]
  by_cases hshort : upper < first + width - 1
  · rw [if_pos hshort, if_neg fun hlast => hshort.ne hlast.2, min_eq_left (by omega),
      max_eq_right (by omega), add_zero]
  · rw [if_neg hshort]
    split_ifs <;> omega

/-- The end up to which the sweep counts a row in an interval. -/
def countedEnd (A : CInt) (upper : Datum) (first width : ℤ) : ℤ :=
  if A.word upper.toInt < A.word (first + width - 1) then upper.toInt else first + width

/-- The row reaches into the interval. -/
def Visited (lower upper first width : ℤ) : Prop :=
  lower < first + width ∧ (first ≤ lower ∨ first < upper)

/-- The row reaches into the interval, and its upper bound and the last integer of the
interval lie on different sides of zero; an upper bound right behind that integer does no
harm. -/
def CrossesZero (lower upper first width : ℤ) : Prop :=
  Visited lower upper first width ∧ ¬ (upper < 0 ↔ first + width - 1 < 0) ∧
    upper ≠ first + width

instance (lower upper first width : ℤ) : Decidable (CrossesZero lower upper first width) := by
  unfold CrossesZero Visited
  infer_instance

/-- The integers that such a row is counted with too many. -/
def signSlip (lower upper first width : ℤ) : ℤ :=
  if CrossesZero lower upper first width then ((upper - (first + width)).natAbs : ℤ) else 0

section Multiplicity

variable {A : CInt} {lower first width : ℤ} {upper : Datum}

/-- Above zero the comparison is the one of integers in every reading. -/
theorem countedEnd_of_nonneg (hupper : 0 ≤ upper.toInt) (hlast : 0 ≤ first + width - 1)
    (hsmall : first + width - 1 < 9223372036854775808) :
    countedEnd A upper first width =
      if upper.toInt < first + width - 1 then upper.toInt else first + width := by
  rw [countedEnd, A.word_of_nonneg hupper BitVec.toInt_lt, A.word_of_nonneg hlast hsmall]

/-- On the machine the end up to which a row is counted lies off by the slip. -/
theorem countedEnd_int32 (hvisited : Visited lower upper.toInt first width)
    (hlast : FitsInt32 (first + width - 1)) :
    countedEnd .int32 upper first width =
      (if upper.toInt < first + width - 1 then upper.toInt else first + width) +
        signSlip lower upper.toInt first width := by
  have hcmp := int32_word_lt_iff (x := upper) hlast
  by_cases hside : upper.toInt < 0 ↔ first + width - 1 < 0
  · rw [if_pos hside] at hcmp
    have hsame : ¬ CrossesZero lower upper.toInt first width := fun h => h.2.1 hside
    rw [countedEnd, if_congr hcmp rfl rfl, signSlip, if_neg hsame, add_zero]
  · rw [if_neg hside] at hcmp
    have hslip : signSlip lower upper.toInt first width =
        (upper.toInt - (first + width)).natAbs := by
      by_cases hnext : upper.toInt = first + width
      · rw [signSlip, if_neg fun h => h.2.2 hnext, hnext, sub_self]
        rfl
      · exact if_pos ⟨hvisited, hside, hnext⟩
    rw [countedEnd, if_congr hcmp rfl rfl, hslip]
    -- either one of the two is counted to where the other one lies
    by_cases hneg : first + width - 1 < 0
    · rw [if_pos hneg, if_neg (by omega)]
      omega
    · rw [if_neg hneg, if_pos (by omega)]
      omega

theorem signSlip_eq_zero_iff {upper : ℤ} :
    signSlip lower upper first width = 0 ↔ ¬ CrossesZero lower upper first width := by
  rw [signSlip]
  split_ifs with h
  · exact iff_of_false (by have := h.2.2; omega) (not_not_intro h)
  · exact iff_of_true rfl h

end Multiplicity

section Counts

variable (A : CInt) (lowers uppers : List (RangeBound Datum))

/-- The multiplicity of a row that an interval visits. -/
def multAt (first width : ℤ) (k : ℕ) : ℤ :=
  countedEnd A (wordAt uppers k) first width - max (valueAt lowers k) first

/-- The reading of `int` keeps the differences that the sweep computes in an interval. -/
structure KeepsMults (rows : ℕ) (first width : ℤ) : Prop where
  carried : ∀ k < rows, valueAt lowers k < first → first < valueAt uppers k →
    A.wrap (valueAt uppers k - first) = valueAt uppers k - first
  started : ∀ k < rows, first ≤ valueAt lowers k → valueAt lowers k < first + width →
    A.wrap (first + width - valueAt lowers k) = first + width - valueAt lowers k ∧
      A.wrap (valueAt uppers k - valueAt lowers k) = valueAt uppers k - valueAt lowers k

variable {A lowers uppers} {rows : ℕ} {intervalLength min : ℤ} {i : ℕ}

theorem mem_visitedAt_iff (hs : AscendingBounds lowers uppers rows) (hL : 0 ≤ intervalLength)
    {k : ℕ} :
    k ∈ visitedAt lowers uppers rows intervalLength min i ↔
      k < rows ∧ Visited (valueAt lowers k) (valueAt uppers k) (min + i * intervalLength)
        intervalLength := by
  rw [visitedAt, List.mem_append, mem_carried_iff _ _ hs, mem_started_iff _ _ hs, supBefore_succ,
    Visited, ← supBefore_add_one]
  omega

theorem lt_of_mem_visitedAt {k : ℕ} (hk : k ∈ visitedAt lowers uppers rows intervalLength min i) :
    k < rows := by
  rcases List.mem_append.mp hk with hk | hk <;>
    exact (List.Ico.mem.mp hk).2.trans_le (Nat.count_le _)

/-- What an interval adds up, if the reading of `int` keeps it. -/
theorem visits_eq (hs : AscendingBounds lowers uppers rows)
    (hkeep : KeepsMults A lowers uppers rows (min + i * intervalLength) intervalLength) :
    visits A lowers uppers rows intervalLength min i =
      (visitedAt lowers uppers rows intervalLength min i).map fun k =>
        (multAt A lowers uppers (min + i * intervalLength) intervalLength k, k) := by
  have hfirst := supBefore_add_one intervalLength min i
  have hsup : supBefore intervalLength min (i + 1) =
      min + i * intervalLength + intervalLength - 1 := by
    rw [supBefore_succ]
    omega
  rw [visits, visitedAt, List.map_append]
  refine congrArg₂ (· ++ ·) (List.map_congr_left fun k hk => ?_)
    (List.map_congr_left fun k hk => ?_)
  · -- a row that started before and has not ended
    obtain ⟨hrow, hlow, hup⟩ := (mem_carried_iff _ _ hs).mp hk
    rw [hfirst] at hup
    have hstart : valueAt lowers k < min + i * intervalLength := by omega
    have hprev : min + i * intervalLength + intervalLength - 1 - intervalLength + 1 =
        min + i * intervalLength := by ring
    rw [multAt, max_eq_right hstart.le, hsup, carriedMult, countedEnd, A.wrap_wrap_add,
      A.wrap_sub_wrap, hprev, hkeep.carried k hrow hstart hup, ite_sub, add_sub_cancel_left]
  · -- a row that starts here
    obtain ⟨hrow, hge, hlow⟩ := (mem_started_iff _ _ hs).mp hk
    rw [hsup] at hlow
    have hstart : min + i * intervalLength ≤ valueAt lowers k := by omega
    obtain ⟨hrest, hwhole⟩ := hkeep.started k hrow hstart (by omega)
    have hlast : 1 + (min + i * intervalLength + intervalLength - 1) - valueAt lowers k =
        min + i * intervalLength + intervalLength - valueAt lowers k := by ring
    rw [multAt, max_eq_left hstart, hsup, startedMult, countedEnd, A.wrap_wrap_sub, hlast, hrest,
      hwhole, ite_sub, ← ite_not]
    simp only [not_le]

variable (lowers uppers) in
/-- The share of the row at position `k` in an interval. -/
def shareAt (first width : ℤ) (k : ℕ) : ℚ :=
  (countedCard (valueAt lowers k) (valueAt uppers k) first width : ℚ) /
    ((valueAt uppers k - valueAt lowers k : ℤ) : ℚ)

/-- Without rounding, what a row that is not empty adds. -/
theorem exact_quotient {mult : ℤ} {lower upper : Datum} (hlt : lower.toInt < upper.toInt) :
    quotient .exact mult lower upper =
      .fin ((mult : ℚ) / ((upper.toInt - lower.toInt : ℤ) : ℚ)) := by
  have hden : ((upper - lower).toNat : ℚ) = ((upper.toInt - lower.toInt : ℤ) : ℚ) := by
    rw [← toNat_sub_of_le hlt.le]
    norm_cast
  have hne : ((upper.toInt - lower.toInt : ℤ) : ℚ) ≠ 0 := by
    have : upper.toInt - lower.toInt ≠ 0 := by omega
    exact_mod_cast this
  rw [quotient, CFloat.exact_div, hden]
  exact FloatQ.fin_div_fin hne

/-- Without rounding, what is added up for an interval is a sum over all rows, of which those
that it does not visit have no share. -/
theorem exact_sum_visitedAt (hsorted : SortedBounds lowers uppers rows)
    (hL : 0 ≤ intervalLength) {mult : ℕ → ℤ}
    (hzero : ∀ k < rows, ¬ Visited (valueAt lowers k) (valueAt uppers k)
      (min + i * intervalLength) intervalLength → mult k = 0) :
    CFloat.exact.sum ((visitedAt lowers uppers rows intervalLength min i).map fun k =>
        quotient .exact (mult k) (wordAt lowers k) (wordAt uppers k)) =
      .fin ((List.range rows).map fun k =>
        (mult k : ℚ) / ((valueAt uppers k - valueAt lowers k : ℤ) : ℚ)).sum := by
  set share : ℕ → ℚ := fun k => (mult k : ℚ) / ((valueAt uppers k - valueAt lowers k : ℤ) : ℚ)
  have hasc := hsorted.toAscendingBounds
  have hmem : ∀ {k}, k ∈ visitedAt lowers uppers rows intervalLength min i ↔ _ :=
    mem_visitedAt_iff hasc hL
  have hel := endedBefore_le_startedBefore intervalLength min hsorted i
  have hll' : startedBefore lowers rows intervalLength min i ≤
      startedBefore lowers rows intervalLength min (i + 1) :=
    startedBefore_mono intervalLength min hL i
  have hrows : startedBefore lowers rows intervalLength min (i + 1) ≤ rows := Nat.count_le _
  have hjoined : visitedAt lowers uppers rows intervalLength min i =
      List.Ico (endedBefore uppers rows intervalLength min i)
        (startedBefore lowers rows intervalLength min (i + 1)) :=
    List.Ico.append_consecutive hel hll'
  have hnone : ∀ ks : List ℕ, (∀ k ∈ ks, k < rows ∧
      k ∉ visitedAt lowers uppers rows intervalLength min i) → (ks.map share).sum = 0 := by
    intro ks hks
    refine List.sum_eq_zero fun x hx => ?_
    obtain ⟨k, hk, rfl⟩ := List.mem_map.mp hx
    obtain ⟨hrow, hout⟩ := hks k hk
    have hmult := hzero k hrow fun hin => hout (hmem.mpr ⟨hrow, hin⟩)
    simp only [share, hmult, Int.cast_zero, zero_div]
  -- the rows fall into three stretches, of which the middle one is visited
  have hsplit : List.range rows = List.Ico 0 (endedBefore uppers rows intervalLength min i) ++
      visitedAt lowers uppers rows intervalLength min i ++
      List.Ico (startedBefore lowers rows intervalLength min (i + 1)) rows := by
    rw [hjoined, List.Ico.append_consecutive (Nat.zero_le _) (hel.trans hll'),
      List.Ico.append_consecutive (Nat.zero_le _) hrows, List.Ico.zero_bot]
  have hbefore := hnone (List.Ico 0 (endedBefore uppers rows intervalLength min i)) fun k hk => by
    have hke := List.Ico.mem.mp hk
    exact ⟨by omega, by rw [hjoined, List.Ico.mem]; omega⟩
  have hbehind := hnone (List.Ico (startedBefore lowers rows intervalLength min (i + 1)) rows)
    fun k hk => by
      have hlk := List.Ico.mem.mp hk
      exact ⟨hlk.2, by rw [hjoined, List.Ico.mem]; omega⟩
  have hquotients : (visitedAt lowers uppers rows intervalLength min i).map (fun k =>
      quotient .exact (mult k) (wordAt lowers k) (wordAt uppers k)) =
        ((visitedAt lowers uppers rows intervalLength min i).map share).map .fin := by
    rw [List.map_map]
    exact List.map_congr_left fun k hk => exact_quotient (hsorted.lt k (hmem.mp hk).1)
  rw [hquotients, CFloat.exact_sum, hsplit, List.map_append, List.map_append,
    List.sum_append, List.sum_append, hbefore, hbehind, zero_add, add_zero]

variable (A lowers uppers) in
/-- An interval over sorted non-negative bounds: what is needed to read the words
as the numbers they hold. -/
structure PlainInterval (rows : ℕ) (intervalLength min : ℤ) (i : ℕ) : Prop where
  sorted : SortedBounds lowers uppers rows
  keeps : KeepsBounds A lowers uppers rows
  widthPos : 1 ≤ intervalLength
  widthKept : A.wrap intervalLength = intervalLength
  minNonneg : 0 ≤ min
  small : supBefore intervalLength min (i + 1) < 9223372036854775808

namespace PlainInterval

variable (h : PlainInterval A lowers uppers rows intervalLength min i)

include h

theorem first_nonneg : 0 ≤ min + i * intervalLength := by
  have hwidth := h.widthPos
  exact add_nonneg h.minNonneg (by positivity)

theorem keepsMults :
    KeepsMults A lowers uppers rows (min + i * intervalLength) intervalLength where
  carried k hrow hstart hend := by
    have hfirst := h.first_nonneg
    exact A.wrap_of_between A.wrap_zero (h.keeps.upper k hrow) (by omega) (by omega)
  started k hrow hge hlow := by
    have hfirst := h.first_nonneg
    have hlt := h.sorted.lt k hrow
    exact ⟨A.wrap_of_between A.wrap_zero h.widthKept (by omega) (by omega),
      A.wrap_of_between A.wrap_zero (h.keeps.upper k hrow) (by omega) (by omega)⟩

/-- A row that reaches into the interval is counted with its integers there, except that
one which ends at the last of them is taken to reach over it. -/
theorem multAt_eq {k : ℕ} (hrow : k < rows) (hvisited : Visited (valueAt lowers k)
      (valueAt uppers k) (min + i * intervalLength) intervalLength) :
    multAt A lowers uppers (min + i * intervalLength) intervalLength k =
      countedCard (valueAt lowers k) (valueAt uppers k) (min + i * intervalLength)
        intervalLength := by
  have hfirst := h.first_nonneg
  have hwidth := h.widthPos
  have hlt := h.sorted.lt k hrow
  have hsmall := h.small
  rw [supBefore_succ] at hsmall
  have hadd := supBefore_add_one intervalLength min i
  obtain ⟨hstart, hin⟩ := hvisited
  have hend : min + i * intervalLength < valueAt uppers k := by omega
  rw [multAt, countedEnd_of_nonneg (hfirst.trans hend.le) (by omega) (by omega),
    countedCard_eq hwidth hlt hstart hend]

/-- What the sweep stores for the interval. -/
theorem bucketAt_count_eq :
    (bucketAt A .exact lowers uppers rows intervalLength min i).count =
      .fin ((List.range rows).map
        (shareAt lowers uppers (min + i * intervalLength) intervalLength)).sum := by
  have hL : 0 ≤ intervalLength := by have := h.widthPos; omega
  have hasc := h.sorted.toAscendingBounds
  rw [bucketAt_count, visits_eq hasc h.keepsMults, List.map_map,
    List.map_congr_left (fun k hk => ?_), exact_sum_visitedAt h.sorted hL fun k hrow hout => ?_]
  · rfl
  · have hlt := h.sorted.lt k hrow
    exact countedCard_eq_zero (by unfold Visited at hout; omega) hlt
  · obtain ⟨hrow, hvisited⟩ := (mem_visitedAt_iff hasc hL).mp hk
    rw [Function.comp_apply, h.multAt_eq hrow hvisited]

end PlainInterval

end Counts

end PgRange.Stats
