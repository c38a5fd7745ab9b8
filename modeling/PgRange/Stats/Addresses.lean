import PgRange.Stats.FrequencyCall

/-!
# The frequency histogram and the addresses of the sample

A `Datum` holds a value of a pass-by-value type, and the address of a value of any
other type: for those the bounds that `range_deserialize` returns point into the
range. `ComputeFrequencyHistogram` calculates with the `Datum` in either case.

A run is described by the addresses at which the sampled ranges lie. Its values are
`Placed` values, of which the comparison sees the value and the histogram the
`Datum`. Forgetting the addresses is the abstraction that the two runs share. What a run
finds where nothing was written is not determined by the sample at all.

## Main results

* `frequencySlot_place` — for a pass-by-value type a run is the run on the values
* `frequencySlot_placement_free_iff` — runs on one sample are alike for such a type and two
  non-empty ranges, and not otherwise
-/

set_option autoImplicit false

namespace PgRange.Stats

open Math

/-- A value and the address where it is stored. -/
structure Placed (V : Type) where
  addr : ℕ
  value : V

variable {V : Type} [Inhabited V]

/-- The null pointer. -/
instance : Inhabited (Placed V) := ⟨⟨0, default⟩⟩

/-- The element type of a range type, as the type cache describes it. -/
structure RangeSubtype (V : Type) [Inhabited V] where
  typcache : TypeCacheEntry V
  transCmp : Std.TransCmp typcache.cmp
  typbyval : Bool
  /-- The `Datum` of a value that is passed by value. -/
  toDatum : V → Datum
  toDatum_default : toDatum default = 0
  /-- `att_addlength_pointer` and `att_align_pointer`: from a stored lower bound to the
  address of the upper one. -/
  nextAddr : ℕ → V → ℕ

namespace RangeSubtype

variable (T : RangeSubtype V)

/-- `fetch_att`. -/
def fetchAtt (p : Placed V) : Datum :=
  if T.typbyval then T.toDatum p.value else BitVec.ofNat 64 p.addr

/-- The type cache entry as seen by a run. The comparison and the difference
dereference their arguments; the statistics call no canonical function. -/
def placedTypcache : TypeCacheEntry (Placed V) where
  cmp p q := T.typcache.cmp p.value q.value
  rngCanonical := none
  rngSubdiff := T.typcache.rngSubdiff.map fun subdiff p q => subdiff p.value q.value

/-- A range that is stored at address `base`: the bounds follow the header and the
range type's OID. -/
def placeRange (base : ℕ) (r : RangeType V) : RangeType (Placed V) where
  flags := r.flags
  lbound := ⟨base + 8, r.lbound⟩
  ubound := ⟨if r.flags.hasLbound then T.nextAddr (base + 8) r.lbound else base + 8, r.ubound⟩

/-- A sample whose rows from number `i` on lie at the given addresses. -/
def placeSample (base : ℕ → ℕ) :
    ℕ → List (Option (SampleValue V)) → List (Option (SampleValue (Placed V)))
  | _, [] => []
  | i, row :: rows =>
    row.map (fun v => ⟨v.varsize, T.placeRange (base i) v.range⟩) :: placeSample base (i + 1) rows

end RangeSubtype

/-- An assignment of addresses to the values of a sample: each lies in memory, and no two
overlap. -/
structure Placement (sample : List (Option (SampleValue V))) where
  base : ℕ → ℕ
  inMemory : ∀ i v, sample[i]? = some (some v) → base i + v.varsize ≤ 2 ^ 64
  apart : ∀ i j v w, i < j → sample[i]? = some (some v) → sample[j]? = some (some w) →
    base i + v.varsize ≤ base j ∨ base j + w.varsize ≤ base i

/-- What `compute_range_stats` stores as the frequency histogram, if it gets there. -/
def frequencySlot {α : Type} [Inhabited α] (A : CInt) (R : CFloat) (word : α → Datum)
    (typcache : TypeCacheEntry α) (target : StatTarget)
    (sample : List (Option (SampleValue α))) : Except Fault (Option FrequencySlot) :=
  (computeRangeStats A R word typcache target sample).map fun stats =>
    stats.bind fun s => s.slots.map RangeSlots.frequencies

/-- The frequency histogram of a run. -/
def RangeSubtype.placedSlot (T : RangeSubtype V) (target : StatTarget)
    (sample : List (Option (SampleValue V))) (p : Placement sample) :
    Except Fault (Option FrequencySlot) :=
  frequencySlot .int32 .float4 T.fetchAtt T.placedTypcache target (T.placeSample p.base 0 sample)

/-! ### The slot -/

section Slot

variable {α : Type} [Inhabited α]

/-- The slot depends on the sample only through the call. -/
theorem frequencySlot_eq (A : CInt) (R : CFloat) (word : α → Datum) (typcache : TypeCacheEntry α)
    (target : StatTarget) (sample : List (Option (SampleValue α))) :
    frequencySlot A R word typcache target sample =
      (frequencyCall typcache target sample).bind fun result =>
        match result with
        | some (call, _) => (call.run A R word).map fun (grid, buckets) =>
            some ⟨grid.nbOfIntervals, buckets.map Bucket.count⟩
        | none => .ok none := by
  unfold frequencySlot computeRangeStats
  cases frequencyCall typcache target sample with
  | error e => rfl
  | ok result =>
    cases result with
    | none =>
      by_cases hnull : (scanSample typcache sample).nullCnt > 0
      · simp [bind, Except.bind, Except.map, hnull, pure, Except.pure]
      · simp [bind, Except.bind, Except.map, hnull, pure, Except.pure]
    | some call =>
      obtain ⟨call, bounds⟩ := call
      cases hrun : call.run A R word with
      | error e => simp [bind, Except.bind, Except.map, hrun]
      | ok out => simp [bind, Except.bind, Except.map, hrun, pure, Except.pure]

/-- With two non-empty ranges nothing is read that was not written. -/
theorem frequencySlot_ne_uninitializedRead (A : CInt) (R : CFloat) (word : α → Datum)
    {typcache : TypeCacheEntry α} (htrans : Std.TransCmp typcache.cmp) (target : StatTarget)
    {sample : List (Option (SampleValue α))}
    (hordered : ∀ p ∈ nonEmptyParts sample, (rangeCmpBounds typcache.cmp p.lower p.upper).isLE)
    (htwo : 2 ≤ (nonEmptyParts sample).length) :
    frequencySlot A R word typcache target sample ≠ .error .uninitializedRead := by
  obtain ⟨call, hcall, -⟩ := frequencyCall_run target htrans hordered htwo
  rw [frequencySlot_eq, hcall]
  intro hread
  exact (frequencyCall_filled htwo hcall).run_ne_uninitializedRead A R word
    (map_eq_error_iff.mp hread)

/-- With fewer the arrays are read through pointers that were never assigned. -/
theorem frequencySlot_of_few (A : CInt) (R : CFloat) (word : α → Datum)
    (typcache : TypeCacheEntry α) (target : StatTarget)
    {sample : List (Option (SampleValue α))} (hvalue : 1 ≤ (sample.filterMap id).length)
    (hfew : ¬ 2 ≤ (nonEmptyParts sample).length) :
    frequencySlot A R word typcache target sample = .error .uninitializedRead := by
  rw [frequencySlot_eq, frequencyCall_of_few typcache target hfew,
    if_pos (Nat.lt_of_succ_le hvalue)]
  rfl

end Slot

/-! ### Forgetting the addresses -/

section Erase

/-- The bound without its address. -/
def eraseBound (b : RangeBound (Placed V)) : RangeBound V :=
  ⟨b.val.value, b.infinite, b.inclusive, b.lower⟩

/-- The bounds of a range without their addresses. -/
def eraseParts (p : RangeParts (Placed V)) : RangeParts V :=
  ⟨eraseBound p.lower, eraseBound p.upper, p.empty⟩

variable (T : RangeSubtype V)

theorem eraseParts_placeRange (base : ℕ) (r : RangeType V) :
    eraseParts (rangeDeserialize (T.placeRange base r)) = rangeDeserialize r := by
  unfold eraseParts eraseBound rangeDeserialize RangeSubtype.placeRange
  cases r.flags.hasLbound <;> cases r.flags.hasUbound <;> rfl

theorem nonEmptyParts_placeSample (base : ℕ → ℕ) (i : ℕ) (sample : List (Option (SampleValue V))) :
    (nonEmptyParts (T.placeSample base i sample)).map eraseParts = nonEmptyParts sample := by
  induction sample generalizing i with
  | nil => rfl
  | cons row sample ih =>
    have hrest := ih (i + 1)
    unfold nonEmptyParts at hrest ⊢
    cases row with
    | none => simpa [RangeSubtype.placeSample] using hrest
    | some v =>
      cases hempty : v.range.flags.empty with
      | true =>
        simpa [RangeSubtype.placeSample, RangeSubtype.placeRange, hempty] using hrest
      | false =>
        have hparts := eraseParts_placeRange T (base i) v.range
        simpa [RangeSubtype.placeSample, RangeSubtype.placeRange, hempty, hrest] using hparts

theorem filterMap_placeSample_length (base : ℕ → ℕ) (i : ℕ)
    (sample : List (Option (SampleValue V))) :
    ((T.placeSample base i sample).filterMap id).length = (sample.filterMap id).length := by
  induction sample generalizing i with
  | nil => rfl
  | cons row sample ih =>
    rw [RangeSubtype.placeSample]
    cases row with
    | none => exact ih (i + 1)
    | some v => exact congrArg (· + 1) (ih (i + 1))

variable (base : ℕ → ℕ) (sample : List (Option (SampleValue V)))

theorem length_nonEmptyParts_placeSample :
    (nonEmptyParts (T.placeSample base 0 sample)).length = (nonEmptyParts sample).length := by
  rw [← nonEmptyParts_placeSample T base 0 sample, List.length_map]

theorem rangeCmpBounds_eraseBound (a b : RangeBound (Placed V)) :
    rangeCmpBounds T.typcache.cmp (eraseBound a) (eraseBound b) =
      rangeCmpBounds T.placedTypcache.cmp a b := rfl

theorem eraseBound_sortedLowers :
    (sortedLowers T.placedTypcache (T.placeSample base 0 sample)).map eraseBound =
      sortedLowers T.typcache sample := by
  have hmap : (nonEmptyParts sample).map RangeParts.lower =
      ((nonEmptyParts (T.placeSample base 0 sample)).map RangeParts.lower).map eraseBound := by
    rw [← nonEmptyParts_placeSample T base 0 sample, List.map_map, List.map_map]
    rfl
  rw [sortedLowers, sortedLowers, hmap]
  exact (sortBy_map (rangeCmpBounds_eraseBound T) _).symm

theorem eraseBound_sortedUppers :
    (sortedUppers T.placedTypcache (T.placeSample base 0 sample)).map eraseBound =
      sortedUppers T.typcache sample := by
  have hmap : (nonEmptyParts sample).map RangeParts.upper =
      ((nonEmptyParts (T.placeSample base 0 sample)).map RangeParts.upper).map eraseBound := by
    rw [← nonEmptyParts_placeSample T base 0 sample, List.map_map, List.map_map]
    rfl
  rw [sortedUppers, sortedUppers, hmap]
  exact (sortBy_map (rangeCmpBounds_eraseBound T) _).symm

theorem callPositions_placeSample (target : StatTarget) :
    callPositions target (T.placeSample base 0 sample) = callPositions target sample := by
  simp only [callPositions, length_nonEmptyParts_placeSample]

variable {T}

/-- A value passed by value has the same `Datum` wherever it lies. -/
theorem boundToWord_fetchAtt (hbyval : T.typbyval = true) (b : RangeBound (Placed V)) :
    boundToWord T.fetchAtt b = boundToWord T.toDatum (eraseBound b) := by
  simp [boundToWord, RangeSubtype.fetchAtt, hbyval, eraseBound]

/-- The word at a position of an array, for a type that is passed by value. -/
theorem fetchAtt_getD (hbyval : T.typbyval = true) {placed : List (RangeBound (Placed V))}
    {bounds : List (RangeBound V)} (h : placed.map eraseBound = bounds) (k : ℕ) :
    T.fetchAtt (placed.getD k default).val = T.toDatum (bounds.getD k default).val := by
  have hget : bounds.getD k default = eraseBound (placed.getD k default) := by
    rw [← h]
    exact List.getD_map placed default eraseBound
  rw [hget]
  simp [RangeSubtype.fetchAtt, hbyval, eraseBound]

/-- The arrays of the call, for a type that is passed by value. -/
theorem map_fetchAtt (hbyval : T.typbyval = true) {placed : List (RangeBound (Placed V))}
    {bounds : List (RangeBound V)} (h : placed.map eraseBound = bounds) (positions : List ℕ) :
    (positions.map fun pos => placed.getD pos default).map (boundToWord T.fetchAtt) =
      (positions.map fun pos => bounds.getD pos default).map (boundToWord T.toDatum) := by
  rw [List.map_map, List.map_map]
  refine List.map_congr_left fun pos _ => ?_
  simp only [Function.comp_apply]
  rw [boundToWord_fetchAtt hbyval, ← h]
  congr 1
  exact (List.getD_map placed default eraseBound).symm

end Erase

/-! ### Two runs -/

section Runs

variable (T : RangeSubtype V) (target : StatTarget) {sample : List (Option (SampleValue V))}

instance : Std.TransCmp T.placedTypcache.cmp :=
  { eq_swap := T.transCmp.eq_swap
    isLE_trans := T.transCmp.isLE_trans }

theorem ordered_placeSample (base : ℕ → ℕ)
    (hvalues : ∀ v, some v ∈ sample → T.typcache.IsValue v.range) :
    ∀ p ∈ nonEmptyParts (T.placeSample base 0 sample),
      (rangeCmpBounds T.placedTypcache.cmp p.lower p.upper).isLE := by
  intro p hp
  have hmem := List.mem_map_of_mem (f := eraseParts) hp
  rw [nonEmptyParts_placeSample] at hmem
  exact ordered_of_isValue hvalues _ hmem

/-- For a type that is passed by value, a run on placed values is the run on the
values. -/
theorem frequencySlot_place (hbyval : T.typbyval = true) (base : ℕ → ℕ)
    (hvalues : ∀ v, some v ∈ sample → T.typcache.IsValue v.range) :
    frequencySlot .int32 .float4 T.fetchAtt T.placedTypcache target
        (T.placeSample base 0 sample) =
      frequencySlot .int32 .float4 T.toDatum T.typcache target sample := by
  have hlength := length_nonEmptyParts_placeSample T base sample
  rw [frequencySlot_eq, frequencySlot_eq]
  by_cases htwo : 2 ≤ (nonEmptyParts sample).length
  · obtain ⟨call, hcall, hrun⟩ := frequencyCall_run target T.transCmp
      (ordered_of_isValue hvalues) htwo
    obtain ⟨call', hcall', hrun'⟩ := frequencyCall_run target
      (inferInstance : Std.TransCmp T.placedTypcache.cmp) (ordered_placeSample T base hvalues)
      (hlength ▸ htwo)
    have hlow := eraseBound_sortedLowers T base sample
    have hup := eraseBound_sortedUppers T base sample
    simp only [hcall, hcall', Except.bind]
    rw [hrun, hrun', hlength, fetchAtt_getD hbyval hlow, fetchAtt_getD hbyval hup]
    simp only [callLowers, callUppers, callPositions_placeSample, map_fetchAtt hbyval hlow,
      map_fetchAtt hbyval hup]
  · -- too few values for a histogram: neither run has arrays
    rw [frequencyCall_of_few _ _ htwo, frequencyCall_of_few _ _ (hlength ▸ htwo),
      filterMap_placeSample_length]
    split_ifs <;> rfl

end Runs

/-! ### A type that is passed by reference -/

/-- The range `[v,)`, `n` times. -/
def halfLineSample (n : ℕ) (v : V) : List (Option (SampleValue V)) :=
  List.replicate n (some ⟨17, packRange ⟨v, false, true, true⟩ ⟨default, true, false, false⟩⟩)

/-- Rows that lie four gigabytes apart, each `8 * m` bytes below a multiple of the range
of `int`. -/
def placementBelow (sample : List (Option (SampleValue V))) (hrows : sample.length ≤ 2147483648)
    (hsize : ∀ v, some v ∈ sample → v.varsize ≤ 2 ^ 30) (m : ℕ) : Placement sample where
  base i := 2 ^ 33 - 8 * m + i * 2 ^ 32
  inMemory i v hi := by
    have hlt := (List.getElem?_eq_some_iff.mp hi).1
    have hv := hsize v (List.mem_of_getElem? hi)
    omega
  apart i j v w hij hi hj := by
    have hv := hsize v (List.mem_of_getElem? hi)
    exact Or.inl (by omega)

theorem halfLineSample_size {n : ℕ} {v : V} :
    ∀ x, some x ∈ halfLineSample n v → x.varsize ≤ 2 ^ 30 := by
  intro x hx
  obtain rfl : x = _ := Option.some.inj (List.eq_of_mem_replicate hx)
  norm_num

/-- The placement of a sample of half-lines. -/
def halfLinesBelow {n : ℕ} (hn : n ≤ 2147483647) (v : V) (m : ℕ) :
    Placement (halfLineSample n v) :=
  placementBelow _ (by rw [halfLineSample, List.length_replicate]; omega) halfLineSample_size m

section ByReference

variable (T : RangeSubtype V) (v : V) (n : ℕ)

theorem halfLineSample_isValue :
    ∀ x, some x ∈ halfLineSample n v → T.typcache.IsValue x.range := by
  intro x hx
  obtain rfl : x = _ := Option.some.inj (List.eq_of_mem_replicate hx)
  refine ⟨⟨⟨rfl, rfl⟩, ?_, ?_, ?_⟩, fun _ => rfl, fun _ _ => ⟨fun _ => rfl, ?_⟩⟩
  · intro h
    exact absurd h (by simp [packRange])
  · intro h
    exact absurd h (by simp [packRange])
  · intro _
    rfl
  · intro h
    exact absurd h (by simp [packRange])

/-- The bounds of the placed rows. -/
theorem nonEmptyParts_halfLineSample (base : ℕ → ℕ) (i : ℕ) :
    nonEmptyParts (T.placeSample base i (halfLineSample n v)) =
      (List.range n).map fun j =>
        ⟨⟨⟨base (i + j) + 8, v⟩, false, true, true⟩, ⟨default, true, false, false⟩, false⟩ := by
  induction n generalizing i with
  | zero => rfl
  | succ n ih =>
    rw [List.range_succ_eq_map, List.map_cons, List.map_map]
    refine congrArg₂ List.cons rfl ((ih (i + 1)).trans (List.map_congr_left fun j _ => ?_))
    rw [Function.comp_apply, Nat.succ_add_eq_add_succ]

theorem length_nonEmptyParts_halfLineSample : (nonEmptyParts (halfLineSample n v)).length = n := by
  induction n with
  | zero => rfl
  | succ n ih => exact congrArg (· + 1) ih

theorem length_filterMap_halfLineSample : ((halfLineSample n v).filterMap id).length = n := by
  induction n with
  | zero => rfl
  | succ n ih => exact congrArg (· + 1) ih

variable {T n}

/-- Wherever a lower bound is found among the placed rows, the last 32 bits of its
address are the same. -/
theorem wrap_fetchAtt_lower (hbyref : T.typbyval = false) (hn : n ≤ 2147483647) {m : ℕ}
    (hm : m ≤ 100) (hm1 : 1 ≤ m) {b : RangeBound (Placed V)}
    (hb : b ∈ (nonEmptyParts (T.placeSample (halfLinesBelow hn v m).base 0
      (halfLineSample n v))).map RangeParts.lower) :
    CInt.int32.wrap (T.fetchAtt b.val).toInt = -(8 * m - 8) := by
  rw [nonEmptyParts_halfLineSample, List.map_map] at hb
  obtain ⟨i, hi, rfl⟩ := List.mem_map.mp hb
  have hlt := List.mem_range.mp hi
  have hword : T.fetchAtt ⟨2 ^ 33 - 8 * m + (0 + i) * 2 ^ 32 + 8, v⟩ =
      BitVec.ofNat 64 (2 ^ 33 - 8 * m + i * 2 ^ 32 + 8) := by
    rw [RangeSubtype.fetchAtt, hbyref, if_neg Bool.false_ne_true, Nat.zero_add]
  change CInt.int32.wrap (T.fetchAtt ⟨2 ^ 33 - 8 * m + (0 + i) * 2 ^ 32 + 8, v⟩).toInt = _
  rw [hword, CInt.int32_wrap, CInt.wrap32, BitVec.toInt_ofNat', Int.bmod]
  split_ifs <;> omega

/-- The absent upper bounds are null pointers. -/
theorem fetchAtt_upper (hbyref : T.typbyval = false) {base : ℕ → ℕ} {b : RangeBound (Placed V)}
    (hb : b ∈ (nonEmptyParts (T.placeSample base 0 (halfLineSample n v))).map RangeParts.upper) :
    T.fetchAtt b.val = int4Word 0 := by
  rw [nonEmptyParts_halfLineSample, List.map_map] at hb
  obtain ⟨i, -, rfl⟩ := List.mem_map.mp hb
  rw [RangeSubtype.fetchAtt, hbyref]
  rfl

/-- What `ComputeFrequencyHistogram` reads as the minimum is the tail of an address,
and what it reads as the maximum is the null pointer of the absent bound. The number
of intervals counts the bytes in between. -/
theorem placedSlot_halfLineSample (hbyref : T.typbyval = false) (target : StatTarget)
    (htwo : 2 ≤ n) (hn : n ≤ 2147483647) {m : ℕ} (hm : m ≤ 100) (hm1 : 1 ≤ m) :
    ∃ counts, T.placedSlot target (halfLineSample n v) (halfLinesBelow hn v m) =
      .ok (some ⟨intervalCount (8 * m - 7), counts⟩) := by
  have hlength : (nonEmptyParts (T.placeSample (halfLinesBelow hn v m).base 0
      (halfLineSample n v))).length = n := by
    rw [nonEmptyParts_halfLineSample, List.length_map, List.length_range]
  obtain ⟨call, hcall, hrun⟩ := frequencyCall_run target
    (inferInstance : Std.TransCmp T.placedTypcache.cmp)
    (ordered_placeSample T (halfLinesBelow hn v m).base (halfLineSample_isValue T v n))
    (by rw [hlength]; exact htwo)
  have hlow := wrap_fetchAtt_lower v hbyref hn hm hm1 (sortBy_getD_mem
    (rangeCmpBounds T.placedTypcache.cmp) (k := 0) (by rw [List.length_map, hlength]; omega)
    default)
  have hup := fetchAtt_upper v hbyref (sortBy_getD_mem (rangeCmpBounds T.placedTypcache.cmp)
    (l := (nonEmptyParts (T.placeSample (halfLinesBelow hn v m).base 0
      (halfLineSample n v))).map RangeParts.upper)
    (k := (nonEmptyParts (T.placeSample (halfLinesBelow hn v m).base 0
      (halfLineSample n v))).length - 1) (by rw [List.length_map, hlength]; omega) default)
  have hfits : FitsInt32 (-(8 * m - 8)) := ⟨by omega, by omega⟩
  have hgrid : chooseIntervals .int32 (int4Word (-(8 * m - 8))) (int4Word 0) =
      .ok (.ofSpan (-(8 * m - 8)) 0) := by
    have hchoose := chooseIntervals_eq .int32 (int4Word (-(8 * m - 8))) (int4Word 0)
    rw [toInt_int4Word hfits, toInt_int4Word (by decide)] at hchoose
    exact hchoose (by omega) (CInt.wrap_of_fits _ hfits) (CInt.wrap_zero _)
      (CInt.wrap_of_fits _ ⟨by omega, by omega⟩)
  have hchosen := chooseIntervals_congr .int32
    (hlow.trans (by rw [toInt_int4Word hfits, CInt.wrap_of_fits _ hfits] : _ =
      CInt.int32.wrap (int4Word (-(8 * m - 8))).toInt)) (congrArg (CInt.int32.wrap ·.toInt) hup)
  obtain ⟨buckets, hbuckets⟩ :=
    (exists_buckets_iff .int32 .float4 _ _ _ _ _).mpr (hchosen.trans hgrid)
  refine ⟨buckets.map Bucket.count, ?_⟩
  have hnb : (Grid.ofSpan (-(8 * m - 8)) 0).nbOfIntervals = intervalCount (8 * m - 7) := by
    change intervalCount (0 - -(8 * m - 8) + 1) = _
    congr 1
    omega
  unfold RangeSubtype.placedSlot
  rw [frequencySlot_eq, hcall]
  simp only [Except.bind]
  rw [(hrun .int32 .float4 T.fetchAtt).trans hbuckets, ← hnb]
  rfl

end ByReference

/-! ### When the runs are alike -/

/-- An empty range and fewer than two others: the run reads what was not written. -/
theorem exists_uninitializedRead_of_few (T : RangeSubtype V) {k : ℕ} (hk : k ≤ 2147483647)
    (hfew : ¬ 2 ≤ k) :
    ∃ sample : List (Option (SampleValue V)),
      (∀ v, some v ∈ sample → T.typcache.IsValue v.range) ∧
      1 ≤ (sample.filterMap id).length ∧ (nonEmptyParts sample).length = k ∧
      ∃ p : Placement sample,
        T.placedSlot defaultTarget sample p = .error .uninitializedRead := by
  let sample : List (Option (SampleValue V)) := some ⟨9, emptyRange⟩ :: halfLineSample k default
  have hlength : (nonEmptyParts sample).length = k := length_nonEmptyParts_halfLineSample default k
  have hvalue : 1 ≤ (sample.filterMap id).length := Nat.succ_le_succ (Nat.zero_le _)
  have hvalues : ∀ v, some v ∈ sample → T.typcache.IsValue v.range := by
    intro v hv
    rcases List.mem_cons.mp hv with heq | hv
    · obtain rfl := Option.some.inj heq
      exact ⟨⟨⟨rfl, rfl⟩, fun _ => rfl, nofun, nofun⟩, nofun, fun _ => nofun⟩
    · exact halfLineSample_isValue T default k v hv
  have hsize : ∀ v, some v ∈ sample → v.varsize ≤ 2 ^ 30 := by
    intro v hv
    rcases List.mem_cons.mp hv with heq | hv
    · obtain rfl := Option.some.inj heq
      norm_num
    · exact halfLineSample_size v hv
  have hrows : sample.length ≤ 2147483648 := by
    simp only [sample, halfLineSample, List.length_cons, List.length_replicate]
    omega
  refine ⟨sample, hvalues, hvalue, hlength, placementBelow sample hrows hsize 0, ?_⟩
  refine frequencySlot_of_few _ _ _ _ _ ?_ ?_
  · rw [filterMap_placeSample_length]
    exact hvalue
  · rw [length_nonEmptyParts_placeSample, hlength]
    exact hfew

/-- The runs on every sample with `k` non-empty ranges and a value at all store the same
frequency histogram, and read only what was written, exactly if the values of the type are
passed by value and `k` is at least two. The number of rows is an `int`. -/
theorem frequencySlot_placement_free_iff (T : RangeSubtype V) {k : ℕ} (hk : k ≤ 2147483647) :
    (∀ (target : StatTarget) (sample : List (Option (SampleValue V))),
      (∀ v, some v ∈ sample → T.typcache.IsValue v.range) →
      1 ≤ (sample.filterMap id).length → (nonEmptyParts sample).length = k →
      ∀ p1 p2 : Placement sample,
        T.placedSlot target sample p1 = T.placedSlot target sample p2 ∧
          T.placedSlot target sample p1 ≠ .error .uninitializedRead) ↔
    T.typbyval = true ∧ 2 ≤ k := by
  constructor
  · intro hfree
    have htwo : 2 ≤ k := by
      by_contra hfew
      obtain ⟨sample, hvalues, hvalue, hlength, p, hread⟩ :=
        exists_uninitializedRead_of_few T hk hfew
      exact (hfree defaultTarget sample hvalues hvalue hlength p p).2 hread
    refine ⟨?_, htwo⟩
    by_contra hbyref
    rw [Bool.not_eq_true] at hbyref
    obtain ⟨counts1, hrun1⟩ := placedSlot_halfLineSample (default : V) hbyref defaultTarget htwo hk
      (m := 2) (by omega) (by omega)
    obtain ⟨counts2, hrun2⟩ := placedSlot_halfLineSample (default : V) hbyref defaultTarget htwo hk
      (m := 3) (by omega) (by omega)
    have hvalue : 1 ≤ ((halfLineSample k (default : V)).filterMap id).length := by
      rw [length_filterMap_halfLineSample]
      omega
    have heq := (hfree defaultTarget (halfLineSample k default) (halfLineSample_isValue T default k)
      hvalue (length_nonEmptyParts_halfLineSample default k) (halfLinesBelow hk default 2)
      (halfLinesBelow hk default 3)).1
    rw [hrun1, hrun2] at heq
    -- nine intervals in one run, seventeen in the other
    simp only [Except.ok.injEq, Option.some.injEq, FrequencySlot.mk.injEq] at heq
    exact absurd heq.1 (by decide)
  · rintro ⟨hbyval, htwo⟩ target sample hvalues - rfl p1 p2
    unfold RangeSubtype.placedSlot
    rw [frequencySlot_place T target hbyval p1.base hvalues,
      frequencySlot_place T target hbyval p2.base hvalues]
    exact ⟨rfl, frequencySlot_ne_uninitializedRead _ _ _ T.transCmp _
      (ordered_of_isValue hvalues) htwo⟩

/-- The element type of `int4range`, passed by value. -/
def int4 : RangeSubtype ℤ where
  typcache := int4range
  transCmp := TypeCacheEntry.Indexable.transCmp .int4range
  typbyval := true
  toDatum := int4Word
  toDatum_default := rfl
  nextAddr addr _ := addr + 4

/-- The `int4range` column `[1,5)`, null, `[3,9)` at some place. -/
def overlappingBelow (m : ℕ) : Placement overlappingSample :=
  placementBelow overlappingSample (by decide) (by simp [overlappingSample]) m

/-- Two runs over that column, with the sample eight bytes apart. -/
theorem frequencySlot_placement_free_iff_int4 :
    int4.placedSlot defaultTarget overlappingSample (overlappingBelow 0) =
        int4.placedSlot defaultTarget overlappingSample (overlappingBelow 1) ∧
      int4.placedSlot defaultTarget overlappingSample (overlappingBelow 0) ≠
        .error .uninitializedRead := by
  refine (frequencySlot_placement_free_iff int4 (k := 2) (by decide)).mpr ⟨rfl, le_rfl⟩
    defaultTarget overlappingSample (fun v hv => ?_) (by decide) rfl _ _
  simp only [overlappingSample, List.mem_cons, Option.some.injEq, List.not_mem_nil, or_false,
    reduceCtorEq, false_or] at hv
  rcases hv with rfl | rfl
  · exact int4range_isValue (by decide)
  · exact int4range_isValue (by decide)

/-- The element type of `numrange`: exact numbers, passed by reference. -/
def numeric (nextAddr : ℕ → ℚ → ℕ) : RangeSubtype ℚ where
  typcache :=
    { cmp := compare
      rngCanonical := none
      rngSubdiff := some fun x y => x - y }
  transCmp := inferInstanceAs (Std.TransCmp (compare : ℚ → ℚ → Ordering))
  typbyval := false
  toDatum _ := 0
  toDatum_default := rfl
  nextAddr := nextAddr

/-- Two runs over the `numrange` column `[1,)`, `[1,)`: nine intervals with the sample
at one place, seventeen with the sample eight bytes before it. -/
theorem placedSlot_numrange :
    let numrange := numeric fun addr _ => addr + 5
    (numrange.placedSlot defaultTarget (halfLineSample 2 1) (halfLinesBelow (by decide) 1 2)).map
        (Option.map FrequencySlot.numvalues) = .ok (some 9) ∧
      (numrange.placedSlot defaultTarget (halfLineSample 2 1) (halfLinesBelow (by decide) 1 3)).map
        (Option.map FrequencySlot.numvalues) = .ok (some 17) := by
  decide +kernel

end PgRange.Stats
