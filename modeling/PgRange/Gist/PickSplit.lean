import PgRange.Gist.DoubleSort

/-!
# Choosing a split

`range_gist_picksplit` counts the entries of each class. Entries of one class are split by the
method for the class, entries of several classes along the classes.

Every method is described by its placements (`PlacesAll`): each offset is placed once, and one
condition says when both sides get an entry. What holds for all splits then follows from
`placeAll_spec`, and whether a split is one at all from the condition of the method.

## Main definitions

* `tallyClasses` — the non-empty classes and the biggest one
* `classesGroups` — the side of each class
* `rangeGistPicksplit`

## Main results

* `rangeGistPicksplit_partition` — no entry is lost or placed twice, and the ranges cover
* `rangeGistPicksplit_splits_iff` — which vectors are split at all
-/

set_option autoImplicit false

namespace PgRange.Gist

open Math

variable {α : Type} [Inhabited α]

/-! ### The functions of the source -/

/-- The class numbers below `CLS_COUNT`. -/
def rangeClasses : List (BitVec 4) := (List.range 9).map (BitVec.ofNat 4)

/-- `count_in_classes`. -/
def countInClasses (entryvec : GistEntryVector α) (j : BitVec 4) : ℕ :=
  entryvec.keys.countP fun range => getGistRangeClass range = j

/-- The number of non-empty classes and the biggest class. -/
structure ClassTally where
  nonEmptyClassesCount : ℕ := 0
  biggestClass : BitVec 4 := -1
  biggestClassCount : ℕ := 0
  deriving DecidableEq, Repr

/-- One round of the loop over the classes, for a class with so many entries. -/
def ClassTally.add (tally : ClassTally) (j : BitVec 4) (count : ℕ) : ClassTally :=
  if count > 0 then
    let tally :=
      if count > tally.biggestClassCount then
        { tally with biggestClass := j, biggestClassCount := count }
      else tally
    { tally with nonEmptyClassesCount := tally.nonEmptyClassesCount + 1 }
  else tally

/-- The loop over the classes. -/
def tallyClasses (entryvec : GistEntryVector α) : ClassTally :=
  rangeClasses.foldl (fun tally j => tally.add j (countInClasses entryvec j)) {}

/-- `classes_groups` with these classes on the right and all others on the left. -/
def groupRight (classes : List (BitVec 4)) (cls : BitVec 4) : SplitLR :=
  if cls ∈ classes then .splitRight else .splitLeft

/-- `classes_groups`, for entries of several classes. -/
def classesGroups (entryvec : GistEntryVector α) (biggestClass : BitVec 4) : BitVec 4 → SplitLR :=
  let totalCount : ℤ := entryvec.maxoff
  let countIn (cls : BitVec 4) : ℤ := countInClasses entryvec cls
  if countIn clsNormal > 0 then groupRight [clsNormal]
  else
    let nonInfCount := countIn clsNormal + countIn clsContainEmpty + countIn clsEmpty
    let infCount := totalCount - nonInfCount
    let nonEmptyCount := countIn clsNormal + countIn clsLowerInf + countIn clsUpperInf +
      countIn (clsLowerInf ||| clsUpperInf)
    let emptyCount := totalCount - nonEmptyCount
    if infCount > 0 ∧ nonInfCount > 0 ∧
        |infCount - nonInfCount| ≤ |emptyCount - nonEmptyCount| then
      groupRight [clsNormal, clsContainEmpty, clsEmpty]
    else if emptyCount > 0 ∧ nonEmptyCount > 0 then
      groupRight [clsNormal, clsLowerInf, clsUpperInf, clsLowerInf ||| clsUpperInf]
    else groupRight [biggestClass]

/-- `range_gist_picksplit`, for any sorting function. -/
def rangeGistPicksplit (q : Qsort) (typcache : TypeCacheEntry α) (entryvec : GistEntryVector α) :
    Except Fault (GistSplitvec α) :=
  let tally := tallyClasses entryvec
  if tally.nonEmptyClassesCount = 1 then
    if tally.biggestClass &&& ~~~clsContainEmpty = clsNormal then
      rangeGistDoubleSortingSplit q typcache entryvec
    else if tally.biggestClass &&& ~~~clsContainEmpty = clsLowerInf then
      rangeGistSingleSortingSplit q typcache entryvec true
    else if tally.biggestClass &&& ~~~clsContainEmpty = clsUpperInf then
      rangeGistSingleSortingSplit q typcache entryvec false
    else rangeGistFallbackSplit typcache entryvec
  else rangeGistClassSplit typcache entryvec (classesGroups entryvec tally.biggestClass)

/-! ### The methods by their placements -/

/-- A run places every offset once, and both sides get something exactly if `P`. -/
def PlacesAll (typcache : TypeCacheEntry α) (entryvec : GistEntryVector α)
    (run : Except Fault (GistSplitvec α)) (P : Prop) : Prop :=
  ∃ placements, run = placeAll typcache entryvec placements .nothing ∧
    (placements.map (·.2)).Perm entryvec.offsets ∧
    (sideOf .splitLeft placements ≠ [] ∧ sideOf .splitRight placements ≠ [] ↔ P)

section Methods

variable {q : Qsort} {typcache : TypeCacheEntry α} {entryvec : GistEntryVector α}

theorem PlacesAll.congr {run : Except Fault (GistSplitvec α)} {P Q : Prop}
    (h : PlacesAll typcache entryvec run P) (hiff : P ↔ Q) : PlacesAll typcache entryvec run Q := by
  rwa [← hiff]

/-- A loop that decides for each offset on its own. -/
theorem placesAll_map (side : ℕ → SplitLR) :
    PlacesAll typcache entryvec
      (placeAll typcache entryvec (entryvec.offsets.map fun i => (side i, i)) .nothing)
      ((∃ i ∈ entryvec.offsets, side i = .splitLeft) ∧
        ∃ i ∈ entryvec.offsets, side i = .splitRight) := by
  have hside : ∀ lr, sideOf lr (entryvec.offsets.map fun i => (side i, i)) ≠ [] ↔
      ∃ i ∈ entryvec.offsets, side i = lr := by
    intro lr
    constructor
    · intro hne
      obtain ⟨off, hoff⟩ := List.exists_mem_of_ne_nil _ hne
      obtain ⟨i, hi, heq⟩ := List.mem_map.mp (mem_sideOf.mp hoff)
      exact ⟨i, hi, congrArg Prod.fst heq⟩
    · rintro ⟨i, hi, rfl⟩
      exact List.ne_nil_of_mem (mem_sideOf.mpr (List.mem_map.mpr ⟨i, hi, rfl⟩))
  refine ⟨_, rfl, ?_, ?_⟩
  · simp [Function.comp_def]
  · rw [hside, hside]

/-- The trivial split puts nothing on the left if there are only two entries. -/
theorem rangeGistFallbackSplit_placesAll (hn : 2 ≤ entryvec.maxoff) :
    PlacesAll typcache entryvec (rangeGistFallbackSplit typcache entryvec)
      (3 ≤ entryvec.maxoff) := by
  refine (placesAll_map fun i =>
    if i < (entryvec.maxoff - 1) / 2 + 1 then .splitLeft else .splitRight).congr ?_
  constructor
  · rintro ⟨⟨i, hi, hleft⟩, -⟩
    rw [entryvec.mem_offsets] at hi
    split_ifs at hleft
    omega
  · intro hthree
    refine ⟨⟨1, entryvec.mem_offsets.mpr (by omega), if_pos (by omega)⟩, ?_⟩
    exact ⟨entryvec.maxoff, entryvec.mem_offsets.mpr (by omega), if_neg (by omega)⟩

/-- The split of a sorted order by half has something on both sides. -/
theorem rangeGistSingleSortingSplit_placesAll (q : Qsort) (hn : 2 ≤ entryvec.maxoff)
    (useUpperBound : Bool) :
    PlacesAll typcache entryvec
      (rangeGistSingleSortingSplit q typcache entryvec useUpperBound) True := by
  unfold rangeGistSingleSortingSplit
  extract_lets sortItems sorted splitIdx
  -- the items carry their offsets through the sort
  have hperm : (sorted.map (·.index)).Perm entryvec.offsets := by
    have hmap : sortItems.map (·.index) = entryvec.offsets := by
      simp [sortItems, Function.comp_def]
    rw [← hmap]
    exact (q.perm _ sortItems).map _
  have hlength : (sorted.map (·.index)).length = entryvec.maxoff := by
    rw [hperm.length_eq, entryvec.length_offsets]
  obtain ⟨hleft, hright⟩ := sideOf_placeFirst splitIdx (sorted.map (·.index))
  refine ⟨_, rfl, ?_, ?_⟩
  · rwa [map_snd_placeFirst]
  · rw [iff_true, hleft, hright]
    refine ⟨List.ne_nil_of_length_pos ?_, List.ne_nil_of_length_pos ?_⟩
    · rw [List.length_take, hlength]
      omega
    · rw [List.length_drop, hlength]
      omega

/-- The class split has something on both sides if it has a class there. -/
theorem rangeGistClassSplit_placesAll (classesGroups : BitVec 4 → SplitLR) :
    PlacesAll typcache entryvec (rangeGistClassSplit typcache entryvec classesGroups)
      ((∃ k ∈ entryvec.keys, classesGroups (getGistRangeClass k) = .splitLeft) ∧
        ∃ k ∈ entryvec.keys, classesGroups (getGistRangeClass k) = .splitRight) := by
  refine (placesAll_map fun i => classesGroups (getGistRangeClass (entryvec.key i))).congr ?_
  rw [← entryvec.map_key_offsets]
  simp only [List.mem_map, exists_exists_and_eq_and]

/-- No entry has to go to the left and at most half of them can, or all entries can go to the left and
half of them have to. -/
def SplitCall.OneSided (entriesCount : ℕ) (call : SplitCall α) : Prop :=
  call.minLeftCount = 0 ∧ call.maxLeftCount ≤ entriesCount / 2 ∨
    call.maxLeftCount = entriesCount ∧ entriesCount / 2 ≤ call.minLeftCount

/-- The same about the bounds of a selected split. It leaves a side empty. -/
def SelectedSplit.OneSided (cmp : α → α → Ordering) (entryvec : GistEntryVector α)
    (selected : SelectedSplit α) : Prop :=
  let minLeft :=
    entryvec.ranges.countP fun x => (rangeCmpBounds cmp x.lower selected.rightLower).isLT
  let maxLeft :=
    entryvec.ranges.countP fun x => (rangeCmpBounds cmp x.upper selected.leftUpper).isLE
  minLeft = 0 ∧ maxLeft ≤ entryvec.maxoff / 2 ∨
    maxLeft = entryvec.maxoff ∧ entryvec.maxoff / 2 ≤ minLeft

/-- A selected split is one-sided or not by the counts of the call that it is from. -/
theorem oneSided_select_iff {call : SplitCall α} (h : call.Spec typcache.cmp entryvec.ranges)
    (entriesCount : ℕ) :
    (call.select typcache entriesCount).OneSided typcache.cmp entryvec ↔
      call.OneSided entryvec.maxoff := by
  rw [SplitCall.OneSided, h.minLeftCount, h.maxLeftCount]
  rfl

/-- The double sorting split fails to split if it finds no acceptable split of two entries, or one
that leaves a side empty. -/
theorem rangeGistDoubleSortingSplit_placesAll [Std.TransCmp typcache.cmp] (q : Qsort)
    (hn : 2 ≤ entryvec.maxoff) (hordered : entryvec.Ordered typcache.cmp) :
    PlacesAll typcache entryvec (rangeGistDoubleSortingSplit q typcache entryvec)
      (match selectedSplit q typcache entryvec with
        | none => 3 ≤ entryvec.maxoff
        | some selected => ¬ selected.OneSided typcache.cmp entryvec) := by
  cases hsel : selectedSplit q typcache entryvec with
  | none =>
    rw [rangeGistDoubleSortingSplit, hsel]
    exact rangeGistFallbackSplit_placesAll hn
  | some selected =>
    rw [rangeGistDoubleSortingSplit_of_selected hsel]
    refine ⟨_, rfl, selectedPlacements_perm, ?_⟩
    obtain ⟨call, hcall, -, rfl⟩ := exists_call_of_selected hsel
    have hspec := splitCall_spec (by omega) hordered hcall
    have hle := hspec.min_le_max
    have hmax : call.maxLeftCount ≤ entryvec.maxoff := by
      rw [hspec.maxLeftCount]
      refine List.countP_le_length.trans ?_
      simp [GistEntryVector.ranges, GistEntryVector.maxoff]
    have hcount := length_left_add_leftCount q hspec hle entryvec.maxoff
    have hsum := length_left_add_length_right q typcache entryvec
      (call.select typcache entryvec.maxoff)
    change _ ↔ ¬ (call.select typcache entryvec.maxoff).OneSided typcache.cmp entryvec
    rw [oneSided_select_iff hspec, SplitCall.OneSided, ← List.length_pos_iff,
      ← List.length_pos_iff]
    -- the three ways to choose the left count
    unfold SplitCall.leftCount at hcount
    split_ifs at hcount <;> omega

end Methods

/-! ### The classes -/

section Classes

variable {β : Type} {entryvec : GistEntryVector β}

theorem getGistRangeClass_mem (range : RangeType β) : getGistRangeClass range ∈ rangeClasses := by
  unfold getGistRangeClass
  split_ifs <;> decide

theorem countInClasses_pos_iff {cls : BitVec 4} :
    0 < countInClasses entryvec cls ↔ ∃ k ∈ entryvec.keys, getGistRangeClass k = cls := by
  simp [countInClasses, List.countP_pos_iff]

/-- The classes that have entries. -/
def nonEmptyClasses (entryvec : GistEntryVector β) (seen : List (BitVec 4)) : List (BitVec 4) :=
  seen.filter fun cls => 0 < countInClasses entryvec cls

/-- What the loop over the classes knows about those it has seen. -/
structure TallyInv (entryvec : GistEntryVector β) (seen : List (BitVec 4)) (tally : ClassTally) :
    Prop where
  count : tally.nonEmptyClassesCount = (nonEmptyClasses entryvec seen).length
  none : tally.biggestClassCount = 0 → nonEmptyClasses entryvec seen = []
  biggest : 0 < tally.biggestClassCount → tally.biggestClass ∈ nonEmptyClasses entryvec seen

/-- One round of the loop. -/
theorem TallyInv.add {seen : List (BitVec 4)} {tally : ClassTally}
    (h : TallyInv entryvec seen tally) (j : BitVec 4) :
    TallyInv entryvec (seen ++ [j]) (tally.add j (countInClasses entryvec j)) := by
  have hseen : nonEmptyClasses entryvec (seen ++ [j]) = nonEmptyClasses entryvec seen ++
      if 0 < countInClasses entryvec j then [j] else [] := by
    simp [nonEmptyClasses, List.filter_cons]
  unfold ClassTally.add
  by_cases hpos : 0 < countInClasses entryvec j
  · -- a class with entries is counted, and some class is the biggest from now on
    rw [if_pos hpos] at hseen
    rw [if_pos hpos]
    refine ⟨?_, ?_, ?_⟩
    · split_ifs <;> simp [hseen, h.count]
    · intro hzero
      split_ifs at hzero <;> simp at hzero <;> omega
    · intro _
      split_ifs with hgt
      · simp [hseen]
      · rw [hseen]
        exact List.mem_append_left _ (h.biggest (by omega))
  · rw [if_neg hpos, List.append_nil] at hseen
    rw [if_neg hpos]
    exact ⟨hseen ▸ h.count, hseen ▸ h.none, hseen ▸ h.biggest⟩

/-- The whole loop. -/
theorem tallyClasses_inv (entryvec : GistEntryVector β) :
    TallyInv entryvec rangeClasses (tallyClasses entryvec) := by
  -- from any state of the loop, with the classes seen so far
  suffices h : ∀ (rest seen : List (BitVec 4)) (tally : ClassTally), TallyInv entryvec seen tally →
      TallyInv entryvec (seen ++ rest)
        (rest.foldl (fun tally j => tally.add j (countInClasses entryvec j)) tally) by
    exact h rangeClasses [] {} ⟨rfl, fun _ => rfl, fun hpos => absurd hpos (by decide)⟩
  intro rest
  induction rest with
  | nil =>
    intro seen tally h
    rwa [List.append_nil]
  | cons j rest ih =>
    intro seen tally h
    have hnext := ih (seen ++ [j]) _ (h.add j)
    rwa [List.append_assoc, List.singleton_append] at hnext

theorem class_mem_nonEmptyClasses {k : RangeType β} (hk : k ∈ entryvec.keys) :
    getGistRangeClass k ∈ nonEmptyClasses entryvec rangeClasses := by
  apply List.mem_filter.mpr
  exact ⟨getGistRangeClass_mem k, decide_eq_true (countInClasses_pos_iff.mpr ⟨k, hk, rfl⟩)⟩

/-- The biggest class has entries. -/
theorem biggestClass_mem (hn : 1 ≤ entryvec.maxoff) :
    (tallyClasses entryvec).biggestClass ∈ nonEmptyClasses entryvec rangeClasses := by
  have hinv := tallyClasses_inv entryvec
  obtain ⟨k, hk⟩ := List.exists_mem_of_length_pos hn
  rcases Nat.eq_zero_or_pos (tallyClasses entryvec).biggestClassCount with hzero | hpos
  · have hmem := class_mem_nonEmptyClasses hk
    rw [hinv.none hzero] at hmem
    simp at hmem
  · exact hinv.biggest hpos

/-- One class is counted exactly if all entries are of the biggest class. -/
theorem nonEmptyClassesCount_eq_one_iff (hn : 1 ≤ entryvec.maxoff) :
    (tallyClasses entryvec).nonEmptyClassesCount = 1 ↔
      ∀ k ∈ entryvec.keys, getGistRangeClass k = (tallyClasses entryvec).biggestClass := by
  rw [(tallyClasses_inv entryvec).count]
  have hbiggest := biggestClass_mem hn
  constructor
  · intro hone k hk
    obtain ⟨cls, hcls⟩ := List.length_eq_one_iff.mp hone
    have hmem := class_mem_nonEmptyClasses hk
    rw [hcls, List.mem_singleton] at hmem hbiggest
    exact hmem.trans hbiggest.symm
  · intro hall
    have hnodup : (nonEmptyClasses entryvec rangeClasses).Nodup := by
      apply List.Nodup.filter
      decide
    have hperm := (List.perm_ext_iff_of_nodup hnodup (List.nodup_singleton
      (tallyClasses entryvec).biggestClass)).mpr fun cls => by
        rw [List.mem_singleton]
        constructor
        · intro hcls
          obtain ⟨k, hk, rfl⟩ :=
            countInClasses_pos_iff.mp (of_decide_eq_true (List.mem_filter.mp hcls).2)
          exact hall k hk
        · rintro rfl
          exact hbiggest
    exact hperm.length_eq

/-- The counts of different classes add up to the number of their entries. -/
theorem sum_countInClasses {classes : List (BitVec 4)} (hnodup : classes.Nodup) :
    (classes.map (countInClasses entryvec)).sum =
      entryvec.keys.countP fun k => getGistRangeClass k ∈ classes := by
  induction classes with
  | nil => simp
  | cons cls rest ih =>
    obtain ⟨hcls, hrest⟩ := List.nodup_cons.mp hnodup
    rw [List.map_cons, List.sum_cons, ih hrest, List.countP_eq_countP_filter_add entryvec.keys
      (fun k => getGistRangeClass k ∈ cls :: rest) fun k => getGistRangeClass k = cls,
      List.countP_filter, List.countP_filter, countInClasses]
    -- an entry of this class is of none of the others
    congr 1
    · apply List.countP_congr
      intro k _
      simp +contextual
    · apply List.countP_congr
      intro k _
      have hne : getGistRangeClass k ∈ rest → getGistRangeClass k ≠ cls := by
        rintro hk rfl
        exact hcls hk
      simp only [List.mem_cons, Bool.and_eq_true, decide_eq_true_eq, Bool.not_eq_true',
        decide_eq_false_iff_not]
      tauto

/-- Classes are separated if some but not all entries are counted in them. -/
theorem groupRight_both {classes : List (BitVec 4)} (hnodup : classes.Nodup)
    (hsome : 0 < (classes.map (countInClasses entryvec)).sum)
    (hother : (classes.map (countInClasses entryvec)).sum < entryvec.maxoff) :
    (∃ k ∈ entryvec.keys, groupRight classes (getGistRangeClass k) = .splitLeft) ∧
      ∃ k ∈ entryvec.keys, groupRight classes (getGistRangeClass k) = .splitRight := by
  rw [sum_countInClasses hnodup] at hsome hother
  constructor
  · by_contra hnone
    push Not at hnone
    refine hother.ne (List.countP_eq_length.mpr fun k hk => ?_)
    have hk' := hnone k hk
    rw [groupRight] at hk'
    split_ifs at hk' with hmem
    · exact decide_eq_true hmem
    · exact absurd rfl hk'
  · obtain ⟨k, hk, hmem⟩ := List.countP_pos_iff.mp hsome
    exact ⟨k, hk, if_pos (of_decide_eq_true hmem)⟩

/-- Of several classes, none has all entries. -/
theorem countInClasses_lt (hn : 1 ≤ entryvec.maxoff)
    (hseveral : (tallyClasses entryvec).nonEmptyClassesCount ≠ 1) (cls : BitVec 4) :
    countInClasses entryvec cls < entryvec.maxoff := by
  refine lt_of_le_of_ne List.countP_le_length fun hall => hseveral ?_
  have hcls : ∀ k ∈ entryvec.keys, getGistRangeClass k = cls := fun k hk =>
    of_decide_eq_true (List.countP_eq_length.mp hall k hk)
  obtain ⟨k, hk, hbiggest⟩ := countInClasses_pos_iff.mp
    (of_decide_eq_true (List.mem_filter.mp (biggestClass_mem hn)).2)
  rw [nonEmptyClassesCount_eq_one_iff hn, ← hbiggest, hcls k hk]
  exact hcls

/-- Entries of several classes are put on both sides, whichever way the classes are grouped. -/
theorem classesGroups_both (hn : 1 ≤ entryvec.maxoff)
    (hseveral : (tallyClasses entryvec).nonEmptyClassesCount ≠ 1) :
    (∃ k ∈ entryvec.keys, classesGroups entryvec (tallyClasses entryvec).biggestClass
        (getGistRangeClass k) = .splitLeft) ∧
      ∃ k ∈ entryvec.keys, classesGroups entryvec (tallyClasses entryvec).biggestClass
        (getGistRangeClass k) = .splitRight := by
  have hlt := countInClasses_lt hn hseveral
  simp only [classesGroups]
  split_ifs with hnormal hinf hempty
  · -- the normal ranges by themselves
    refine groupRight_both (by decide) ?_ ?_
    · simpa using hnormal
    · simpa using hlt clsNormal
  · -- with and without infinite bounds
    obtain ⟨hinf, hnonInf, -⟩ := hinf
    refine groupRight_both (by decide) ?_ ?_ <;>
      simp only [List.map_cons, List.map_nil, List.sum_cons, List.sum_nil] <;> omega
  · -- with and without empty ranges
    obtain ⟨hempty, hnonEmpty⟩ := hempty
    refine groupRight_both (by decide) ?_ ?_ <;>
      simp only [List.map_cons, List.map_nil, List.sum_cons, List.sum_nil] <;> omega
  · -- the biggest class by itself
    refine groupRight_both (List.nodup_singleton _) ?_ ?_
    · simpa using (List.mem_filter.mp (biggestClass_mem hn)).2
    · simpa using hlt (tallyClasses entryvec).biggestClass

end Classes

/-! ### The choice -/

section Choice

variable {q : Qsort} {typcache : TypeCacheEntry α} {entryvec : GistEntryVector α}

/-- The vectors that the methods fail to split, in terms of the split that is selected: entries of one
class, namely two that are split by half without being sorted, or normal ranges for which a one-sided
split is selected. -/
def FailsToSplit (q : Qsort) (typcache : TypeCacheEntry α) (entryvec : GistEntryVector α) : Prop :=
  ∃ cls, (∀ k ∈ entryvec.keys, getGistRangeClass k = cls) ∧
    (entryvec.maxoff = 2 ∧ (cls = clsEmpty ∨
        cls &&& ~~~clsContainEmpty = clsLowerInf ||| clsUpperInf) ∨
      cls &&& ~~~clsContainEmpty = clsNormal ∧
        match selectedSplit q typcache entryvec with
        | none => entryvec.maxoff = 2
        | some selected => selected.OneSided typcache.cmp entryvec)

/-- For entries of one class, whether they are split is a condition on the class. -/
theorem failsToSplit_iff_of_class {cls : BitVec 4} (hn : 1 ≤ entryvec.maxoff)
    (hall : ∀ k ∈ entryvec.keys, getGistRangeClass k = cls) :
    FailsToSplit q typcache entryvec ↔
      entryvec.maxoff = 2 ∧ (cls = clsEmpty ∨
        cls &&& ~~~clsContainEmpty = clsLowerInf ||| clsUpperInf) ∨
      cls &&& ~~~clsContainEmpty = clsNormal ∧
        match selectedSplit q typcache entryvec with
        | none => entryvec.maxoff = 2
        | some selected => selected.OneSided typcache.cmp entryvec := by
  constructor
  · rintro ⟨cls', hall', hcond⟩
    obtain ⟨k, hk⟩ := List.exists_mem_of_length_pos hn
    obtain rfl : cls' = cls := (hall' k hk).symm.trans (hall k hk)
    exact hcond
  · intro hcond
    exact ⟨cls, hall, hcond⟩

/-- Entries of several classes are always split. -/
theorem not_failsToSplit_of_several (hn : 1 ≤ entryvec.maxoff)
    (hseveral : (tallyClasses entryvec).nonEmptyClassesCount ≠ 1) :
    ¬ FailsToSplit q typcache entryvec := by
  rintro ⟨cls, hall, -⟩
  refine (countInClasses_lt hn hseveral cls).ne (List.countP_eq_length.mpr fun k hk => ?_)
  exact decide_eq_true (hall k hk)

/-- Ranges with one infinite bound are always split. -/
theorem not_failsToSplit_of_half {cls : BitVec 4} (hn : 1 ≤ entryvec.maxoff)
    (hall : ∀ k ∈ entryvec.keys, getGistRangeClass k = cls)
    (hhalf : cls &&& ~~~clsContainEmpty = clsLowerInf ∨
      cls &&& ~~~clsContainEmpty = clsUpperInf) :
    ¬ FailsToSplit q typcache entryvec := by
  rw [failsToSplit_iff_of_class hn hall]
  rintro (⟨-, rfl | hboth⟩ | ⟨hnormal, -⟩)
  · exact absurd hhalf (by decide)
  · rw [hboth] at hhalf
    exact absurd hhalf (by decide)
  · rw [hnormal] at hhalf
    exact absurd hhalf (by decide)

/-- Of the other classes, two entries are not split. -/
theorem failsToSplit_iff_of_trivial {cls : BitVec 4} (hn : 1 ≤ entryvec.maxoff)
    (hall : ∀ k ∈ entryvec.keys, getGistRangeClass k = cls)
    (htrivial : cls = clsEmpty ∨ cls &&& ~~~clsContainEmpty = clsLowerInf ||| clsUpperInf) :
    FailsToSplit q typcache entryvec ↔ entryvec.maxoff = 2 := by
  rw [failsToSplit_iff_of_class hn hall]
  constructor
  · rintro (⟨htwo, -⟩ | ⟨hnormal, -⟩)
    · exact htwo
    · rcases htrivial with rfl | hboth
      · exact absurd hnormal (by decide)
      · rw [hboth] at hnormal
        exact absurd hnormal (by decide)
  · intro htwo
    exact Or.inl ⟨htwo, htrivial⟩

/-- The classes that are left when the normal and the half-infinite ones are excluded. -/
theorem trivial_of_not_normal : ∀ cls ∈ rangeClasses, cls &&& ~~~clsContainEmpty ≠ clsNormal →
    cls &&& ~~~clsContainEmpty ≠ clsLowerInf → cls &&& ~~~clsContainEmpty ≠ clsUpperInf →
      cls = clsEmpty ∨ cls &&& ~~~clsContainEmpty = clsLowerInf ||| clsUpperInf := by
  decide

/-- The method for normal ranges. -/
theorem rangeGistDoubleSortingSplit_placesAll_of_normal (h : typcache.Regular) (q : Qsort)
    (hn : 2 ≤ entryvec.maxoff) (hkeys : ∀ k ∈ entryvec.keys, IsKey typcache k) {cls : BitVec 4}
    (hall : ∀ k ∈ entryvec.keys, getGistRangeClass k = cls)
    (hnormal : cls &&& ~~~clsContainEmpty = clsNormal) :
    PlacesAll typcache entryvec (rangeGistDoubleSortingSplit q typcache entryvec)
      (¬ FailsToSplit q typcache entryvec) := by
  have htrans := h.transCmp
  have hnotEmpty : cls ≠ clsEmpty := by
    rintro rfl
    exact absurd hnormal (by decide)
  have hordered : entryvec.Ordered typcache.cmp := by
    refine ordered_of_isKey fun k hk => ⟨hkeys k hk, ?_⟩
    by_contra hempty
    rw [Bool.not_eq_false] at hempty
    exact hnotEmpty ((hall k hk).symm.trans (if_pos hempty))
  refine (rangeGistDoubleSortingSplit_placesAll q hn hordered).congr ?_
  have hboth : clsNormal ≠ clsLowerInf ||| clsUpperInf := by decide
  rw [failsToSplit_iff_of_class (by omega) hall, hnormal]
  simp only [hnotEmpty, hboth, or_self, and_false, false_or, true_and]
  split
  · omega
  · rfl

/-- Every choice of `range_gist_picksplit` places each entry once, and on both sides unless the
vector is one that the methods fail to split. -/
theorem rangeGistPicksplit_placesAll (h : typcache.Regular) (q : Qsort)
    (hn : 2 ≤ entryvec.maxoff) (hkeys : ∀ k ∈ entryvec.keys, IsKey typcache k) :
    PlacesAll typcache entryvec (rangeGistPicksplit q typcache entryvec)
      (¬ FailsToSplit q typcache entryvec) := by
  have hn1 : 1 ≤ entryvec.maxoff := by omega
  have hclass := nonEmptyClassesCount_eq_one_iff hn1
  simp only [rangeGistPicksplit]
  split_ifs with hone hnormal hlower hupper
  · exact rangeGistDoubleSortingSplit_placesAll_of_normal h q hn hkeys (hclass.mp hone) hnormal
  · refine (rangeGistSingleSortingSplit_placesAll q hn true).congr ?_
    exact iff_of_true trivial (not_failsToSplit_of_half hn1 (hclass.mp hone) (Or.inl hlower))
  · refine (rangeGistSingleSortingSplit_placesAll q hn false).congr ?_
    exact iff_of_true trivial (not_failsToSplit_of_half hn1 (hclass.mp hone) (Or.inr hupper))
  · refine (rangeGistFallbackSplit_placesAll hn).congr ?_
    have hbiggest := (List.mem_filter.mp (biggestClass_mem hn1)).1
    rw [failsToSplit_iff_of_trivial hn1 (hclass.mp hone)
      (trivial_of_not_normal _ hbiggest hnormal hlower hupper)]
    omega
  · refine (rangeGistClassSplit_placesAll _).congr ?_
    exact iff_of_true (classesGroups_both hn1 hone) (not_failsToSplit_of_several hn1 hone)

/-- What every split does, as far as it depends on the placements only. -/
theorem PlacesAll.result {run : Except Fault (GistSplitvec α)} {P : Prop}
    (hrun : PlacesAll typcache entryvec run P) (h : typcache.Regular)
    (hkeys : ∀ k ∈ entryvec.keys, IsKey typcache k) :
    ∃ v, run = .ok v ∧ (v.left.offsets ++ v.right.offsets).Perm entryvec.offsets ∧
      v.left.Unites typcache entryvec ∧ v.right.Unites typcache entryvec ∧
      (v.left.offsets ≠ [] ∧ v.right.offsets ≠ [] ↔ P) := by
  obtain ⟨placements, rfl, hperm, hsides⟩ := hrun
  obtain ⟨v, hv, hleft, hright, huleft, huright⟩ := placeAll_spec h hkeys placements fun p hp =>
    hperm.mem_iff.mp (List.mem_map_of_mem hp)
  refine ⟨v, hv, ?_, huleft, huright, ?_⟩
  · rw [hleft, hright]
    exact (sideOf_perm placements).trans hperm
  · rwa [hleft, hright]

/-- A split neither loses nor duplicates entries: the offsets of the two sides together are those
of all entries, and the range of a side with entries is their union and covers each of them. -/
theorem rangeGistPicksplit_partition (h : typcache.Regular) (q : Qsort)
    (hn : 2 ≤ entryvec.maxoff) (hkeys : ∀ k ∈ entryvec.keys, IsKey typcache k) :
    ∃ v, rangeGistPicksplit q typcache entryvec = .ok v ∧
      (v.left.offsets ++ v.right.offsets).Perm (List.range' 1 entryvec.maxoff) ∧
      ∀ side ∈ [v.left, v.right], side.offsets ≠ [] →
        ∃ u, side.datum = some u ∧
          rangeGistUnion typcache (side.offsets.map entryvec.key) = .ok u ∧
          ∀ off ∈ side.offsets, CoversKey typcache.cmp u (entryvec.key off) := by
  obtain ⟨v, hv, hperm, hleft, hright, -⟩ :=
    (rangeGistPicksplit_placesAll h q hn hkeys).result h hkeys
  refine ⟨v, hv, hperm, fun side hside hne => ?_⟩
  rcases List.mem_pair.mp hside with rfl | rfl
  · refine hleft.covers h hkeys (fun off hoff => ?_) hne
    exact hperm.mem_iff.mp (List.mem_append_left _ hoff)
  · refine hright.covers h hkeys (fun off hoff => ?_) hne
    exact hperm.mem_iff.mp (List.mem_append_right _ hoff)

/-- A range and the empty range. -/
def rangeAndEmpty : GistEntryVector ℤ := ⟨[int4Between 1 3, emptyRange], by decide⟩

theorem isKey_rangeAndEmpty : ∀ k ∈ rangeAndEmpty.keys, IsKey int4range k := by
  intro k hk
  rcases List.mem_pair.mp hk with rfl | rfl
  · exact isKey_int4Between (by decide)
  · exact IsKey.ofValue (wellFormed_emptyRange _) fun _ _ hne => by simp [emptyRange] at hne

/-- A range and the empty range go to different sides. -/
theorem rangeGistPicksplit_partition_mixed :
    ∃ v, rangeGistPicksplit .insertion int4range rangeAndEmpty = .ok v ∧
      v.left.offsets = [2] ∧ v.right.offsets = [1] ∧
      (v.left.offsets ++ v.right.offsets).Perm [1, 2] ∧
      (∃ u, v.left.datum = some u ∧ CoversKey btintcmp u emptyRange) ∧
      ∃ u, v.right.datum = some u ∧ CoversKey btintcmp u (int4Between 1 3) := by
  obtain ⟨v, hv, hperm, hcovers⟩ := rangeGistPicksplit_partition .int4range .insertion
    (show 2 ≤ rangeAndEmpty.maxoff by decide) isKey_rangeAndEmpty
  have hsides : (rangeGistPicksplit .insertion int4range rangeAndEmpty).map
      (fun v => (v.left.offsets, v.right.offsets)) = .ok ([2], [1]) := by decide +kernel
  rw [hv] at hsides
  obtain ⟨hleft, hright⟩ := Prod.mk.inj (Except.ok.inj hsides)
  obtain ⟨u, hu, -, hcover⟩ := hcovers v.left (by simp) (by simp [hleft])
  obtain ⟨u', hu', -, hcover'⟩ := hcovers v.right (by simp) (by simp [hright])
  exact ⟨v, hv, hleft, hright, hperm, ⟨u, hu, hcover 2 (by simp [hleft])⟩,
    ⟨u', hu', hcover' 1 (by simp [hright])⟩⟩

/-- The vectors that cannot be split. Their entries are of one class. They are two empty ranges or
two without bounds, or finite ranges, namely two without an acceptable split or any number of them
whose best split is one-sided. -/
def Unsplittable (typcache : TypeCacheEntry α) (entryvec : GistEntryVector α) : Prop :=
  ∃ cls, (∀ k ∈ entryvec.keys, getGistRangeClass k = cls) ∧
    (entryvec.maxoff = 2 ∧ (cls = clsEmpty ∨
        cls &&& ~~~clsContainEmpty = clsLowerInf ||| clsUpperInf) ∨
      cls &&& ~~~clsContainEmpty = clsNormal ∧
        (entryvec.maxoff = 2 ∧ (∀ call : SplitCall α,
            call.Candidate typcache.cmp entryvec.ranges →
              call.acceptable entryvec.maxoff = false) ∨
          ∃ call : SplitCall α, call.Best typcache entryvec ∧ call.OneSided entryvec.maxoff))

omit [Inhabited α] in
/-- The ranges of the normal class are finite. -/
theorem finite_of_normal {k : RangeType α}
    (h : getGistRangeClass k &&& ~~~clsContainEmpty = clsNormal) :
    k.flags.empty = false ∧ k.flags.lbInf = false ∧ k.flags.ubInf = false := by
  unfold getGistRangeClass at h
  cases hempty : k.flags.empty <;> cases hlow : k.flags.lbInf <;> cases hupp : k.flags.ubInf <;>
    cases hce : k.flags.containEmpty <;> simp [hempty, hlow, hupp, hce] at h ⊢ <;>
    exact absurd h (by decide)

/-- The split that is selected is the best one, so it is known from the entries whether there is
one and whether it is one-sided. -/
theorem failsToSplit_iff (h : typcache.Regular) (hdiff : DiffCongr typcache) (q : Qsort)
    (hn : 2 ≤ entryvec.maxoff) (hkeys : ∀ k ∈ entryvec.keys, IsKey typcache k) :
    FailsToSplit q typcache entryvec ↔ Unsplittable typcache entryvec := by
  have htrans := h.transCmp
  refine exists_congr fun cls => and_congr_right fun hall => or_congr_right
    (and_congr_right fun hnormal => ?_)
  have hbounded : entryvec.Bounded typcache.cmp := bounded_of_isKey fun k hk =>
    ⟨hkeys k hk, finite_of_normal (by rw [hall k hk, hnormal])⟩
  have hnone := selectedSplit_eq_none_iff q (by omega) hbounded hdiff
  cases hsel : selectedSplit q typcache entryvec with
  | none =>
    have hcandidates := hnone.mp hsel
    constructor
    · intro htwo
      exact Or.inl ⟨htwo, hcandidates⟩
    · rintro (⟨htwo, -⟩ | ⟨call, hbest, -⟩)
      · exact htwo
      · have hacc := hbest.acceptable
        rw [hcandidates call hbest.candidate] at hacc
        cases hacc
  | some selected =>
    obtain ⟨call, hbest, rfl⟩ := exists_best_of_selected q (by omega) hbounded hdiff hsel
    change (call.select typcache entryvec.maxoff).OneSided typcache.cmp entryvec ↔ _
    rw [oneSided_select_iff hbest.candidate.spec]
    constructor
    · intro hone
      exact Or.inr ⟨call, hbest, hone⟩
    · rintro (⟨-, hcandidates⟩ | ⟨call', hbest', hone⟩)
      · rw [hnone.mpr hcandidates] at hsel
        cases hsel
      · obtain ⟨hmin, hmax⟩ := hbest'.counts_eq hbest
        rwa [SplitCall.OneSided, hmin, hmax] at hone

/-- A split puts at least one entry on each side, and both unions are defined, exactly if the
vector is not one that cannot be split. -/
theorem rangeGistPicksplit_splits_iff (h : typcache.Regular) (hdiff : DiffCongr typcache)
    (q : Qsort) (hn : 2 ≤ entryvec.maxoff) (hkeys : ∀ k ∈ entryvec.keys, IsKey typcache k) :
    ∃ v, rangeGistPicksplit q typcache entryvec = .ok v ∧
      (1 ≤ v.left.offsets.length ∧ 1 ≤ v.right.offsets.length ∧
          v.left.datum.isSome = true ∧ v.right.datum.isSome = true ↔
        ¬ Unsplittable typcache entryvec) := by
  obtain ⟨v, hv, -, -, -, hiff⟩ := (rangeGistPicksplit_placesAll h q hn hkeys).result h hkeys
  refine ⟨v, hv, ?_⟩
  rw [← failsToSplit_iff h hdiff q hn hkeys, ← hiff, v.left.defined, v.right.defined, Nat.one_le_iff_ne_zero, Nat.one_le_iff_ne_zero]
  simp only [ne_eq, List.length_eq_zero_iff, Bool.not_eq_true', List.isEmpty_eq_false_iff]
  tauto

/-- Entries of two classes are split. -/
theorem rangeGistPicksplit_splits_mixed :
    ∃ v, rangeGistPicksplit .insertion int4range rangeAndEmpty = .ok v ∧
      1 ≤ v.left.offsets.length ∧ 1 ≤ v.right.offsets.length := by
  obtain ⟨v, hv, hiff⟩ := rangeGistPicksplit_splits_iff .int4range diffCongr_int4range .insertion
    (show 2 ≤ rangeAndEmpty.maxoff by decide) isKey_rangeAndEmpty
  obtain ⟨hleft, hright, -⟩ := hiff.mpr fun hcannot => by
    obtain ⟨cls, hall, -⟩ := hcannot
    have hrange := hall (int4Between 1 3) (by simp [rangeAndEmpty])
    have hempty := hall emptyRange (by simp [rangeAndEmpty])
    exact absurd (hrange.trans hempty.symm) (by decide)
  exact ⟨v, hv, hleft, hright⟩

/-- Two empty ranges. -/
def twoEmptyRanges : GistEntryVector ℤ := ⟨[emptyRange, emptyRange], by decide⟩

/-- Two empty ranges are both put on the right, and so are three ranges that start at the same
bound. The union on the left is not defined. -/
theorem rangeGistPicksplit_oneSided :
    (rangeGistPicksplit .insertion int4range twoEmptyRanges).map
      (fun v => (v.left.offsets, v.right.offsets, v.left.datum)) = .ok ([], [1, 2], none) ∧
    (rangeGistPicksplit .insertion int4range nestedRanges).map
      (fun v => (v.left.offsets, v.right.offsets, v.left.datum)) = .ok ([], [2, 3, 1], none) := by
  decide +kernel

end Choice

end PgRange.Gist
