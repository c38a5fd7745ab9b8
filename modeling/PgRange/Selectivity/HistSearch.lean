import PgRange.Selectivity.LengthHist

/-!
# The binary searches in the histograms

`rbound_bsearch` and `length_hist_bsearch` as the code runs them: a loop over two `int`
locals that reads the array at their middle. The two differ only in the test on an entry.
An index outside the array ends the run with a fault, and so does a loop that has not ended
after a given number of rounds.

On a sorted histogram neither happens, and the runs return what the functions
`rboundBsearch` and `lengthHistBsearch` say, on which all estimates rest: the greatest index
whose entry is less than the value, or less than or equal to it. Both arrays have been
obtained from `palloc`, so that the sum of two indexes is an `int`.

## Main definitions

* `rboundBsearchRun`, `lengthHistBsearchRun` — the loops of the code

## Main results

* `histBsearchRun_eq` — on an array whose first entries pass the test, the loop ends and
  finds the last one
* `bsearchRuns_exact` — both searches are exact
-/

set_option autoImplicit false

namespace PgRange.Selectivity

open Math

/-! ### The loops -/

/-- The test on the entry in the middle. -/
def testMiddle {β : Type} (below : β → Bool) (hist : List β) (middle : ℤ) : Except Fault Bool := do
  return below (← readEntry hist middle)

/-- A binary search for the last entry that is `below` the value. -/
def histBsearchRun {β : Type} (A : CInt) (fuel : ℕ) (below : β → Bool) (hist : List β) :
    Except Fault ℤ := do
  let ends ← (searchLoop A (testMiddle below hist)).run .outOfFuel fuel
    ⟨-1, A.wrap (hist.length - 1)⟩
  return ends.lower

/-- `rbound_bsearch`. -/
def rboundBsearchRun {α : Type} (A : CInt) (fuel : ℕ) (typcache : TypeCacheEntry α)
    (value : RangeBound α) (hist : List (RangeBound α)) (equal : Bool) : Except Fault ℤ :=
  histBsearchRun A fuel (fun entry =>
    let cmp := rangeCmpBounds typcache.cmp entry value
    cmp == .lt || (equal && cmp == .eq)) hist

/-- `length_hist_bsearch`. -/
def lengthHistBsearchRun (A : CInt) (fuel : ℕ) (lengthHist : List FloatQ) (value : FloatQ)
    (equal : Bool) : Except Fault ℤ :=
  histBsearchRun A fuel (lengthTest value equal) lengthHist

/-! ### What the loops return -/

/-- In every reading of `int` that holds the sum of two indexes, the loop ends and finds
the last entry that passes. -/
theorem histBsearchRun_eq {β : Type} {A : CInt} {fuel : ℕ} {below : β → Bool} {hist : List β}
    (d : β) (hdown : PassesDown (fun i => below (hist.getD i d)) hist.length)
    (hA : A.wrap (2 * hist.length) = 2 * hist.length) (hfuel : hist.length < 2 ^ fuel) :
    histBsearchRun A fuel below hist =
      .ok (bsearchLast (fun i => below (hist.getD i d)) hist.length) := by
  have hread : ∀ k : ℕ, k < hist.length →
      testMiddle below hist k = .ok (below (hist.getD k d)) := by
    intro k hk
    rw [testMiddle, readEntry_of_lt hk d]
    rfl
  have hupper : A.wrap (hist.length - 1 : ℤ) = hist.length - 1 :=
    A.wrap_of_between (A.wrap_of_fits (by decide : FitsInt32 (-1))) hA (by omega) (by omega)
  unfold histBsearchRun
  rw [hupper, searchLoop_run hread hA hdown .outOfFuel hfuel]
  rfl

/-- An array of at least eight bytes for each entry has few enough entries. -/
theorem wrap_of_alloc (A : CInt) {n : ℕ} (hn : 8 * n ≤ maxAllocSize) :
    A.wrap (2 * n) = 2 * n := by
  unfold maxAllocSize at hn
  exact A.wrap_of_fits ⟨by omega, by omega⟩

section Exact

variable {α : Type} [Inhabited α]

theorem rboundBsearchRun_eq {A : CInt} {fuel : ℕ} {typcache : TypeCacheEntry α}
    [Std.TransCmp typcache.cmp] {hist : List (RangeBound α)}
    (hsorted : HistSorted typcache.cmp hist) (value : RangeBound α) (equal : Bool)
    (hA : A.wrap (2 * hist.length) = 2 * hist.length) (hfuel : hist.length < 2 ^ fuel) :
    rboundBsearchRun A fuel typcache value hist equal =
      .ok (rboundBsearch typcache value hist equal) := by
  rw [rboundBsearchRun, rboundBsearch]
  exact histBsearchRun_eq default (hsorted.passesDown value equal) hA hfuel

theorem lengthHistBsearchRun_eq {A : CInt} {fuel : ℕ} {lengthHist : List FloatQ}
    (hsorted : lengthHist.Pairwise fun x y => x.le y = true) (value : FloatQ) (equal : Bool)
    (hA : A.wrap (2 * lengthHist.length) = 2 * lengthHist.length)
    (hfuel : lengthHist.length < 2 ^ fuel) :
    lengthHistBsearchRun A fuel lengthHist value equal =
      .ok (lengthHistBsearch lengthHist value equal) := by
  rw [lengthHistBsearchRun, lengthHistBsearch]
  exact histBsearchRun_eq (.fin 0) (passesDown_of_sorted hsorted value equal) hA hfuel

/-- Both searches are exact. On every sorted histogram, for every value and both settings
of `equal`, they end, read only entries of the array, and return the greatest index whose
entry is less than the value, or also equal to it if `equal` is set, and `-1` if there is no
such entry. Neither the machine integers nor the unbounded ones make a difference on an array
that can be allocated. -/
theorem bsearchRuns_exact (typcache : TypeCacheEntry α) [Std.TransCmp typcache.cmp] :
    (∀ (hist : List (RangeBound α)) (value : RangeBound α) (equal : Bool) (fuel : ℕ),
      HistSorted typcache.cmp hist → hist.length < 2 ^ fuel →
      ∃ index, rboundBsearchRun .unbounded fuel typcache value hist equal = .ok index ∧
        (16 * hist.length ≤ maxAllocSize →
          rboundBsearchRun .int32 fuel typcache value hist equal = .ok index) ∧
        IsLast (fun k => rangeCmpBounds typcache.cmp (hist.getD k default) value = .lt ∨
          equal = true ∧ rangeCmpBounds typcache.cmp (hist.getD k default) value = .eq)
          hist.length index) ∧
    ∀ (lengthHist : List FloatQ) (value : FloatQ) (equal : Bool) (fuel : ℕ),
      lengthHist.Pairwise (fun x y => x.le y = true) → lengthHist.length < 2 ^ fuel →
      ∃ index, lengthHistBsearchRun .unbounded fuel lengthHist value equal = .ok index ∧
        (8 * lengthHist.length ≤ maxAllocSize →
          lengthHistBsearchRun .int32 fuel lengthHist value equal = .ok index) ∧
        IsLast (fun k => (lengthHist.getD k (.fin 0)).lt value = true ∨
          equal = true ∧ (lengthHist.getD k (.fin 0)).le value = true)
          lengthHist.length index := by
  constructor
  · intro hist value equal fuel hsorted hfuel
    refine ⟨rboundBsearch typcache value hist equal,
      rboundBsearchRun_eq hsorted value equal rfl hfuel, ?_, ?_⟩
    · intro halloc
      exact rboundBsearchRun_eq hsorted value equal (wrap_of_alloc .int32 (by omega)) hfuel
    · refine (isLast_bsearchLast (hsorted.passesDown value equal)).congr ?_
      intro k _
      simp [rboundTest]
  · intro lengthHist value equal fuel hsorted hfuel
    refine ⟨lengthHistBsearch lengthHist value equal,
      lengthHistBsearchRun_eq hsorted value equal rfl hfuel, ?_, ?_⟩
    · intro halloc
      exact lengthHistBsearchRun_eq hsorted value equal (wrap_of_alloc .int32 halloc) hfuel
    · refine (isLast_bsearchLast (passesDown_of_sorted hsorted value equal)).congr ?_
      intro k _
      simp [lengthTest]

end Exact

/-- A histogram with a bound that occurs twice. -/
def repeatedBounds : List (RangeBound ℤ) :=
  [⟨1, false, true, true⟩, ⟨3, false, true, true⟩, ⟨3, false, true, true⟩, ⟨7, false, true, true⟩]

/-- The search for the repeated bound stops behind it or in front of it, and every finite
length is below the infinite one. -/
theorem bsearchRuns_exact_repeated :
    HistSorted int4range.cmp repeatedBounds ∧
      rboundBsearchRun .int32 3 int4range ⟨3, false, true, true⟩ repeatedBounds true = .ok 2 ∧
      rboundBsearchRun .int32 3 int4range ⟨3, false, true, true⟩ repeatedBounds false = .ok 0 ∧
      lengthHistBsearchRun .int32 2 [.fin 1, .fin 4] .posInf false = .ok 1 := by
  have hsorted : HistSorted int4range.cmp repeatedBounds := by decide
  obtain ⟨hbounds, hlengths⟩ := bsearchRuns_exact int4range
  obtain ⟨i, -, hi, -⟩ := hbounds repeatedBounds ⟨3, false, true, true⟩ true 3 hsorted (by decide)
  obtain ⟨j, -, hj, -⟩ := hbounds repeatedBounds ⟨3, false, true, true⟩ false 3 hsorted (by decide)
  obtain ⟨k, -, hk, -⟩ := hlengths [.fin 1, .fin 4] .posInf false 2 (by decide) (by decide)
  have hi' := hi (by decide)
  have hj' := hj (by decide)
  have hk' := hk (by decide)
  obtain rfl : i = 2 := Except.ok.inj (hi'.symm.trans (by decide))
  obtain rfl : j = 0 := Except.ok.inj (hj'.symm.trans (by decide))
  obtain rfl : k = 1 := Except.ok.inj (hk'.symm.trans (by decide))
  exact ⟨hsorted, hi', hj', hk'⟩

end PgRange.Selectivity
