import PgRange.Gist.Columns
import PgRange.Math.CFloat
import PgRange.Math.Loop
import PgRange.Math.Offsets

/-!
# Splitting tuples by their columns

`gistsplit.c` decides which tuples of a page go to its left half and which to its right half. The
picksplit function of the first column makes a proposal. Tuples that could be moved to the other
side without a penalty are "don't cares" as far as this column is concerned, and are distributed
again by the next column, and so on. NULL keys are separated from others; a column without any
other key is skipped, and in the last column the tuples are then just counted off.

A split keeps every tuple, and the keys that are returned for a side are the least ones that cover
its tuples, whichever way the columns have worked together. Both sides get a tuple, with one
exception: two or three tuples whose last key is NULL may all stay on the left.

## Main definitions

* `gistSplitByKey` — the split, column by column
* `gistUserPicksplit` — what one column does
* `SplitsAll` — what a split must do

## Main results

* `gistUserPicksplit_spec` — one column
* `gistSplitByKey_splitsAll` — the recursion over the columns
* `exists_gistSplitByKey` — the split of a page, with its keys
-/

set_option autoImplicit false

namespace PgRange.Gist

open Math

variable {n : ℕ} {κ : Fin n → Type}

/-! ### The functions of the source -/

/-- `GistSplitVector`: the offsets on either side, the keys of either side, and the tuples that the
last column did not care about. -/
structure GistSplitVector (κ : Fin n → Type) where
  left : List ℕ
  right : List ℕ
  lattr : KeyVector κ
  rattr : KeyVector κ
  dontcare : Option (ℕ → Bool)

/-- The `GIST_SPLITVEC` of a column, when both sides have a datum. -/
structure Splitvec (κ : Type) where
  left : List ℕ
  right : List ℕ
  ldatum : κ
  rdatum : κ

/-- `gistunionsubkeyvec`. -/
def gistunionsubkeyvec (giststate : GistState κ) (itvec : List (IndexTuple κ))
    (dontcare : Option (ℕ → Bool)) (entries : List ℕ) : Except Fault (KeyVector κ) :=
  let cleaned := match dontcare with
    | none => entries
    | some dontcare => entries.filter fun off => !dontcare off
  gistMakeUnionItVec giststate (pickAt itvec cleaned)

/-- `gistunionsubkey`. -/
def gistunionsubkey (giststate : GistState κ) (itvec : List (IndexTuple κ))
    (spl : GistSplitVector κ) : Except Fault (GistSplitVector κ) := do
  let lattr ← gistunionsubkeyvec giststate itvec spl.dontcare spl.left
  let rattr ← gistunionsubkeyvec giststate itvec spl.dontcare spl.right
  return { spl with lattr, rattr }

/-- The test of `findDontCares`: no penalty on the other side. -/
def freeToAdd (giststate : GistState κ) (j : Fin n) (valvec : List (κ j)) (datum : κ j)
    (off : ℕ) : Bool :=
  (gistpenalty giststate j (some datum) valvec[off - 1]?).isEq (.fin 0)

/-- `findDontCares`: the tuples that are marked, and how many. -/
def findDontCares (giststate : GistState κ) (j : Fin n) (valvec : List (κ j))
    (sv : Splitvec (κ j)) : (ℕ → Bool) × ℕ :=
  let fromLeft := freeToAdd giststate j valvec sv.rdatum
  let fromRight := freeToAdd giststate j valvec sv.ldatum
  (fun off => sv.left.contains off && fromLeft off || sv.right.contains off && fromRight off,
    sv.left.countP fromLeft + sv.right.countP fromRight)

/-- `removeDontCares`. -/
def removeDontCares (a : List ℕ) (dontcare : ℕ → Bool) : List ℕ :=
  a.filter fun off => !dontcare off

/-- The decision `toLeft` of `placeOne`, over the columns that are left. -/
def placeLeft (giststate : GistState κ) (v : GistSplitVector κ) (itup : IndexTuple κ) :
    List (Fin n) → Bool
  | [] => true
  | j :: cols =>
    let lpenalty := gistpenalty giststate j (v.lattr j) (itup.keys j)
    let rpenalty := gistpenalty giststate j (v.rattr j) (itup.keys j)
    if lpenalty.isEq rpenalty then placeLeft giststate v itup cols else !rpenalty.lt lpenalty

/-- `placeOne`. -/
def placeOne (giststate : GistState κ) (v : GistSplitVector κ) (itup : IndexTuple κ) (off : ℕ)
    (cols : List (Fin n)) : GistSplitVector κ :=
  if placeLeft giststate v itup cols then { v with left := v.left ++ [off] }
  else { v with right := v.right ++ [off] }

/-- The decision `leaveOnLeft` of `supportSecondarySplit`, with the keys that a former column has
left for this one. -/
def leaveOnLeft (giststate : GistState κ) (j : Fin n) (sv : Splitvec (κ j)) :
    Option (κ j) → Option (κ j) → Bool
  | some oldL, some oldR =>
    let penalty1 := CFloat.float4.add (gistpenalty giststate j (some oldL) (some sv.ldatum))
      (gistpenalty giststate j (some oldR) (some sv.rdatum))
    let penalty2 := CFloat.float4.add (gistpenalty giststate j (some oldL) (some sv.rdatum))
      (gistpenalty giststate j (some oldR) (some sv.ldatum))
    !penalty2.lt penalty1
  | some oldL, none =>
    (gistpenalty giststate j (some oldL) (some sv.ldatum)).lt
      (gistpenalty giststate j (some oldL) (some sv.rdatum))
  | none, some oldR =>
    !(gistpenalty giststate j (some oldR) (some sv.ldatum)).lt
      (gistpenalty giststate j (some oldR) (some sv.rdatum))
  | none, none => true

/-- Add a key of a former column, if there is one. -/
def addOld (giststate : GistState κ) (j : Fin n) (old : Option (κ j)) (datum : κ j) :
    Except Fault (κ j) :=
  match old with
  | some old => (giststate.column j).unionFn [old, datum]
  | none => .ok datum

/-- `supportSecondarySplit`. -/
def supportSecondarySplit (giststate : GistState κ) (j : Fin n) (sv : Splitvec (κ j))
    (oldL oldR : Option (κ j)) : Except Fault (Splitvec (κ j)) := do
  let sv := if leaveOnLeft giststate j sv oldL oldR then sv
    else ⟨sv.right, sv.left, sv.rdatum, sv.ldatum⟩
  let ldatum ← addOld giststate j oldL sv.ldatum
  let rdatum ← addOld giststate j oldR sv.rdatum
  return { sv with ldatum, rdatum }

/-- Clean up after a secondary split, if this is one. -/
def addFormer (giststate : GistState κ) (j : Fin n) (sv : Splitvec (κ j))
    (oldL oldR : Option (κ j)) : Except Fault (Splitvec (κ j)) :=
  if oldL.isSome || oldR.isSome then supportSecondarySplit giststate j sv oldL oldR else .ok sv

/-- `genericPickSplit`. -/
def genericPickSplit (giststate : GistState κ) (j : Fin n) (entryvec : List (κ j)) :
    Except Fault (Splitvec (κ j)) := do
  let half := entryvec.length / 2
  let ldatum ← (giststate.column j).unionFn (entryvec.take half)
  let rdatum ← (giststate.column j).unionFn (entryvec.drop half)
  return ⟨List.range' 1 half, List.range' (half + 1) (entryvec.length - half), ldatum, rdatum⟩

/-- An invalid last offset stands for the last entry. -/
def lastOffset (maxoff : ℕ) (offs : List ℕ) : List ℕ :=
  if offs.getLast? = some 0 then offs.dropLast ++ [maxoff] else offs

/-- The call of the picksplit function of a column. If it puts all keys on one side, the split is
made by `genericPickSplit`. -/
def callPicksplit (giststate : GistState κ) (j : Fin n) (entryvec : List (κ j)) :
    Except Fault (Splitvec (κ j)) := do
  let (left, right) ← (giststate.column j).picksplitFn entryvec
  match left.datum, right.datum with
  | some ldatum, some rdatum =>
    return ⟨lastOffset entryvec.length left.offsets, lastOffset entryvec.length right.offsets,
      ldatum, rdatum⟩
  | _, _ => genericPickSplit giststate j entryvec

/-- The end of `gistUserPicksplit`, where other columns remain: look for tuples that can be
relocated. -/
def relocate (giststate : GistState κ) (j : Fin n) (cols : List (Fin n)) (entryvec : List (κ j))
    (itup : List (IndexTuple κ)) (sv : Splitvec (κ j)) (v : GistSplitVector κ) :
    Except Fault (Bool × GistSplitVector κ) := do
  -- the same union on both sides: the split says nothing
  if (giststate.column j).equalFn sv.ldatum sv.rdatum then return (true, v)
  let (dontcare, numDontCare) := findDontCares giststate j entryvec sv
  if numDontCare = 0 then return (false, { v with dontcare := some dontcare })
  let left := removeDontCares v.left dontcare
  let right := removeDontCares v.right dontcare
  if left = [] ∨ right = [] then return (true, { v with left, right, dontcare := none })
  let v ← gistunionsubkey giststate itup { v with left, right, dontcare := some dontcare }
  if numDontCare = 1 then
    -- a single tuple cannot be split, so compare the penalties
    match (List.range' 1 entryvec.length).find? dontcare with
    | some toMove =>
      match itup[toMove - 1]? with
      | some it => return (false, placeOne giststate v it toMove cols)
      | none => throw .uninitializedRead
    | none => throw .uninitializedRead
  else return (true, v)

/-- `gistUserPicksplit`, where `cols` are the columns that remain after this one. -/
def gistUserPicksplit (giststate : GistState κ) (j : Fin n) (cols : List (Fin n))
    (entryvec : List (κ j)) (itup : List (IndexTuple κ)) (v : GistSplitVector κ) :
    Except Fault (Bool × GistSplitVector κ) := do
  let sv ← callPicksplit giststate j entryvec
  let sv ← addFormer giststate j sv (v.lattr j) (v.rattr j)
  let v : GistSplitVector κ :=
    { left := sv.left
      right := sv.right
      lattr := v.lattr.set j (some sv.ldatum)
      rattr := v.rattr.set j (some sv.rdatum)
      dontcare := none }
  if cols = [] then return (false, v) else relocate giststate j cols entryvec itup sv v

/-- `gistSplitHalf`. -/
def gistSplitHalf (v : GistSplitVector κ) (len : ℕ) : GistSplitVector κ :=
  { v with
    left := (List.range' 1 len).filter fun i => !decide (i < len / 2)
    right := (List.range' 1 len).filter fun i => decide (i < len / 2) }

/-- The offsets of the tuples with a NULL key. -/
def offNullTuples (itup : List (IndexTuple κ)) (j : Fin n) (off : ℕ) : Bool :=
  match itup[off - 1]? with
  | some it => (it.keys j).isNone
  | none => false

/-- What follows the call of `gistUserPicksplit`: if splitting by this column is not optimal, then
the next columns split all tuples again, or those that this one did not care about. -/
def splitDontCares (next : List (IndexTuple κ) → GistSplitVector κ →
      Except Fault (GistSplitVector κ)) (itup : List (IndexTuple κ)) :
    Bool × GistSplitVector κ → Except Fault (GistSplitVector κ)
  | (false, v) => .ok v
  | (true, v) =>
    match v.dontcare with
    | none => next itup v
    | some dontcare => do
      let map := (List.range' 1 itup.length).filter dontcare
      let sub ← next (pickAt itup map) v
      return { sub with
        left := v.left ++ pickAt map sub.left, right := v.right ++ pickAt map sub.right }

/-- The split by one column, where `next` splits by the columns `cols` that remain. -/
def splitColumn (giststate : GistState κ) (next : List (IndexTuple κ) → GistSplitVector κ →
      Except Fault (GistSplitVector κ)) (j : Fin n) (cols : List (Fin n))
    (itup : List (IndexTuple κ)) (v : GistSplitVector κ) : Except Fault (GistSplitVector κ) :=
  let len := itup.length
  let entryvec := columnKeys itup j
  if entryvec.length = 0 then
    -- all keys are NULL
    let v := { v with lattr := v.lattr.set j none, rattr := v.rattr.set j none }
    if cols = [] then .ok (gistSplitHalf v len) else next itup v
  else if entryvec.length < len then
    -- NULL keys to the right, others to the left
    let v := { v with
      left := (List.range' 1 len).filter fun off => !offNullTuples itup j off
      right := (List.range' 1 len).filter (offNullTuples itup j)
      rattr := v.rattr.set j none }
    -- the unions, unless the outermost level of the recursion finds them
    if j.val = 0 ∧ n = 1 then gistunionsubkey giststate itup { v with dontcare := none } else .ok v
  else gistUserPicksplit giststate j cols entryvec itup v >>= splitDontCares next itup

/-- The end of `gistSplitByKey`: the outermost level finds the unions of all columns, if there are
several. -/
def recomputeUnions (giststate : GistState κ) (j : Fin n) (itup : List (IndexTuple κ))
    (v : GistSplitVector κ) : Except Fault (GistSplitVector κ) :=
  if j.val = 0 ∧ 1 < n then gistunionsubkey giststate itup { v with dontcare := none } else .ok v

/-- `gistSplitByKey`. The list holds the columns from `attno` on. -/
def gistSplitByKey (giststate : GistState κ) : List (Fin n) → List (IndexTuple κ) →
    GistSplitVector κ → Except Fault (GistSplitVector κ)
  -- there is always a column
  | [], _, v => .ok v
  | j :: cols, itup, v =>
    splitColumn giststate (gistSplitByKey giststate cols) j cols itup v >>=
      recomputeUnions giststate j itup

/-! ### What a split must do -/

variable [∀ j, Preorder (κ j)] {giststate : GistState κ} {valid : (j : Fin n) → κ j → Prop}
  {itup : List (IndexTuple κ)}

omit [∀ j, Preorder (κ j)] in
/-- Few tuples whose key in the last one of the columns is NULL. -/
def FewLastNull (cols : List (Fin n)) (itup : List (IndexTuple κ)) : Prop :=
  itup.length ≤ 3 ∧ ∃ j, cols.getLast? = some j ∧ ∀ it ∈ itup, it.keys j = none

omit [∀ j, Preorder (κ j)] in
/-- Each tuple is placed once, and on both sides there is one, but perhaps if there are few and all
of them are NULL. -/
structure SplitsAll (valid : (j : Fin n) → κ j → Prop) (cols : List (Fin n))
    (itup : List (IndexTuple κ)) (v : GistSplitVector κ) : Prop where
  perm : (v.left ++ v.right).Perm (List.range' 1 itup.length)
  lvalid : ValidKeys valid v.lattr
  rvalid : ValidKeys valid v.rattr
  left_ne : v.left ≠ []
  right_ne : ¬ FewLastNull cols itup → v.right ≠ []

omit [∀ j, Preorder (κ j)] in
theorem ValidKeys.set {keys : KeyVector κ} (h : ValidKeys valid keys) (j : Fin n)
    (key : Option (κ j)) (hkey : ∀ k, key = some k → valid j k) :
    ValidKeys valid (keys.set j key) := by
  intro i k hk
  by_cases hij : i = j
  · subst hij
    rw [KeyVector.set_self] at hk
    exact hkey k hk
  · rw [KeyVector.set_of_ne hij] at hk
    exact h i k hk

/-- Unions can be found for any part of the tuples. -/
theorem gistunionsubkey_spec (h : giststate.Lawful valid)
    (hvalid : ∀ it ∈ itup, ValidKeys valid it.keys) (v : GistSplitVector κ) :
    ∃ lattr rattr, gistunionsubkey giststate itup v = .ok { v with lattr, rattr } ∧
      ValidKeys valid lattr ∧ ValidKeys valid rattr ∧
      (v.dontcare = none →
        Unites (pickAt itup v.left) lattr ∧ Unites (pickAt itup v.right) rattr) := by
  have hside : ∀ entries, ∃ attr, gistunionsubkeyvec giststate itup v.dontcare entries = .ok attr ∧
      ValidKeys valid attr ∧ (v.dontcare = none → Unites (pickAt itup entries) attr) := by
    intro entries
    have hpick : ∀ offs, ∀ it ∈ pickAt itup offs, ValidKeys valid it.keys := fun offs it hit =>
      hvalid it (mem_of_mem_pickAt hit)
    cases hcare : v.dontcare with
    | none =>
      obtain ⟨attr, hattr, hval, hlub⟩ := gistMakeUnionItVec_isLUB h (hpick entries)
      exact ⟨attr, hattr, hval, fun _ => hlub⟩
    | some dontcare =>
      obtain ⟨attr, hattr, hval, -⟩ :=
        gistMakeUnionItVec_isLUB h (hpick (entries.filter fun off => !dontcare off))
      exact ⟨attr, hattr, hval, by simp⟩
  obtain ⟨lattr, hl, hlvalid, hlub⟩ := hside v.left
  obtain ⟨rattr, hr, hrvalid, hrub⟩ := hside v.right
  refine ⟨lattr, rattr, ?_, hlvalid, hrvalid, fun hnone => ⟨hlub hnone, hrub hnone⟩⟩
  simp [gistunionsubkey, hl, hr, bind, Except.bind, pure, Except.pure]

/-! ### One column -/

section Column

variable {j : Fin n} {entryvec : List (κ j)}

/-- The two sides of a proper split of the keys of a column. -/
structure SplitsKeys (valid : (j : Fin n) → κ j → Prop) (j : Fin n) (entryvec : List (κ j))
    (sv : Splitvec (κ j)) : Prop where
  perm : (sv.left ++ sv.right).Perm (List.range' 1 entryvec.length)
  left_ne : sv.left ≠ []
  right_ne : sv.right ≠ []
  lvalid : valid j sv.ldatum
  rvalid : valid j sv.rdatum

theorem lastOffset_eq (maxoff : ℕ) {offs : List ℕ} (h : ∀ off ∈ offs, 1 ≤ off) :
    lastOffset maxoff offs = offs := by
  refine if_neg fun hlast => ?_
  have := h 0 (List.mem_of_getLast? hlast)
  omega

/-- The keys at the offsets of one half of the vector. -/
theorem keys_range' {β : Type} (l : List β) (start len : ℕ) :
    {x | ∃ off ∈ List.range' (start + 1) len, l[off - 1]? = some x} =
      {x | x ∈ (l.drop start).take len} := by
  ext x
  change (∃ off ∈ List.range' (start + 1) len, l[off - 1]? = some x) ↔ x ∈ (l.drop start).take len
  rw [List.mem_iff_getElem?]
  constructor
  · rintro ⟨off, hoff, hx⟩
    rw [List.mem_range'_1] at hoff
    refine ⟨off - 1 - start, ?_⟩
    rw [List.getElem?_take_of_lt (by omega), List.getElem?_drop]
    rwa [show start + (off - 1 - start) = off - 1 by omega]
  · rintro ⟨i, hi⟩
    have hlt := (List.getElem?_eq_some_iff.mp hi).1
    rw [List.length_take, List.length_drop] at hlt
    rw [List.getElem?_take_of_lt (by omega), List.getElem?_drop] at hi
    exact ⟨start + i + 1, List.mem_range'_1.mpr (by omega), hi⟩

/-- The datum of a side is the union of the keys at its offsets. -/
def UnitesKeys (entryvec : List (κ j)) (offs : List ℕ) (datum : κ j) : Prop :=
  IsLUB {x | ∃ off ∈ offs, entryvec[off - 1]? = some x} datum

theorem genericPickSplit_spec (h : giststate.Lawful valid) (hlen : 2 ≤ entryvec.length)
    (hkeys : ∀ k ∈ entryvec, valid j k) :
    ∃ sv, genericPickSplit giststate j entryvec = .ok sv ∧ SplitsKeys valid j entryvec sv ∧
      UnitesKeys entryvec sv.left sv.ldatum ∧ UnitesKeys entryvec sv.right sv.rdatum := by
  have hleft : entryvec.take (entryvec.length / 2) ≠ [] := by
    rw [← List.length_pos_iff, List.length_take]
    omega
  have hright : entryvec.drop (entryvec.length / 2) ≠ [] := by
    rw [← List.length_pos_iff, List.length_drop]
    omega
  obtain ⟨ld, hld, hlvalid, hlub⟩ := (h j).union _ hleft
    fun k hk => hkeys k (List.mem_of_mem_take hk)
  obtain ⟨rd, hrd, hrvalid, hrub⟩ := (h j).union _ hright
    fun k hk => hkeys k (List.mem_of_mem_drop hk)
  have hrun : genericPickSplit giststate j entryvec = .ok
      ⟨List.range' 1 (entryvec.length / 2),
        List.range' (entryvec.length / 2 + 1) (entryvec.length - entryvec.length / 2), ld, rd⟩ := by
    simp only [genericPickSplit, hld, hrd, bind, Except.bind, pure, Except.pure]
  refine ⟨_, hrun, ⟨?_, ?_, ?_, hlvalid, hrvalid⟩, ?_, ?_⟩
  · dsimp only
    rw [show entryvec.length / 2 + 1 = 1 + entryvec.length / 2 by omega, List.range'_append_1,
      show entryvec.length / 2 + (entryvec.length - entryvec.length / 2) = entryvec.length by omega]
  · rw [← List.length_pos_iff, List.length_range']
    omega
  · rw [← List.length_pos_iff, List.length_range']
    omega
  · have hset := keys_range' entryvec 0 (entryvec.length / 2)
    rw [Nat.zero_add, List.drop_zero] at hset
    rw [UnitesKeys, hset]
    exact hlub
  · have hset := keys_range' entryvec (entryvec.length / 2)
      (entryvec.length - entryvec.length / 2)
    rw [List.take_of_length_le (by simp)] at hset
    rw [UnitesKeys, hset]
    exact hrub

/-- The proposal of a column puts keys on both sides, with their unions. -/
theorem callPicksplit_spec (h : giststate.Lawful valid) (hlen : 2 ≤ entryvec.length)
    (hmax : entryvec.length < 65535) (hkeys : ∀ k ∈ entryvec, valid j k) :
    ∃ sv, callPicksplit giststate j entryvec = .ok sv ∧ SplitsKeys valid j entryvec sv ∧
      UnitesKeys entryvec sv.left sv.ldatum ∧ UnitesKeys entryvec sv.right sv.rdatum := by
  obtain ⟨left, right, hpick, hperm, hleft, hright⟩ := (h j).picksplit entryvec hlen hmax hkeys
  have hmem : ∀ off ∈ left.offsets ++ right.offsets, 1 ≤ off := fun off hoff =>
    (List.mem_range'_1.mp (hperm.mem_iff.mp hoff)).1
  have hl := lastOffset_eq entryvec.length fun off hoff =>
    hmem off (List.mem_append_left right.offsets hoff)
  have hr := lastOffset_eq entryvec.length fun off hoff =>
    hmem off (List.mem_append_right left.offsets hoff)
  simp only [callPicksplit, hpick, bind, Except.bind, hl, hr]
  have hldef := left.defined
  have hrdef := right.defined
  cases hld : left.datum with
  | none => exact genericPickSplit_spec h hlen hkeys
  | some ld =>
    cases hrd : right.datum with
    | none => exact genericPickSplit_spec h hlen hkeys
    | some rd =>
      obtain ⟨hlvalid, hlub⟩ := hleft ld hld
      obtain ⟨hrvalid, hrub⟩ := hright rd hrd
      refine ⟨⟨left.offsets, right.offsets, ld, rd⟩, rfl,
        ⟨hperm, ?_, ?_, hlvalid, hrvalid⟩, hlub, hrub⟩
      · simpa [hld] using hldef
      · simpa [hrd] using hrdef

/-- The keys of a former column are added, and the two sides may be swapped. -/
theorem supportSecondarySplit_spec (h : giststate.Lawful valid) {sv : Splitvec (κ j)}
    (hsv : SplitsKeys valid j entryvec sv) {oldL oldR : Option (κ j)}
    (hL : ∀ k, oldL = some k → valid j k) (hR : ∀ k, oldR = some k → valid j k) :
    ∃ sv', supportSecondarySplit giststate j sv oldL oldR = .ok sv' ∧
      SplitsKeys valid j entryvec sv' := by
  have hadd : ∀ old : Option (κ j), (∀ k, old = some k → valid j k) → ∀ datum, valid j datum →
      ∃ u, addOld giststate j old datum = .ok u ∧ valid j u := by
    intro old hold datum hdatum
    cases old with
    | none => exact ⟨datum, rfl, hdatum⟩
    | some k =>
      obtain ⟨u, hu, huvalid, -⟩ := (h j).union [k, datum] (by simp) (by simp [hold k rfl, hdatum])
      exact ⟨u, hu, huvalid⟩
  have hswap : SplitsKeys valid j entryvec ⟨sv.right, sv.left, sv.rdatum, sv.ldatum⟩ :=
    ⟨List.perm_append_comm.trans hsv.perm, hsv.right_ne, hsv.left_ne, hsv.rvalid, hsv.lvalid⟩
  unfold supportSecondarySplit
  dsimp only
  generalize hchosen : (if leaveOnLeft giststate j sv oldL oldR then sv
    else ⟨sv.right, sv.left, sv.rdatum, sv.ldatum⟩) = chosen
  have hc : SplitsKeys valid j entryvec chosen := by
    rw [← hchosen]
    split_ifs
    · exact hsv
    · exact hswap
  obtain ⟨ld, hld, hldvalid⟩ := hadd oldL hL chosen.ldatum hc.lvalid
  obtain ⟨rd, hrd, hrdvalid⟩ := hadd oldR hR chosen.rdatum hc.rvalid
  refine ⟨{ chosen with ldatum := ld, rdatum := rd }, ?_, ?_⟩
  · simp only [hld, hrd, bind, Except.bind, pure, Except.pure]
  · exact ⟨hc.perm, hc.left_ne, hc.right_ne, hldvalid, hrdvalid⟩

omit [∀ j, Preorder (κ j)] in
variable (giststate) in
/-- A tuple is marked if it is free to be added on the other side, and the number of marks is
right. -/
theorem findDontCares_count {sv : Splitvec (κ j)} (hsv : SplitsKeys valid j entryvec sv) :
    (findDontCares giststate j entryvec sv).2 =
      ((List.range' 1 entryvec.length).filter (findDontCares giststate j entryvec sv).1).length := by
  have hnodup : (sv.left ++ sv.right).Nodup := hsv.perm.nodup_iff.mpr List.nodup_range'
  have hdisjoint := List.disjoint_of_nodup_append hnodup
  rw [← (hsv.perm.filter _).length_eq, List.filter_append, List.length_append,
    ← List.countP_eq_length_filter, ← List.countP_eq_length_filter]
  simp only [findDontCares]
  congr 1
  · apply List.countP_congr
    intro off hoff
    have hnot : off ∉ sv.right := fun hr => hdisjoint hoff hr
    simp [hoff, hnot]
  · apply List.countP_congr
    intro off hoff
    have hnot : off ∉ sv.left := fun hl => hdisjoint hl hoff
    simp [hoff, hnot]

omit [∀ j, Preorder (κ j)] in
/-- What a column hands on: a finished split, a split that says nothing, or a split of some tuples
with several others that the next columns distribute. -/
inductive Outcome (cols : List (Fin n)) (len : ℕ) : Bool × GistSplitVector κ → Prop
  | complete {v : GistSplitVector κ} : (v.left ++ v.right).Perm (List.range' 1 len) →
      v.left ≠ [] → v.right ≠ [] → Outcome cols len (false, v)
  | degenerate {v : GistSplitVector κ} : cols ≠ [] → v.dontcare = none → Outcome cols len (true, v)
  | dontCares {v : GistSplitVector κ} (dontcare : ℕ → Bool) : cols ≠ [] →
      v.dontcare = some dontcare → v.left ≠ [] → v.right ≠ [] →
      (v.left ++ v.right ++ (List.range' 1 len).filter dontcare).Perm (List.range' 1 len) →
      2 ≤ ((List.range' 1 len).filter dontcare).length → Outcome cols len (true, v)

omit [∀ j, Preorder (κ j)] in
variable (giststate) in
/-- A single tuple goes to one of the sides. -/
theorem placeOne_spec (v : GistSplitVector κ) (it : IndexTuple κ) (off : ℕ) (cols : List (Fin n)) :
    let v' := placeOne giststate v it off cols
    (v'.left ++ v'.right).Perm (v.left ++ v.right ++ [off]) ∧ v'.lattr = v.lattr ∧
      v'.rattr = v.rattr ∧ (v.left ≠ [] → v'.left ≠ []) ∧ (v.right ≠ [] → v'.right ≠ []) := by
  unfold placeOne
  dsimp only
  split_ifs
  · refine ⟨?_, rfl, rfl, by simp, id⟩
    dsimp only
    rw [List.append_assoc, List.append_assoc]
    exact List.perm_append_comm.append_left v.left
  · refine ⟨?_, rfl, rfl, id, by simp⟩
    dsimp only
    rw [List.append_assoc]

/-- Looking for tuples that the other columns may distribute. -/
theorem relocate_spec (h : giststate.Lawful valid) (hvalid : ∀ it ∈ itup, ValidKeys valid it.keys)
    {cols : List (Fin n)} (hcols : cols ≠ []) (hlen : entryvec.length = itup.length)
    {sv : Splitvec (κ j)} (hsv : SplitsKeys valid j entryvec sv) {v : GistSplitVector κ}
    (hleft : v.left = sv.left) (hright : v.right = sv.right) (hnone : v.dontcare = none)
    (hl : ValidKeys valid v.lattr) (hr : ValidKeys valid v.rattr) :
    ∃ result, relocate giststate j cols entryvec itup sv v = .ok result ∧
      ValidKeys valid result.2.lattr ∧ ValidKeys valid result.2.rattr ∧
      Outcome cols itup.length result := by
  have hcount := findDontCares_count giststate hsv
  unfold relocate
  by_cases heq : (giststate.column j).equalFn sv.ldatum sv.rdatum = true
  · rw [if_pos heq]
    exact ⟨_, rfl, hl, hr, .degenerate hcols hnone⟩
  rw [if_neg heq]
  rcases hfind : findDontCares giststate j entryvec sv with ⟨dontcare, numDontCare⟩
  rw [hfind] at hcount
  dsimp only at hcount ⊢
  -- the tuples that are kept, and those that are marked
  have hsplit := perm_split_off hsv.perm dontcare
  rw [← hleft, ← hright, hlen] at hsplit
  rw [hlen] at hcount
  by_cases hzero : numDontCare = 0
  · rw [if_pos hzero]
    refine ⟨_, rfl, hl, hr, .complete ?_ ?_ ?_⟩
    · rw [hleft, hright, ← hlen]
      exact hsv.perm
    · exact hleft ▸ hsv.left_ne
    · exact hright ▸ hsv.right_ne
  rw [if_neg hzero]
  by_cases hempty : removeDontCares v.left dontcare = [] ∨ removeDontCares v.right dontcare = []
  · rw [if_pos hempty]
    exact ⟨_, rfl, hl, hr, .degenerate hcols rfl⟩
  rw [if_neg hempty]
  push Not at hempty
  obtain ⟨lattr, rattr, hunion, hlvalid, hrvalid, -⟩ := gistunionsubkey_spec h hvalid
    { v with
      left := removeDontCares v.left dontcare
      right := removeDontCares v.right dontcare
      dontcare := some dontcare }
  simp only [hunion, bind, Except.bind]
  by_cases hone : numDontCare = 1
  · rw [if_pos hone, hlen]
    obtain ⟨toMove, hmap⟩ := List.length_eq_one_iff.mp (hcount.symm.trans hone)
    have hfirst : (List.range' 1 itup.length).find? dontcare = some toMove := by
      rw [← List.head?_filter, hmap]
      rfl
    have hmem : toMove ∈ List.range' 1 itup.length := List.mem_of_find?_eq_some hfirst
    rw [List.mem_range'_1] at hmem
    have hget : itup[toMove - 1]? = some (itup.get ⟨toMove - 1, by omega⟩) := by simp
    rw [hfirst]
    simp only [hget]
    obtain ⟨hperm, hlattr, hrattr, hlne, hrne⟩ := placeOne_spec giststate
      { v with
        left := removeDontCares v.left dontcare
        right := removeDontCares v.right dontcare
        dontcare := some dontcare, lattr, rattr } (itup.get ⟨toMove - 1, by omega⟩) toMove cols
    refine ⟨_, rfl, ?_, ?_, .complete (hperm.trans ?_) (hlne hempty.1) (hrne hempty.2)⟩
    · rw [hlattr]
      exact hlvalid
    · rw [hrattr]
      exact hrvalid
    · rw [hmap] at hsplit
      exact hsplit
  · rw [if_neg hone]
    exact ⟨_, rfl, hlvalid, hrvalid, .dontCares dontcare hcols rfl hempty.1 hempty.2 hsplit
      (by omega)⟩

/-- One column of the split. -/
theorem gistUserPicksplit_spec (h : giststate.Lawful valid)
    (hvalid : ∀ it ∈ itup, ValidKeys valid it.keys) (cols : List (Fin n))
    (hlen : entryvec.length = itup.length) (htwo : 2 ≤ itup.length) (hmax : itup.length < 65535)
    (hkeys : ∀ k ∈ entryvec, valid j k) {v : GistSplitVector κ}
    (hl : ValidKeys valid v.lattr) (hr : ValidKeys valid v.rattr) :
    ∃ result, gistUserPicksplit giststate j cols entryvec itup v = .ok result ∧
      ValidKeys valid result.2.lattr ∧ ValidKeys valid result.2.rattr ∧
      Outcome cols itup.length result := by
  rw [← hlen] at htwo hmax
  obtain ⟨sv, hsv, hsplits, -⟩ := callPicksplit_spec h htwo hmax hkeys
  have hsecond : ∃ sv', addFormer giststate j sv (v.lattr j) (v.rattr j) = .ok sv' ∧
      SplitsKeys valid j entryvec sv' := by
    unfold addFormer
    split_ifs
    · exact supportSecondarySplit_spec h hsplits (hl j) (hr j)
    · exact ⟨sv, rfl, hsplits⟩
  obtain ⟨sv', hsv', hsplits'⟩ := hsecond
  have hl' := hl.set j (some sv'.ldatum) fun k hk => Option.some.inj hk ▸ hsplits'.lvalid
  have hr' := hr.set j (some sv'.rdatum) fun k hk => Option.some.inj hk ▸ hsplits'.rvalid
  simp only [gistUserPicksplit, hsv, bind, Except.bind, hsv']
  by_cases hcols : cols = []
  · rw [if_pos hcols]
    refine ⟨_, rfl, hl', hr', .complete ?_ hsplits'.left_ne hsplits'.right_ne⟩
    exact hlen ▸ hsplits'.perm
  · rw [if_neg hcols]
    exact relocate_spec h hvalid hcols hlen hsplits' rfl rfl rfl hl' hr'

end Column

/-! ### All columns -/

section Columns

variable {j : Fin n} {cols : List (Fin n)} {v : GistSplitVector κ}

/-- A function that splits by the columns that remain. -/
def SplitsBy (valid : (j : Fin n) → κ j → Prop) (cols : List (Fin n))
    (next : List (IndexTuple κ) → GistSplitVector κ → Except Fault (GistSplitVector κ)) : Prop :=
  ∀ itup v, (∀ it ∈ itup, ValidKeys valid it.keys) → 2 ≤ itup.length → itup.length < 65535 →
    ValidKeys valid v.lattr → ValidKeys valid v.rattr →
    ∃ v', next itup v = .ok v' ∧ SplitsAll valid cols itup v'

omit [∀ j, Preorder (κ j)] in
/-- A split by the columns that remain is one by all of them. -/
theorem SplitsAll.of_tail (h : SplitsAll valid cols itup v) : SplitsAll valid (j :: cols) itup v :=
  { h with
    right_ne := fun hnot => h.right_ne fun hfew => by
      obtain ⟨hlen, k, hk, hnull⟩ := hfew
      refine hnot ⟨hlen, k, ?_, hnull⟩
      rw [List.getLast?_cons, hk]
      rfl }

omit [∀ j, Preorder (κ j)] in
/-- The don't cares are distributed by the columns that remain. -/
theorem splitDontCares_spec
    {next : List (IndexTuple κ) → GistSplitVector κ → Except Fault (GistSplitVector κ)}
    (hnext : cols ≠ [] → SplitsBy valid cols next) (hvalid : ∀ it ∈ itup, ValidKeys valid it.keys)
    (htwo : 2 ≤ itup.length) (hmax : itup.length < 65535) {result : Bool × GistSplitVector κ}
    (hl : ValidKeys valid result.2.lattr) (hr : ValidKeys valid result.2.rattr)
    (hresult : Outcome cols itup.length result) :
    ∃ v', splitDontCares next itup result = .ok v' ∧ SplitsAll valid (j :: cols) itup v' := by
  cases hresult with
  | @complete v hperm hleft hright => exact ⟨v, rfl, hperm, hl, hr, hleft, fun _ => hright⟩
  | @degenerate v hcols hnone =>
    obtain ⟨v', hv', hsplits⟩ := hnext hcols itup v hvalid htwo hmax hl hr
    refine ⟨v', ?_, hsplits.of_tail⟩
    simpa only [splitDontCares, hnone] using hv'
  | @dontCares v dontcare hcols hsome hleft hright hperm hmany =>
    have hoffs : ∀ off ∈ (List.range' 1 itup.length).filter dontcare,
        1 ≤ off ∧ off ≤ itup.length := by
      intro off hoff
      have := List.mem_range'_1.mp (List.mem_of_mem_filter hoff)
      omega
    have hlength := length_pickAt hoffs
    have hshort : ((List.range' 1 itup.length).filter dontcare).length ≤ itup.length := by
      simpa using List.length_filter_le dontcare (List.range' 1 itup.length)
    obtain ⟨sub, hsub, hsplits⟩ := hnext hcols
      (pickAt itup ((List.range' 1 itup.length).filter dontcare)) v
      (fun it hit => hvalid it (mem_of_mem_pickAt hit)) (by omega) (by omega) hl hr
    refine ⟨{ sub with
      left := v.left ++ pickAt ((List.range' 1 itup.length).filter dontcare) sub.left
      right := v.right ++ pickAt ((List.range' 1 itup.length).filter dontcare) sub.right }, ?_,
      ?_, hsplits.lvalid, hsplits.rvalid, by simp [hleft], fun _ => by simp [hright]⟩
    · simp only [splitDontCares, hsome, hsub, bind, Except.bind, pure, Except.pure]
    · -- the parts of the don't cares are put together with the other tuples
      have hparts := hsplits.perm
      rw [hlength] at hparts
      have hmap := pickAt_perm hparts
      dsimp only
      refine List.Perm.trans ?_ ((hmap.append_left (v.left ++ v.right)).trans hperm)
      rw [List.append_assoc, List.append_assoc]
      refine List.Perm.append_left v.left ?_
      rw [← List.append_assoc, ← List.append_assoc]
      exact List.perm_append_comm.append_right _

omit [∀ j, Preorder (κ j)] in
/-- Counting off leaves few tuples on the left. -/
theorem gistSplitHalf_spec (hl : ValidKeys valid v.lattr) (hr : ValidKeys valid v.rattr)
    (htwo : 2 ≤ itup.length) (hnull : ∀ it ∈ itup, it.keys j = none) :
    SplitsAll valid [j] itup (gistSplitHalf v itup.length) where
  perm := List.perm_append_comm.trans (List.filter_append_perm _ _)
  lvalid := hl
  rvalid := hr
  left_ne := by
    refine List.ne_nil_of_mem (a := itup.length) (List.mem_filter.mpr ⟨?_, ?_⟩)
    · exact List.mem_range'_1.mpr (by omega)
    · simp
      omega
  right_ne hnot := by
    have hmany : 4 ≤ itup.length := by
      by_contra hfew
      exact hnot ⟨by omega, j, rfl, hnull⟩
    refine List.ne_nil_of_mem (a := 1) (List.mem_filter.mpr ⟨?_, ?_⟩)
    · exact List.mem_range'_1.mpr (by omega)
    · simp
      omega

omit [∀ j, Preorder (κ j)] in
/-- Some keys are NULL and others are not. -/
theorem offNullTuples_both (hsome : (columnKeys itup j).length ≠ 0)
    (hless : (columnKeys itup j).length < itup.length) :
    ((List.range' 1 itup.length).filter fun off => !offNullTuples itup j off) ≠ [] ∧
      (List.range' 1 itup.length).filter (offNullTuples itup j) ≠ [] := by
  -- the offset of a tuple
  have hoff : ∀ it ∈ itup, ∃ off ∈ List.range' 1 itup.length,
      offNullTuples itup j off = (it.keys j).isNone := by
    intro it hit
    obtain ⟨i, hi⟩ := List.mem_iff_getElem?.mp hit
    have hlt := (List.getElem?_eq_some_iff.mp hi).1
    refine ⟨i + 1, List.mem_range'_1.mpr (by omega), ?_⟩
    simp [offNullTuples, hi]
  constructor
  · obtain ⟨k, hk⟩ := List.exists_mem_of_length_pos (Nat.pos_of_ne_zero hsome)
    obtain ⟨it, hit, hk⟩ := mem_columnKeys.mp hk
    obtain ⟨off, hmem, hnull⟩ := hoff it hit
    exact List.ne_nil_of_mem (List.mem_filter.mpr ⟨hmem, by simp [hnull, hk]⟩)
  · have hnot : ¬ ∀ it ∈ itup, (it.keys j).isSome := fun hall =>
      hless.ne (List.filterMap_length_eq_length.mpr hall)
    push Not at hnot
    obtain ⟨it, hit, hnone⟩ := hnot
    obtain ⟨off, hmem, hnull⟩ := hoff it hit
    exact List.ne_nil_of_mem (List.mem_filter.mpr ⟨hmem, by simpa [hnull] using hnone⟩)

/-- The split by one column and those that remain. -/
theorem splitColumn_spec (h : giststate.Lawful valid)
    {next : List (IndexTuple κ) → GistSplitVector κ → Except Fault (GistSplitVector κ)}
    (hnext : cols ≠ [] → SplitsBy valid cols next) :
    SplitsBy valid (j :: cols) (splitColumn giststate next j cols) := by
  intro itup v hvalid htwo hmax hl hr
  have hkeys : ∀ k ∈ columnKeys itup j, valid j k := by
    intro k hk
    obtain ⟨it, hit, hk⟩ := mem_columnKeys.mp hk
    exact hvalid it hit j k hk
  unfold splitColumn
  dsimp only
  split_ifs with hnull hcols hless hunion
  · -- all keys of the last column are NULL
    subst hcols
    refine ⟨_, rfl, gistSplitHalf_spec (hl.set j none (by simp)) (hr.set j none (by simp)) htwo ?_⟩
    intro it hit
    by_contra hne
    obtain ⟨k, hk⟩ := Option.ne_none_iff_exists'.mp hne
    have hmem := mem_columnKeys.mpr ⟨it, hit, hk⟩
    rw [List.length_eq_zero_iff.mp hnull] at hmem
    simp at hmem
  · obtain ⟨v', hv', hsplits⟩ :=
      hnext hcols itup { v with lattr := v.lattr.set j none, rattr := v.rattr.set j none } hvalid
        htwo hmax (hl.set j none (by simp)) (hr.set j none (by simp))
    exact ⟨v', hv', hsplits.of_tail⟩
  · -- some are
    obtain ⟨hleft, hright⟩ := offNullTuples_both hnull hless
    obtain ⟨lattr, rattr, hrun, hlvalid, hrvalid, -⟩ := gistunionsubkey_spec h hvalid
      { v with
        left := (List.range' 1 itup.length).filter fun off => !offNullTuples itup j off
        right := (List.range' 1 itup.length).filter (offNullTuples itup j)
        rattr := v.rattr.set j none
        dontcare := none }
    exact ⟨_, hrun, List.perm_append_comm.trans (List.filter_append_perm _ _), hlvalid, hrvalid,
      hleft, fun _ => hright⟩
  · obtain ⟨hleft, hright⟩ := offNullTuples_both hnull hless
    exact ⟨_, rfl, List.perm_append_comm.trans (List.filter_append_perm _ _), hl,
      hr.set j none (by simp), hleft, fun _ => hright⟩
  · -- none is
    have hlen : (columnKeys itup j).length = itup.length :=
      le_antisymm (List.length_filterMap_le _ _) (not_lt.mp hless)
    obtain ⟨result, hrun, hlvalid, hrvalid, houtcome⟩ :=
      gistUserPicksplit_spec h hvalid cols hlen htwo hmax hkeys hl hr
    rw [hrun]
    exact splitDontCares_spec hnext hvalid htwo hmax hlvalid hrvalid houtcome

/-- The recursion over the columns. -/
theorem gistSplitByKey_splitsAll (h : giststate.Lawful valid) (hcols : cols ≠ []) :
    SplitsBy valid cols (gistSplitByKey giststate cols) := by
  induction cols with
  | nil => exact absurd rfl hcols
  | cons j cols ih =>
    intro itup v hvalid htwo hmax hl hr
    obtain ⟨v', hv', hsplits⟩ := splitColumn_spec (j := j) h ih itup v hvalid htwo hmax hl hr
    rw [gistSplitByKey, hv']
    change ∃ v'', recomputeUnions giststate j itup v' = .ok v'' ∧ _
    unfold recomputeUnions
    split_ifs
    · obtain ⟨lattr, rattr, hrun, hlvalid, hrvalid, -⟩ :=
        gistunionsubkey_spec h hvalid { v' with dontcare := none }
      exact ⟨_, hrun, hsplits.perm, hlvalid, hrvalid, hsplits.left_ne, hsplits.right_ne⟩
    · exact ⟨v', rfl, hsplits⟩

end Columns

/-! ### The split of a page -/

section Page

omit [∀ j, Preorder (κ j)] in
/-- Without NULL keys, an entry of the vector is the key of the tuple at its place. -/
theorem columnKeys_getElem? {j : Fin n} (hlen : (columnKeys itup j).length = itup.length) (i : ℕ) :
    (columnKeys itup j)[i]? = itup[i]?.bind fun it => it.keys j := by
  have hall := List.filterMap_length_eq_length.mp hlen
  clear hlen
  induction itup generalizing i with
  | nil => simp [columnKeys]
  | cons it itup ih =>
    obtain ⟨k, hk⟩ := Option.isSome_iff_exists.mp (hall it List.mem_cons_self)
    have hcons : columnKeys (it :: itup) j = k :: columnKeys itup j := by
      simp [columnKeys, hk]
    rw [hcons]
    cases i with
    | zero => simp [hk]
    | succ i => simpa using ih i fun it' hit' => hall it' (List.mem_cons_of_mem it hit')

/-- If there is one column only, then the union of its keys is that of the tuples. -/
theorem unites_of_unitesKeys {j : Fin n} (hone : ∀ i : Fin n, i = j)
    (hlen : (columnKeys itup j).length = itup.length) {offs : List ℕ}
    (hoffs : ∀ off ∈ offs, 1 ≤ off ∧ off ≤ itup.length) (hne : offs ≠ []) {datum : κ j}
    (hdatum : UnitesKeys (columnKeys itup j) offs datum) (keys : KeyVector κ) :
    Unites (pickAt itup offs) (keys.set j (some datum)) := by
  have hset : {x | ∃ a ∈ {k | ∃ it ∈ pickAt itup offs, it.keys = k}, a j = some x} =
      {x | ∃ off ∈ offs, (columnKeys itup j)[off - 1]? = some x} := by
    ext x
    constructor
    · rintro ⟨_, ⟨it, hit, rfl⟩, hx⟩
      obtain ⟨off, hoff, hget⟩ := mem_pickAt.mp hit
      exact ⟨off, hoff, by rw [columnKeys_getElem? hlen, hget]; exact hx⟩
    · rintro ⟨off, hoff, hx⟩
      rw [columnKeys_getElem? hlen, Option.bind_eq_some_iff] at hx
      obtain ⟨it, hget, hx⟩ := hx
      exact ⟨it.keys, ⟨it, mem_pickAt.mpr ⟨off, hoff, hget⟩, rfl⟩, hx⟩
  apply KeyVector.isLUB_of_columns
  · intro i hi
    rw [hone i, KeyVector.set_self] at hi
    cases hi
  · intro i k hk
    obtain rfl := hone i
    rw [KeyVector.set_self] at hk
    obtain rfl := Option.some.inj hk
    refine ⟨?_, hset ▸ hdatum⟩
    obtain ⟨it, hit⟩ := List.exists_mem_of_ne_nil _ (pickAt_ne_nil hoffs hne)
    refine ⟨it.keys, ⟨it, hit, rfl⟩, ?_⟩
    rw [← Option.isSome_iff_ne_none]
    exact List.filterMap_length_eq_length.mp hlen it (mem_of_mem_pickAt hit)

/-- Tuples without any key. -/
theorem unites_of_null {l : List (IndexTuple κ)} {keys : KeyVector κ}
    (hl : ∀ it ∈ l, ∀ j, it.keys j = none) (hkeys : ∀ j, keys j = none) : Unites l keys := by
  apply KeyVector.isLUB_of_columns
  · rintro j - _ ⟨it, hit, rfl⟩
    exact hl it hit j
  · intro j k hk
    rw [hkeys j] at hk
    cases hk

/-- The state that `gistSplit` initializes. -/
def GistSplitVector.initial : GistSplitVector κ := ⟨[], [], .missing, .missing, none⟩

omit [∀ j, Preorder (κ j)] in
theorem validKeys_missing : ValidKeys valid (KeyVector.missing : KeyVector κ) := by
  intro j k hk
  cases hk

/-- In an index of one column, the column finds the unions. -/
theorem splitColumn_unites (h : giststate.Lawful valid) (hn : n = 1) {j : Fin n}
    (next : List (IndexTuple κ) → GistSplitVector κ → Except Fault (GistSplitVector κ))
    (hvalid : ∀ it ∈ itup, ValidKeys valid it.keys) (htwo : 2 ≤ itup.length)
    (hmax : itup.length < 65535) {v : GistSplitVector κ}
    (hv : splitColumn giststate next j [] itup .initial = .ok v) :
    Unites (pickAt itup v.left) v.lattr ∧ Unites (pickAt itup v.right) v.rattr := by
  have hone : ∀ i : Fin n, i = j := fun i => Fin.ext (by omega)
  have hzero : j.val = 0 ∧ n = 1 := ⟨by omega, hn⟩
  unfold splitColumn at hv
  dsimp only at hv
  by_cases hnull : (columnKeys itup j).length = 0
  · -- all keys are NULL, and so are the unions
    rw [if_pos hnull, if_pos rfl] at hv
    obtain rfl := Except.ok.inj hv
    have hnone : ∀ offs, ∀ it ∈ pickAt itup offs, ∀ i, it.keys i = none := by
      intro offs it hit i
      obtain rfl := hone i
      by_contra hne
      obtain ⟨k, hk⟩ := Option.ne_none_iff_exists'.mp hne
      have hmem := mem_columnKeys.mpr ⟨it, mem_of_mem_pickAt hit, hk⟩
      rw [List.length_eq_zero_iff.mp hnull] at hmem
      simp at hmem
    have hkeys : ∀ (keys : KeyVector κ) i, keys.set j none i = none := by
      intro keys i
      rw [hone i, KeyVector.set_self]
    exact ⟨unites_of_null (hnone _) (hkeys _), unites_of_null (hnone _) (hkeys _)⟩
  rw [if_neg hnull] at hv
  by_cases hless : (columnKeys itup j).length < itup.length
  · rw [if_pos hless, if_pos hzero] at hv
    obtain ⟨lattr, rattr, hrun, -, -, hunites⟩ := gistunionsubkey_spec h hvalid
      { (GistSplitVector.initial : GistSplitVector κ) with
        left := (List.range' 1 itup.length).filter fun off => !offNullTuples itup j off
        right := (List.range' 1 itup.length).filter (offNullTuples itup j)
        rattr := KeyVector.missing.set j none
        dontcare := none }
    obtain rfl := Except.ok.inj (hrun.symm.trans hv)
    exact hunites rfl
  · -- the picksplit function has found them
    rw [if_neg hless] at hv
    have hlen : (columnKeys itup j).length = itup.length :=
      le_antisymm (List.length_filterMap_le _ _) (not_lt.mp hless)
    have hkeys : ∀ k ∈ columnKeys itup j, valid j k := by
      intro k hk
      obtain ⟨it, hit, hk⟩ := mem_columnKeys.mp hk
      exact hvalid it hit j k hk
    obtain ⟨sv, hsv, hsplits, hlub, hrub⟩ :=
      callPicksplit_spec h (hlen ▸ htwo) (hlen ▸ hmax) hkeys
    have hoffs : ∀ off ∈ sv.left ++ sv.right, 1 ≤ off ∧ off ≤ itup.length := by
      intro off hoff
      have := List.mem_range'_1.mp (hsplits.perm.mem_iff.mp hoff)
      omega
    have hpick : gistUserPicksplit giststate j [] (columnKeys itup j) itup .initial = .ok
        (false, ⟨sv.left, sv.right, KeyVector.missing.set j (some sv.ldatum),
          KeyVector.missing.set j (some sv.rdatum), none⟩) := by
      simp only [gistUserPicksplit, hsv, bind, Except.bind]
      rfl
    rw [hpick] at hv
    obtain rfl := Except.ok.inj hv
    exact ⟨unites_of_unitesKeys hone hlen (fun off hoff => hoffs off (List.mem_append_left _ hoff))
        hsplits.left_ne hlub _,
      unites_of_unitesKeys hone hlen (fun off hoff => hoffs off (List.mem_append_right _ hoff))
        hsplits.right_ne hrub _⟩

/-- The split of a page: every tuple is placed once, and the keys of a side are the least ones that
cover its tuples. -/
theorem exists_gistSplitByKey (h : giststate.Lawful valid) (hn : 0 < n)
    (hvalid : ∀ it ∈ itup, ValidKeys valid it.keys) (htwo : 2 ≤ itup.length)
    (hmax : itup.length < 65535) :
    ∃ v, gistSplitByKey giststate (List.finRange n) itup .initial = .ok v ∧
      SplitsAll valid (List.finRange n) itup v ∧
      Unites (pickAt itup v.left) v.lattr ∧ Unites (pickAt itup v.right) v.rattr := by
  have hcols : List.finRange n = ⟨0, hn⟩ :: (List.finRange n).tail := by
    obtain ⟨m, rfl⟩ := Nat.exists_eq_succ_of_ne_zero hn.ne'
    rw [List.finRange_succ]
    rfl
  have hne : List.finRange n ≠ [] := by
    rw [hcols]
    simp
  obtain ⟨v, hv, hsplits⟩ := gistSplitByKey_splitsAll h hne itup .initial hvalid htwo hmax
    validKeys_missing validKeys_missing
  refine ⟨v, hv, hsplits, ?_⟩
  rw [hcols, gistSplitByKey] at hv
  obtain ⟨w, hw, hv⟩ := bind_eq_ok_iff.mp hv
  unfold recomputeUnions at hv
  by_cases hseveral : 1 < n
  · -- the outermost level finds the unions
    rw [if_pos ⟨rfl, hseveral⟩] at hv
    obtain ⟨lattr, rattr, hrun, -, -, hunites⟩ :=
      gistunionsubkey_spec h hvalid { w with dontcare := none }
    obtain rfl := Except.ok.inj (hrun.symm.trans hv)
    exact hunites rfl
  · rw [if_neg fun hand => hseveral hand.2] at hv
    obtain rfl := Except.ok.inj hv
    have hlast : (List.finRange n).tail = [] := by
      rw [← List.length_eq_zero_iff, List.length_tail, List.length_finRange]
      omega
    rw [hlast] at hw
    exact splitColumn_unites h (by omega) _ hvalid htwo hmax hw

end Page

end PgRange.Gist
