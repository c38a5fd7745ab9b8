import PgRange.Gist.PageSplit
import PgRange.Math.Exec
import PgRange.Math.LinkedPages

/-!
# Placing tuples on a page of the index

`gistplacetopage` places tuples on a page, in the place of another one or in addition to those
there. If they do not fit, the page is split: it keeps the first part and is marked with the
follow-right flag, and the other parts go to new pages to the right. The root is split differently,
its parts all go to new pages and it gets their downlinks at once. If the tuples include the
downlink of the page to the right of a child, this child loses its flag and gets a new NSN in the
same step.

The pages of an index are `LinkedPages`. If all tuples have the same size, then every split has two
parts, and what `gistplacetopage` does is one of the changes of linked pages, perhaps followed by a
split.

## Main definitions

* `GistPage`, `Index`, and `Index.pages` — the linked pages that an index is
* `gistnospace`, `gistplacetopage`
* `IndexKind` — an index whose tuples have the same size
* `Index.Sound` — the invariant of an index
* `Index.Unfinished` — a split whose second part has no downlink

## Main results

* `gistSplit_two` — splits have two parts
* `gistplacetopage_returns` — the invariant is kept, and no row is lost
-/

set_option autoImplicit false

namespace PgRange.Gist

open Math

variable {n : ℕ} {κ : Fin n → Type}

/-! ### The functions of the source -/

/-- A page, with its flags, its right link (none is `InvalidBlockNumber`), its NSN and its LSN. -/
structure GistPage {n : ℕ} (κ : Fin n → Type) where
  tuples : List (IndexTuple κ)
  isLeaf : Bool
  isDeleted : Bool
  followRight : Bool
  rightlink : Option ℕ
  nsn : ℕ
  lsn : ℕ

/-- The pages of an index, their number, and the LSN of the last change. Block `0` is the root. -/
structure Index {n : ℕ} (κ : Fin n → Type) where
  page : ℕ → GistPage κ
  nblocks : ℕ
  lsn : ℕ

/-- `PageGetFreeSpace`: the bytes that are free, without those of another `ItemIdData`. -/
def GistPage.freeSpace (page : GistPage κ) : ℕ :=
  gistPageSize - (page.tuples.map IndexTuple.space).sum - 4

/-- `gistnospace`. -/
def gistnospace (page : GistPage κ) (itvec : List (IndexTuple κ)) (todelete : Option ℕ)
    (freespace : ℕ) : Bool :=
  let size := freespace + (itvec.map IndexTuple.space).sum
  let deleted :=
    match todelete with
    | none => 0
    | some off => (page.tuples[off - 1]?.map IndexTuple.space).getD 0
  page.freeSpace + deleted < size

/-- The tuples that are left if the one at an offset is removed. -/
def removeAt (tuples : List (IndexTuple κ)) : Option ℕ → List (IndexTuple κ)
  | none => tuples
  | some off => tuples.eraseIdx (off - 1)

/-- The tuples to split: without the old one, and with the new ones at the end. -/
def splitVector (tuples : List (IndexTuple κ)) (oldoffnum : Option ℕ)
    (itup : List (IndexTuple κ)) : List (IndexTuple κ) :=
  removeAt tuples oldoffnum ++ itup

/-- The tuples of a page with enough space. One tuple takes the place of the old one. -/
def updatedTuples (tuples : List (IndexTuple κ)) (oldoffnum : Option ℕ)
    (itup : List (IndexTuple κ)) : List (IndexTuple κ) :=
  match oldoffnum, itup with
  | some off, [it] => tuples.set (off - 1) it
  | _, _ => removeAt tuples oldoffnum ++ itup

/-- `ItemPointerSetBlockNumber` and `GistTupleSetValid`: make a tuple the downlink of a page. -/
def IndexTuple.pointTo (it : IndexTuple κ) (blkno : ℕ) : IndexTuple κ :=
  { it with tid := ⟨blkno, 0xffff⟩ }

/-- The right link of a page of a split: the next page, or what was to the right before. -/
def nextBlock (oldrlink : Option ℕ) : List (ℕ × List (IndexTuple κ)) → Option ℕ
  | [] => oldrlink
  | next :: _ => some next.1

/-- Fill the pages of a split. All but the last one are linked to the next, and marked if
`markfollowright` is set. -/
def writePages (isLeaf markfollowright : Bool) (oldrlink : Option ℕ) (oldnsn recptr : ℕ) :
    List (ℕ × List (IndexTuple κ)) → (ℕ → GistPage κ) → ℕ → GistPage κ
  | [], page => page
  | (blkno, list) :: rest, page =>
    writePages isLeaf markfollowright oldrlink oldnsn recptr rest <| Function.update page blkno
      { tuples := list
        isLeaf := isLeaf
        isDeleted := false
        followRight := markfollowright && !rest.isEmpty
        rightlink := nextBlock oldrlink rest
        nsn := oldnsn
        lsn := recptr }

/-- The NSN and the flag of the left child. -/
def markLeftChild (leftchild : Option ℕ) (recptr : ℕ) (page : ℕ → GistPage κ) :
    ℕ → GistPage κ :=
  match leftchild with
  | none => page
  | some left =>
    Function.update page left { page left with nsn := recptr, followRight := false, lsn := recptr }

/-- What `gistplacetopage` leaves: the pages, whether there was a split, and the pages that are left
to get a downlink. -/
structure PlaceResult {n : ℕ} (κ : Fin n → Type) where
  index : Index κ
  isSplit : Bool
  splitinfo : List (ℕ × IndexTuple κ)

/-- The blocks of a split. A page keeps its own for the first part. -/
def splitBlocks (index : Index κ) (blkno npages : ℕ) : List ℕ :=
  blkno :: List.range' index.nblocks (npages - 1)

/-- A split of a page that is not the root. -/
def splitPage (index : Index κ) (blkno : ℕ) (dist : List (SplitedPageLayout κ))
    (leftchild : Option ℕ) : PlaceResult κ :=
  let page := index.page blkno
  let recptr := index.lsn + 1
  let blocks := splitBlocks index blkno dist.length
  { index :=
      { page := markLeftChild leftchild recptr <|
          writePages page.isLeaf true page.rightlink page.nsn recptr
            (blocks.zip (dist.map SplitedPageLayout.list)) index.page
        nblocks := index.nblocks + (dist.length - 1)
        lsn := recptr }
    isSplit := true
    splitinfo := (blocks.zip dist).map fun part => (part.1, part.2.itup.pointTo part.1) }

/-- The downlinks on the new root page. -/
def rootDownlinks (index : Index κ) (dist : List (SplitedPageLayout κ)) : List (IndexTuple κ) :=
  ((List.range' index.nblocks dist.length).zip dist).map fun part => part.2.itup.pointTo part.1

/-- A split of the root. -/
def splitRoot (index : Index κ) (dist : List (SplitedPageLayout κ)) (leftchild : Option ℕ) :
    PlaceResult κ :=
  let recptr := index.lsn + 1
  { index :=
      { page := markLeftChild leftchild recptr <|
          Function.update
            (writePages (index.page 0).isLeaf false none 0 recptr
              ((List.range' index.nblocks dist.length).zip (dist.map SplitedPageLayout.list))
              index.page)
            0
            { tuples := rootDownlinks index dist
              isLeaf := false
              isDeleted := false
              followRight := false
              rightlink := none
              nsn := 0
              lsn := recptr }
        nblocks := index.nblocks + dist.length
        lsn := recptr }
    isSplit := true
    splitinfo := [] }

/-- The pages as if the tuples fitted on the page. -/
def Index.placed (index : Index κ) (blkno : ℕ) (tuples : List (IndexTuple κ))
    (leftchild : Option ℕ) : Index κ :=
  let recptr := index.lsn + 1
  { page := markLeftChild leftchild recptr <|
      Function.update index.page blkno { index.page blkno with tuples := tuples, lsn := recptr }
    nblocks := index.nblocks
    lsn := recptr }

/-- `GIST_MAX_SPLIT_PAGES`. -/
def gistMaxSplitPages : ℕ := 75

/-- The part of `gistplacetopage` that writes the pages of a split. -/
def placeSplit (index : Index κ) (blkno : ℕ) (dist : List (SplitedPageLayout κ))
    (leftchild : Option ℕ) : Except GistError (PlaceResult κ) :=
  let npage := dist.length + if blkno = 0 then 1 else 0
  if gistMaxSplitPages < npage then .error (.tooManySplitPages npage)
  else if blkno = 0 then
    -- the other pages were split until they fitted, but the root need not
    if gistfitpage (rootDownlinks index dist) then .ok (splitRoot index dist leftchild)
    else .error .failedToAddItem
  else .ok (splitPage index blkno dist leftchild)

/-- `gistplacetopage`. The number `depth` is the depth of the stack. -/
def gistplacetopage (giststate : GistState κ) (depth freespace : ℕ) (index : Index κ) (blkno : ℕ)
    (itup : List (IndexTuple κ)) (oldoffnum leftchild : Option ℕ) :
    Except GistError (PlaceResult κ) :=
  let page := index.page blkno
  if page.followRight then .error .incompleteSplit
  else if gistnospace page itup oldoffnum freespace then
    gistSplit giststate depth (splitVector page.tuples oldoffnum itup) >>= fun dist =>
      placeSplit index blkno dist leftchild
  else
    .ok ⟨index.placed blkno (updatedTuples page.tuples oldoffnum itup) leftchild, false, []⟩

/-! ### The linked pages -/

/-- The block that a tuple points to. -/
def IndexTuple.child (it : IndexTuple κ) : ℕ := it.tid.block

def GistPage.linked (page : GistPage κ) : LinkedPage (IndexTuple κ) :=
  ⟨page.tuples, page.isLeaf, page.rightlink, page.followRight⟩

/-- The pages of the index. -/
def Index.pages (index : Index κ) : LinkedPages (IndexTuple κ) where
  page b := (index.page b).linked
  size := index.nblocks

section Pages

variable {index : Index κ} {blkno left : ℕ} {tuples : List (IndexTuple κ)}
  {leftchild oldoffnum : Option ℕ} {itup : List (IndexTuple κ)} {freespace : ℕ}

theorem pages_page (b : ℕ) : index.pages.page b = (index.page b).linked := rfl

/-- A page is written. -/
theorem pages_update (index : Index κ) (b : ℕ) (page : GistPage κ) (nblocks lsn : ℕ) :
    (⟨Function.update index.page b page, nblocks, lsn⟩ : Index κ).pages =
      { index.pages.set b page.linked with size := nblocks } :=
  congrArg (LinkedPages.mk · nblocks) (funext (Function.apply_update (fun _ => GistPage.linked)
    index.page b page))

/-- Without a left child, only the tuples change. -/
theorem pages_placed (index : Index κ) (blkno : ℕ) (tuples : List (IndexTuple κ)) :
    (index.placed blkno tuples none).pages = index.pages.rewrite blkno tuples :=
  pages_update ..

/-- With a left child, it loses its flag as well. -/
theorem pages_placed_leftchild (index : Index κ) {blkno left : ℕ} (hne : left ≠ blkno)
    (tuples : List (IndexTuple κ)) : (index.placed blkno tuples (some left)).pages =
      (index.pages.rewrite blkno tuples).clear left := by
  refine (pages_update (index.placed blkno tuples none) ..).trans ?_
  have hleft : index.pages.page left = (Function.update index.page blkno
      { index.page blkno with tuples := tuples, lsn := index.lsn + 1 } left).linked := by
    rw [Function.update_of_ne hne]
    rfl
  rw [pages_placed, LinkedPages.clear, LinkedPages.rewrite_page_of_ne hne, hleft]
  rfl

theorem linkedPages_ext {P P' : LinkedPages (IndexTuple κ)} (hsize : P.size = P'.size)
    (hpage : ∀ b, P.page b = P'.page b) : P = P' := by
  cases P
  cases P'
  obtain rfl : _ = _ := hsize
  obtain rfl : _ = _ := funext hpage
  rfl

/-- The left child is on the page below, and both are in use. -/
def Beside (index : Index κ) (blkno : ℕ) (leftchild : Option ℕ) : Prop :=
  ∀ left, leftchild = some left → left < index.nblocks ∧ left ≠ blkno

theorem markLeftChild_cases (leftchild : Option ℕ) (recptr : ℕ) (page : ℕ → GistPage κ) (b : ℕ) :
    leftchild = some b ∧ markLeftChild leftchild recptr page b =
        { page b with nsn := recptr, followRight := false, lsn := recptr } ∨
      leftchild ≠ some b ∧ markLeftChild leftchild recptr page b = page b := by
  cases leftchild with
  | none => exact .inr ⟨by simp, rfl⟩
  | some left =>
    by_cases hb : b = left
    · subst hb
      exact .inl ⟨rfl, Function.update_self ..⟩
    · exact .inr ⟨fun heq => hb (Option.some.inj heq).symm, Function.update_of_ne hb ..⟩

theorem markLeftChild_other {recptr b : ℕ} {page : ℕ → GistPage κ} (hb : leftchild ≠ some b) :
    markLeftChild leftchild recptr page b = page b :=
  (markLeftChild_cases leftchild recptr page b).resolve_left (fun h => hb h.1) |>.2

theorem markLeftChild_congr {recptr b : ℕ} {page page' : ℕ → GistPage κ} (h : page b = page' b) :
    markLeftChild leftchild recptr page b = markLeftChild leftchild recptr page' b := by
  cases leftchild with
  | none => exact h
  | some left =>
    by_cases hb : b = left
    · subst hb
      simp [markLeftChild, h]
    · simp [markLeftChild, hb, h]

theorem placed_page_self (h : Beside index blkno leftchild) :
    (index.placed blkno tuples leftchild).page blkno =
      { index.page blkno with tuples := tuples, lsn := index.lsn + 1 } := by
  unfold Index.placed
  dsimp only
  rw [markLeftChild_other fun hl => (h _ hl).2 rfl, Function.update_self]

theorem pages_placed_self (h : Beside index blkno leftchild) (tuples : List (IndexTuple κ)) :
    (index.placed blkno tuples leftchild).pages.page blkno =
      { (index.page blkno).linked with entries := tuples } :=
  congrArg GistPage.linked (placed_page_self h)

theorem placed_page_of_ne {b : ℕ} (hb : b ≠ blkno) : (index.placed blkno tuples leftchild).page b =
    markLeftChild leftchild (index.lsn + 1) index.page b :=
  markLeftChild_congr (Function.update_of_ne hb ..)

variable {a c : SplitedPageLayout κ}

/-- The pages of a split in two. -/
theorem splitPage_page (hlt : blkno < index.nblocks) (h : Beside index blkno leftchild) (b : ℕ) :
    (splitPage index blkno [a, c] leftchild).index.page b =
      if b = index.nblocks then { index.page blkno with
        tuples := c.list, isDeleted := false, followRight := false, lsn := index.lsn + 1 }
      else if b = blkno then { index.page blkno with
        tuples := a.list, isDeleted := false, followRight := true,
        rightlink := some index.nblocks, lsn := index.lsn + 1 }
      else markLeftChild leftchild (index.lsn + 1) index.page b := by
  have hleft : b = index.nblocks ∨ b = blkno → leftchild ≠ some b := by
    rintro hb hl
    have := h b hl
    omega
  unfold splitPage
  dsimp only
  split_ifs with hnew hb
  · rw [markLeftChild_other (hleft (.inl hnew))]
    simp [writePages, splitBlocks, nextBlock, hnew]
  · rw [markLeftChild_other (hleft (.inr hb))]
    simp [writePages, splitBlocks, nextBlock, hb, hlt.ne]
  · refine markLeftChild_congr ?_
    simp [writePages, splitBlocks, nextBlock, hnew, hb]

/-- A split comes after the tuples have been placed. -/
theorem pages_splitPage (hlt : blkno < index.nblocks) (h : Beside index blkno leftchild)
    (hflag : (index.page blkno).followRight = false) (tuples : List (IndexTuple κ)) :
    (splitPage index blkno [a, c] leftchild).index.pages =
      (index.placed blkno tuples leftchild).pages.splitOff blkno a.list c.list := by
  refine linkedPages_ext rfl fun b => ?_
  have hself := pages_placed_self h tuples
  have hsize : (index.placed blkno tuples leftchild).pages.size = index.nblocks := rfl
  rw [pages_page, splitPage_page hlt h]
  by_cases hnew : b = index.nblocks
  · rw [if_pos hnew, hnew, ← hsize, LinkedPages.splitOff_page_new (hsize ▸ hlt), hself]
    simp [GistPage.linked, hflag]
  · rw [if_neg hnew]
    by_cases hb : b = blkno
    · rw [if_pos hb, hb, LinkedPages.splitOff_page_self, hself]
      rfl
    · rw [if_neg hb, LinkedPages.splitOff_page_of_ne hb (hsize ▸ hnew)]
      rw [pages_page, placed_page_of_ne hb]

/-- The pages of a split of the root in two. -/
theorem splitRoot_page (h : Beside index 0 leftchild) (b : ℕ) :
    (splitRoot index [a, c] leftchild).index.page b =
      if b = 0 then
        ⟨rootDownlinks index [a, c], false, false, false, none, 0, index.lsn + 1⟩
      else if b = index.nblocks then
        ⟨a.list, (index.page 0).isLeaf, false, false, some (index.nblocks + 1), 0, index.lsn + 1⟩
      else if b = index.nblocks + 1 then
        ⟨c.list, (index.page 0).isLeaf, false, false, none, 0, index.lsn + 1⟩
      else markLeftChild leftchild (index.lsn + 1) index.page b := by
  have hblocks : (List.range' index.nblocks [a, c].length).zip ([a, c].map SplitedPageLayout.list) =
      [(index.nblocks, a.list), (index.nblocks + 1, c.list)] := rfl
  have hleft : b = 0 ∨ b = index.nblocks ∨ b = index.nblocks + 1 → leftchild ≠ some b := by
    rintro hb hl
    have := h b hl
    omega
  unfold splitRoot
  dsimp only
  rw [hblocks]
  split_ifs with h0 hl hr
  · rw [markLeftChild_other (hleft (.inl h0)), h0, Function.update_self]
  · rw [markLeftChild_other (hleft (.inr (.inl hl)))]
    simp [writePages, nextBlock, hl ▸ h0, hl]
  · rw [markLeftChild_other (hleft (.inr (.inr hr)))]
    simp [writePages, nextBlock, hr]
  · refine markLeftChild_congr ?_
    simp [writePages, nextBlock, h0, hl, hr]

theorem pages_splitRoot [∀ j, Preorder (κ j)] {level rank : ℕ → ℕ} (h : Beside index 0 leftchild)
    (hplaced : (index.placed 0 tuples leftchild).pages.Sound IndexTuple.keys IndexTuple.child level
      rank)
    (d₀ : IndexTuple κ) : (splitRoot index [a, c] leftchild).index.pages =
      (index.placed 0 tuples leftchild).pages.growRoot d₀ (a.itup.pointTo index.nblocks)
        (c.itup.pointTo (index.nblocks + 1)) a.list c.list := by
  refine linkedPages_ext rfl fun b => ?_
  have hself := pages_placed_self h tuples
  have hsize : (index.placed 0 tuples leftchild).pages.size = index.nblocks := rfl
  rw [pages_page, splitRoot_page h]
  by_cases h0 : b = 0
  · rw [if_pos h0, h0, LinkedPages.growRoot_page_root hplaced.size_pos]
    simp [GistPage.linked, rootDownlinks, List.range']
  · by_cases hl : b = index.nblocks
    · rw [if_neg h0, if_pos hl, hl, ← hsize, LinkedPages.growRoot_page_left hplaced.size_pos,
        hself]
      rfl
    · by_cases hr : b = index.nblocks + 1
      · rw [if_neg h0, if_neg hl, if_pos hr, hr, ← hsize, LinkedPages.growRoot_page_right hplaced,
          hself]
        rfl
      · rw [if_neg h0, if_neg hl, if_neg hr,
          LinkedPages.growRoot_page_of_ne h0 (hsize ▸ hl) (hsize ▸ hr)]
        rw [pages_page, placed_page_of_ne h0]

/-- The left child loses its flag. -/
theorem markLeftChild_flag {recptr b : ℕ} {page : ℕ → GistPage κ}
    (hb : (markLeftChild leftchild recptr page b).followRight = true) :
    (page b).followRight = true ∧ leftchild ≠ some b := by
  rcases markLeftChild_cases leftchild recptr page b with ⟨-, heq⟩ | ⟨hne, heq⟩
  · rw [heq] at hb
    cases hb
  · exact ⟨heq ▸ hb, hne⟩

/-! ### What is placed -/

/-- The tuples are those to split, also if one takes the place of another. -/
theorem updatedTuples_perm {tuples : List (IndexTuple κ)} (itup : List (IndexTuple κ))
    (hold : ∀ off, oldoffnum = some off → off - 1 < tuples.length) :
    (updatedTuples tuples oldoffnum itup).Perm (splitVector tuples oldoffnum itup) := by
  unfold updatedTuples splitVector
  split
  · rename_i off it
    exact (List.set_perm_cons_eraseIdx (hold off rfl) it).trans
      (List.perm_append_singleton _ _).symm
  · exact .refl _

theorem mem_splitVector {tuples : List (IndexTuple κ)} {it : IndexTuple κ}
    (h : it ∈ splitVector tuples oldoffnum itup) : it ∈ tuples ∨ it ∈ itup := by
  refine (List.mem_append.mp h).imp_left fun hmem => ?_
  cases oldoffnum with
  | none => exact hmem
  | some off => exact List.mem_of_mem_eraseIdx hmem

/-- The space of the tuples to split. -/
theorem space_splitVector (tuples itup : List (IndexTuple κ)) (oldoffnum : Option ℕ) :
    ((splitVector tuples oldoffnum itup).map IndexTuple.space).sum +
        (match oldoffnum with
          | none => 0
          | some off => (tuples[off - 1]?.map IndexTuple.space).getD 0) =
      (tuples.map IndexTuple.space).sum + (itup.map IndexTuple.space).sum := by
  rw [splitVector, List.map_append, List.sum_append]
  cases oldoffnum with
  | none => rfl
  | some off =>
    dsimp only [removeAt]
    by_cases hoff : off - 1 < tuples.length
    · have hperm := ((List.getElem_cons_eraseIdx_perm hoff).map IndexTuple.space).sum_eq
      rw [List.map_cons, List.sum_cons] at hperm
      rw [List.getElem?_eq_getElem hoff, Option.map_some, Option.getD_some]
      omega
    · rw [List.eraseIdx_of_length_le (by omega), List.getElem?_eq_none (by omega)]
      simp

/-- What is placed without a split fits. -/
theorem fits_of_space {page : GistPage κ} (hfits : gistfitpage page.tuples = true)
    (hspace : gistnospace page itup oldoffnum freespace = false) :
    gistfitpage (splitVector page.tuples oldoffnum itup) = true := by
  have hsum := space_splitVector page.tuples itup oldoffnum
  rw [gistfitpage, decide_eq_true_iff] at hfits ⊢
  unfold gistnospace GistPage.freeSpace at hspace
  rw [decide_eq_false_iff_not] at hspace
  omega

theorem gistfitpage_perm {l l' : List (IndexTuple κ)} (h : l.Perm l') :
    gistfitpage l = gistfitpage l' := by
  rw [gistfitpage, gistfitpage, (h.map IndexTuple.space).sum_eq]

end Pages

/-! ### Tuples of the same size -/

variable [∀ j, Preorder (κ j)]

/-- An index whose tuples have the same size, and two of them fit on a page. There is a key in every
column, and unions of its keys are such keys. -/
structure IndexKind (giststate : GistState κ) (valid : (j : Fin n) → κ j → Prop) where
  lawful : giststate.Lawful valid
  columns : 0 < n
  Keys : KeyVector κ → Prop
  validKeys : ∀ {keys}, Keys keys → ValidKeys valid keys
  notNull : ∀ {keys}, Keys keys → ∀ j, keys j ≠ none
  unites : ∀ {itvec : List (IndexTuple κ)} {keys}, itvec ≠ [] → (∀ it ∈ itvec, Keys it.keys) →
    ValidKeys valid keys → Unites itvec keys → Keys keys
  size : ℕ
  formSize : ∀ {keys}, Keys keys → giststate.formSize keys = size
  room : 2 * (size + 4) + 4 ≤ gistPageSize

variable {giststate : GistState κ} {valid : (j : Fin n) → κ j → Prop}
  {kind : IndexKind giststate valid}

/-- A tuple of this kind, which is not marked as invalid. -/
structure Good (kind : IndexKind giststate valid) (it : IndexTuple κ) : Prop where
  keys : kind.Keys it.keys
  size_eq : it.size = kind.size
  not_invalid : it.tid.offset ≠ 0xfffe

theorem Good.pointTo {it : IndexTuple κ} (h : Good kind it) (blkno : ℕ) :
    Good kind (it.pointTo blkno) :=
  ⟨h.keys, h.size_eq, show 0xffff ≠ 0xfffe by decide⟩

section Split

theorem space_of_good {itvec : List (IndexTuple κ)} (hgood : ∀ it ∈ itvec, Good kind it) :
    (itvec.map IndexTuple.space).sum = itvec.length * (kind.size + 4) := by
  rw [List.map_congr_left fun it hit => show it.space = kind.size + 4 by
    rw [IndexTuple.space, (hgood it hit).size_eq], List.map_const', List.sum_replicate_nat]

/-- Tuples are formed, and downlinks are adjusted. -/
theorem IndexKind.form (kind : IndexKind giststate valid) {attr : KeyVector κ}
    (hattr : kind.Keys attr) :
    ∃ it, gistFormTuple giststate attr = .ok it ∧ it.keys = attr ∧ Good kind it := by
  have hroom := kind.room
  rw [← kind.formSize hattr] at hroom
  have hsize : giststate.formSize attr ≤ indexSizeMask := by
    unfold gistPageSize at hroom
    unfold indexSizeMask
    omega
  refine ⟨⟨attr, ⟨0, 0xffff⟩, giststate.formSize attr⟩, ?_, rfl, hattr, kind.formSize hattr,
    show 0xffff ≠ 0xfffe by decide⟩
  rw [gistFormTuple, if_pos hsize]

/-- The tuples are in two parts with downlinks. -/
structure Halves (kind : IndexKind giststate valid) (itvec : List (IndexTuple κ))
    (a c : SplitedPageLayout κ) : Prop where
  pages : PagesOf valid itvec [a, c]
  ne_nil : ∀ part ∈ [a, c], part.list ≠ []
  good : ∀ part ∈ [a, c], Good kind part.itup

/-- If the tuples would fit but for one, then they are split in two. -/
theorem gistSplit_two {itvec : List (IndexTuple κ)} {depth m : ℕ}
    (hgood : ∀ it ∈ itvec, Good kind it) (htwo : 2 ≤ itvec.length)
    (hcount : itvec.length ≤ m + 1) (hm : m * (kind.size + 4) ≤ gistPageSize) :
    ∃ a c, gistSplit giststate (depth + 1) itvec = .ok [a, c] ∧ Halves kind itvec a c := by
  have hne : itvec ≠ [] := by
    rintro rfl
    simp at htwo
  have hvalid : ∀ it ∈ itvec, ValidKeys valid it.keys := fun it hit =>
    kind.validKeys (hgood it hit).keys
  have hmax : itvec.length < 65535 := by
    have hfew : m * 4 ≤ m * (kind.size + 4) := Nat.mul_le_mul_left m (by omega)
    unfold gistPageSize at hm
    omega
  obtain ⟨v, hv, hsplits, hlub, hrub⟩ :=
    exists_gistSplitByKey kind.lawful kind.columns hvalid htwo hmax
  have hfull : ¬ FewLastNull (List.finRange n) itvec := by
    rintro ⟨-, j, -, hnull⟩
    obtain ⟨it, hit⟩ := List.exists_mem_of_ne_nil _ hne
    exact kind.notNull (hgood it hit).keys j (hnull it hit)
  have hoffs : ∀ off ∈ v.left ++ v.right, 1 ≤ off ∧ off ≤ itvec.length := by
    intro off hoff
    have := List.mem_range'_1.mp (hsplits.perm.mem_iff.mp hoff)
    omega
  have hlne : pickAt itvec v.left ≠ [] :=
    pickAt_ne_nil (fun off hoff => hoffs off (List.mem_append_left _ hoff)) hsplits.left_ne
  have hrne : pickAt itvec v.right ≠ [] :=
    pickAt_ne_nil (fun off hoff => hoffs off (List.mem_append_right _ hoff))
      (hsplits.right_ne hfull)
  have hlength := (pickAt_perm hsplits.perm).length_eq
  rw [List.length_append] at hlength
  have hlpos := List.length_pos_iff.mpr hlne
  have hrpos := List.length_pos_iff.mpr hrne
  -- each part has at most as many tuples as fit
  have hside : ∀ offs attr, (pickAt itvec offs).length ≤ m → pickAt itvec offs ≠ [] →
      ValidKeys valid attr → Unites (pickAt itvec offs) attr →
      ∃ it, splitSide giststate (gistSplit giststate depth) (pickAt itvec offs) attr =
        .ok [⟨pickAt itvec offs, it⟩] ∧ Good kind it := by
    intro offs attr hle hne hattr hunites
    have hpart : ∀ it ∈ pickAt itvec offs, Good kind it := fun it hit =>
      hgood it (mem_of_mem_pickAt hit)
    have hfits : gistfitpage (pickAt itvec offs) = true := by
      rw [gistfitpage, decide_eq_true_iff, space_of_good hpart]
      exact (Nat.mul_le_mul_right _ hle).trans hm
    obtain ⟨it, hit, -, hgood⟩ :=
      kind.form (kind.unites hne (fun it hit => (hpart it hit).keys) hattr hunites)
    exact ⟨it, by rw [splitSide, if_pos hfits, hit]; rfl, hgood⟩
  obtain ⟨ritup, hright, hrgood⟩ := hside v.right v.rattr (by omega) hrne hsplits.rvalid hrub
  obtain ⟨litup, hleft, hlgood⟩ := hside v.left v.lattr (by omega) hlne hsplits.lvalid hlub
  have hrun : gistSplit giststate (depth + 1) itvec =
      .ok [⟨pickAt itvec v.left, litup⟩, ⟨pickAt itvec v.right, ritup⟩] := by
    rw [gistSplit_succ htwo, hv]
    simp [callSupport, Except.mapError, hright, hleft, bind, Except.bind]
  exact ⟨_, _, hrun, gistSplit_pagesOf kind.lawful kind.columns hvalid hne hmax hrun,
    by simp [hlne, hrne], by simp [hlgood, hrgood]⟩

section Halves

variable {itvec : List (IndexTuple κ)} {a c part : SplitedPageLayout κ} {it : IndexTuple κ}
  (h : Halves kind itvec a c) (hpart : part ∈ [a, c])

include h

theorem Halves.perm : (a.list ++ c.list).Perm itvec := by
  simpa using h.pages.perm

include hpart

theorem Halves.mem (hit : it ∈ part.list) : it ∈ itvec :=
  h.pages.perm.mem_iff.mp (List.mem_flatMap.mpr ⟨part, hpart, hit⟩)

theorem Halves.le (hit : it ∈ part.list) : it.keys ≤ part.itup.keys :=
  (h.pages.unites part hpart).1 ⟨it, hit, rfl⟩

theorem Halves.le_of_forall {keys : KeyVector κ} (hkeys : ∀ it ∈ part.list, it.keys ≤ keys) :
    part.itup.keys ≤ keys := by
  refine (h.pages.unites part hpart).2 ?_
  rintro _ ⟨it, hit, rfl⟩
  exact hkeys it hit

end Halves

end Split

/-! ### The invariant of an index -/

/-- What holds on each page. -/
structure GistPage.Ok (kind : IndexKind giststate valid) (lsn : ℕ) (page : GistPage κ) : Prop where
  good : ∀ it ∈ page.tuples, Good kind it
  fits : gistfitpage page.tuples = true
  nonempty : page.isLeaf = false → page.tuples ≠ []
  live : page.isDeleted = false
  lsn_pos : 0 < page.lsn
  lsn_le : page.lsn ≤ lsn
  nsn_le : page.nsn ≤ lsn

/-- The pages are linked as they should be, and no page has an NSN that its parent does not know. -/
structure Index.Sound (kind : IndexKind giststate valid) (index : Index κ)
    (level rank : ℕ → ℕ) : Prop where
  pages : index.pages.Sound IndexTuple.keys IndexTuple.child level rank
  ok : ∀ b, (index.page b).Ok kind index.lsn
  nsn_le : ∀ {b it}, it ∈ (index.pages.page b).downs →
    (index.page it.child).nsn ≤ (index.page b).lsn

/-- A downlink for a page covers the keys. -/
def Index.Above (index : Index κ) (keys : KeyVector κ) (blkno : ℕ) : Prop :=
  LinkedPages.Above IndexTuple.keys IndexTuple.child index.pages keys blkno

/-- Page `e` was split, and the second part `r` has no downlink yet. The tuples `d` and `d'` are
downlinks for both, and cover no more than the one that there is. -/
structure Index.Unfinished (kind : IndexKind giststate valid) (index : Index κ) (e r : ℕ)
    (d d' : IndexTuple κ) : Prop where
  pending : (index.page e).followRight = true
  next : (index.page e).rightlink = some r
  child_left : d.child = e
  child_right : d'.child = r
  good_left : Good kind d
  good_right : Good kind d'
  left : ∀ it ∈ (index.page e).tuples, it.keys ≤ d.keys
  right : ∀ it ∈ (index.page r).tuples, it.keys ≤ d'.keys
  below : ∀ {b it}, it ∈ (index.pages.page b).downs → it.child = e →
    d.keys ≤ it.keys ∧ d'.keys ≤ it.keys

section Placing

variable {index index' : Index κ} {level rank level' rank' : ℕ → ℕ} {blkno depth : ℕ}
  {oldoffnum leftchild : Option ℕ} {itup es added : List (IndexTuple κ)}
  {a c : SplitedPageLayout κ}

/-- A change writes pages with the newest LSN, among them the one with the downlink of the left
child. -/
theorem Index.Sound.of_change (h : index.Sound kind level rank)
    (hpages : index'.pages.Sound IndexTuple.keys IndexTuple.child level' rank')
    (hlsn : index'.lsn = index.lsn + 1)
    (hpage : ∀ b, (index'.page b).Ok kind (index.lsn + 1) ∧
        (index'.page b).lsn = index.lsn + 1 ∧
        (b < index.nblocks → (index'.page b).nsn ≤ (index.page b).nsn) ∨
      index'.page b = markLeftChild leftchild (index.lsn + 1) index.page b)
    (hself : (index'.page blkno).lsn = index.lsn + 1) (hleft : ∀ e, leftchild = some e →
      ∃ d ∈ (index.pages.page blkno).downs, d.child = e) : index'.Sound kind level' rank' := by
  have hok : ∀ b, (index'.page b).Ok kind (index.lsn + 1) := by
    intro b
    rcases hpage b with ⟨hok, -⟩ | heq
    · exact hok
    · have hold := h.ok b
      rcases markLeftChild_cases leftchild (index.lsn + 1) index.page b with ⟨-, hb⟩ | ⟨-, hb⟩
      · rw [heq, hb]
        exact { hold with lsn_pos := Nat.succ_pos _, lsn_le := le_rfl, nsn_le := le_rfl }
      · rw [heq, hb]
        exact { hold with
          lsn_le := hold.lsn_le.trans (Nat.le_succ _), nsn_le := hold.nsn_le.trans (Nat.le_succ _) }
  refine ⟨hpages, hlsn ▸ hok, fun {b it} hit => ?_⟩
  by_cases hnew : (index'.page b).lsn = index.lsn + 1
  · rw [hnew]
    exact (hok it.child).nsn_le
  · -- a page that was not written knows the NSNs below, which stay the same
    have hsame : index'.page b = index.page b := by
      rcases hpage b with ⟨-, hb, -⟩ | heq
      · exact absurd hb hnew
      · rcases markLeftChild_cases leftchild (index.lsn + 1) index.page b with ⟨-, hb⟩ | ⟨-, hb⟩
        · rw [heq, hb] at hnew
          exact absurd rfl hnew
        · rw [heq, hb]
    have hold : it ∈ (index.pages.page b).downs := by
      rwa [pages_page, hsame] at hit
    rw [hsame]
    refine le_trans ?_ (h.nsn_le hold)
    rcases hpage it.child with ⟨-, -, hnsn⟩ | heq
    · exact hnsn (h.pages.down hold).2.1
    · rcases markLeftChild_cases leftchild (index.lsn + 1) index.page it.child with
        ⟨hl, -⟩ | ⟨-, hb⟩
      · obtain ⟨d, hd, hchild⟩ := hleft _ hl
        obtain rfl := (h.pages.down_inj hold hd hchild.symm).1
        exact absurd hself hnew
      · rw [heq, hb]

/-! ### Edits -/

/-- An edit of a page: tuples are placed there, at most one more than before, and a left child gets
its downlink. The linked pages stay sound, whatever the order of the tuples is. -/
structure Edit (kind : IndexKind giststate valid) (index : Index κ) (level rank : ℕ → ℕ)
    (blkno : ℕ) (itup : List (IndexTuple κ)) (oldoffnum leftchild : Option ℕ)
    (added : List (IndexTuple κ)) : Prop where
  lt : blkno < index.nblocks
  old : ∀ off, oldoffnum = some off → off - 1 < (index.page blkno).tuples.length
  ne_nil : itup ≠ []
  good : ∀ it ∈ itup, Good kind it
  count : (splitVector (index.page blkno).tuples oldoffnum itup).length ≤
    (index.page blkno).tuples.length + 1
  left : ∀ e, leftchild = some e → ∃ d ∈ (index.pages.page blkno).downs, d.child = e
  sound : ∀ es, es.Perm (splitVector (index.page blkno).tuples oldoffnum itup) →
    (index.placed blkno es leftchild).pages.Sound IndexTuple.keys IndexTuple.child level rank
  adds : ∀ es, es.Perm (splitVector (index.page blkno).tuples oldoffnum itup) →
    index.pages.Adds (index.placed blkno es leftchild).pages added

section Edit

variable (h : index.Sound kind level rank)
  (he : Edit kind index level rank blkno itup oldoffnum leftchild added)
  (hes : es.Perm (splitVector (index.page blkno).tuples oldoffnum itup))

include h he

theorem Edit.good_splitVector :
    ∀ it ∈ splitVector (index.page blkno).tuples oldoffnum itup, Good kind it := fun it hit =>
  (mem_splitVector hit).elim ((h.ok blkno).good it) (he.good it)

theorem Edit.beside : Beside index blkno leftchild := by
  intro e hl
  obtain ⟨d, hd, rfl⟩ := he.left e hl
  exact ⟨(h.pages.down hd).2.1, h.pages.down_ne hd⟩

omit h in
theorem Edit.splitVector_ne_nil :
    splitVector (index.page blkno).tuples oldoffnum itup ≠ [] := by
  simp [splitVector, he.ne_nil]

include hes

theorem Edit.placed_sound (hfits : gistfitpage es = true) :
    (index.placed blkno es leftchild).Sound kind level rank := by
  have hself : (index.placed _ es _).page _ = _ := placed_page_self (he.beside h)
  refine h.of_change (he.sound es hes) rfl (fun b => ?_) (by rw [hself]) he.left
  by_cases hb : b = blkno
  · subst hb
    have hok := h.ok b
    rw [hself]
    refine .inl ⟨⟨fun it hit => he.good_splitVector h it (hes.mem_iff.mp hit), hfits, fun _ hnil =>
      ?_, hok.live, Nat.succ_pos _, le_rfl, hok.nsn_le.trans (Nat.le_succ _)⟩, rfl, fun _ => le_rfl⟩
    rw [show es = [] from hnil] at hes
    exact he.splitVector_ne_nil hes.nil_eq.symm
  · exact .inr (placed_page_of_ne hb)

omit hes

variable (hh : Halves kind (splitVector (index.page blkno).tuples oldoffnum itup) a c)

include hh

/-- What holds on the pages that a split writes. -/
theorem Edit.ok_half (followRight : Bool) (rightlink : Option ℕ) {nsn : ℕ} (hnsn : nsn ≤ index.lsn)
    {part : SplitedPageLayout κ} (hpart : part ∈ [a, c]) :
    (⟨part.list, (index.page blkno).isLeaf, false, followRight, rightlink, nsn, index.lsn + 1⟩ :
      GistPage κ).Ok kind (index.lsn + 1) :=
  ⟨fun it hit => he.good_splitVector h it (hh.mem hpart hit), hh.pages.fits part hpart, fun _ =>
    hh.ne_nil part hpart, rfl, Nat.succ_pos _, le_rfl, hnsn.trans (Nat.le_succ _)⟩

/-- A page with a downlink is split in two. -/
theorem Edit.splitPage_sound (hflag : (index.page blkno).followRight = false) {p : ℕ}
    {s : IndexTuple κ} (hs : s ∈ (index.pages.page p).downs) (hchild : s.child = blkno) :
    (splitPage index blkno [a, c] leftchild).index.Sound kind
        (Function.update level index.nblocks (level blkno))
        (LinkedPages.splitRank rank blkno index.nblocks) ∧
      index.pages.Adds (splitPage index blkno [a, c] leftchild).index.pages added ∧
      (splitPage index blkno [a, c] leftchild).index.Unfinished kind blkno index.nblocks
        (a.itup.pointTo blkno) (c.itup.pointTo index.nblocks) := by
  have hplaced := he.sound _ hh.perm
  have hsplit := pages_splitPage (a := a) (c := c) he.lt (he.beside h) hflag (a.list ++ c.list)
  have hpage := splitPage_page (a := a) (c := c) he.lt (he.beside h)
  have hself := pages_placed_self (he.beside h) (a.list ++ c.list)
  have hentries := List.Perm.of_eq (congrArg LinkedPage.entries hself)
  have hpending := (congrArg LinkedPage.pending hself).trans hflag
  have habove : s ∈ ((index.placed blkno (a.list ++ c.list) leftchild).pages.page p).downs := by
    rw [pages_page, placed_page_of_ne (hchild ▸ (h.pages.down_ne hs).symm)]
    rcases markLeftChild_cases leftchild (index.lsn + 1) index.page p with ⟨-, heq⟩ | ⟨-, heq⟩
    · rw [heq]
      exact hs
    · rw [heq]
      exact hs
  have hsound := hplaced.splitOff he.lt hentries habove hchild hpending
  rw [← hsplit] at hsound
  refine ⟨h.of_change hsound rfl (fun b => ?_) (by rw [hpage, if_neg he.lt.ne, if_pos rfl]) he.left,
    ?_, ?_⟩
  · rw [hpage]
    have hnsn := (h.ok blkno).nsn_le
    split_ifs with hnew hb
    · exact .inl ⟨he.ok_half h hh _ _ hnsn (by simp), rfl, fun hlt => absurd hlt (by omega)⟩
    · rw [hb]
      exact .inl ⟨he.ok_half h hh _ _ hnsn (by simp), rfl, fun _ => le_rfl⟩
    · exact .inr rfl
  · rw [hsplit]
    simpa using (he.adds _ hh.perm).trans (LinkedPages.adds_splitOff hplaced he.lt hentries)
  · have hleft := hpage blkno
    have hright := hpage index.nblocks
    rw [if_neg he.lt.ne, if_pos rfl] at hleft
    rw [if_pos rfl] at hright
    have ha : a ∈ [a, c] := by simp
    have hc : c ∈ [a, c] := by simp
    refine ⟨by rw [hleft], by rw [hleft], rfl, rfl, (hh.good a ha).pointTo _,
      (hh.good c hc).pointTo _, ?_, ?_, ?_⟩
    · rw [hleft]
      exact fun it => hh.le ha
    · rw [hright]
      exact fun it => hh.le hc
    · -- the downlink of the page covers both parts
      rintro b it hit rfl
      refine ⟨hh.le_of_forall ha fun it' hit' => ?_, hh.le_of_forall hc fun it' hit' => ?_⟩
      · exact hsound.le_above hit (by rwa [pages_page, hleft])
      · refine hsound.le_above_right (c := index.nblocks) hit ?_ ?_ ?_
        · rw [pages_page, hleft]
          rfl
        · rw [pages_page, hleft]
          rfl
        · rwa [pages_page, hright]

end Edit

/-- The root is split in two. -/
theorem Edit.splitRoot_sound (h : index.Sound kind level rank)
    (he : Edit kind index level rank 0 itup oldoffnum leftchild added)
    (hh : Halves kind (splitVector (index.page 0).tuples oldoffnum itup) a c)
    (hfits : gistfitpage (rootDownlinks index [a, c]) = true) :
    (∃ level' rank', (splitRoot index [a, c] leftchild).index.Sound kind level' rank' ∧
        level' 0 = level 0 + 1) ∧
      index.pages.Adds (splitRoot index [a, c] leftchild).index.pages added := by
  have ha : a ∈ [a, c] := by simp
  have hc : c ∈ [a, c] := by simp
  have hplaced := he.sound _ hh.perm
  have hpage := splitRoot_page (a := a) (c := c) (he.beside h)
  have hpos := he.lt
  have hself := pages_placed_self (he.beside h) (a.list ++ c.list)
  have hentries := List.Perm.of_eq (congrArg LinkedPage.entries hself)
  -- before the root is split, all of it would be below one downlink
  obtain ⟨attr, -, -, hunites⟩ := gistMakeUnionItVec_isLUB kind.lawful fun it hit =>
    kind.validKeys (he.good_splitVector h it hit).keys
  have hsplit := pages_splitRoot (a := a) (c := c) (he.beside h) hplaced
    ⟨attr, ⟨index.nblocks, 0⟩, 0⟩
  have hbelow : ∀ part ∈ [a, c], part.itup.keys ≤ attr := fun part hpart =>
    hh.le_of_forall hpart fun it hit => hunites.1 ⟨it, hh.mem hpart hit, rfl⟩
  obtain ⟨⟨level', rank', hsound, hlevel⟩, hgrow⟩ := hplaced.growRoot
    ⟨attr, ⟨index.nblocks, 0⟩, 0⟩ (a.itup.pointTo index.nblocks)
    (c.itup.pointTo (index.nblocks + 1)) hentries rfl rfl rfl
    (fun it hit => hunites.1 ⟨it, hh.perm.mem_iff.mp (hentries.mem_iff.mp hit), rfl⟩)
    (fun it => hh.le ha) (fun it => hh.le hc) (hbelow a ha) (hbelow c hc)
  rw [← hsplit] at hsound
  refine ⟨⟨level', rank', h.of_change hsound rfl (fun b => ?_) (by rw [hpage, if_pos rfl]) he.left,
    hlevel⟩, ?_⟩
  · rw [hpage]
    split_ifs with h0 hl hr
    · refine .inl ⟨⟨fun it hit => ?_, hfits, fun _ => by simp [rootDownlinks, List.range'], rfl,
        Nat.succ_pos _, le_rfl, Nat.zero_le _⟩, rfl, fun _ => Nat.zero_le _⟩
      have hit' : it = a.itup.pointTo index.nblocks ∨ it = c.itup.pointTo (index.nblocks + 1) := by
        simpa [rootDownlinks, List.range'] using hit
      rcases hit' with rfl | rfl
      · exact (hh.good a ha).pointTo _
      · exact (hh.good c hc).pointTo _
    · exact .inl ⟨he.ok_half h hh _ _ (Nat.zero_le _) ha, rfl, fun _ => Nat.zero_le _⟩
    · exact .inl ⟨he.ok_half h hh _ _ (Nat.zero_le _) hc, rfl, fun _ => Nat.zero_le _⟩
    · exact .inr rfl
  · rw [hsplit]
    simpa using (he.adds _ hh.perm).trans hgrow

/-! ### The result -/

/-- What `gistplacetopage` leaves. Nothing is lost, and pages other than the one and the left child
stay as they are. Either the tuples are on the page, or the root was split and has the downlinks, or
another page was split and the downlinks are left to be inserted. -/
structure Placed (kind : IndexKind giststate valid) (index : Index κ) (level rank : ℕ → ℕ)
    (blkno : ℕ) (itup : List (IndexTuple κ)) (oldoffnum leftchild : Option ℕ)
    (added : List (IndexTuple κ)) (res : PlaceResult κ) : Prop where
  adds : index.pages.Adds res.index.pages added
  lsn : res.index.lsn = index.lsn + 1
  other : ∀ b < index.nblocks, b ≠ blkno → leftchild ≠ some b → res.index.page b = index.page b
  nsn : blkno ≠ 0 → (res.index.page blkno).nsn = (index.page blkno).nsn
  flags : ∀ b, (res.index.page b).followRight = true →
    (index.page b).followRight = true ∧ leftchild ≠ some b ∨ b = blkno ∧ res.splitinfo ≠ []
  full : res.isSplit = true → gistnospace (index.page blkno) itup oldoffnum 0 = true
  cases : (res.isSplit = false ∧ res.splitinfo = [] ∧ res.index =
        index.placed blkno (updatedTuples (index.page blkno).tuples oldoffnum itup) leftchild ∧
        res.index.Sound kind level rank) ∨
      (res.isSplit = true ∧ res.splitinfo = [] ∧ blkno = 0 ∧
        ∃ level' rank', res.index.Sound kind level' rank' ∧ level' 0 = level 0 + 1) ∨
      (res.isSplit = true ∧ blkno ≠ 0 ∧
        (∃ level' rank', res.index.Sound kind level' rank' ∧ level' 0 = level 0) ∧
        ∃ r d d', res.splitinfo = [(blkno, d), (r, d')] ∧
          res.index.Unfinished kind blkno r d d')

section Placed

variable (h : index.Sound kind level rank)
  (he : Edit kind index level rank blkno itup oldoffnum leftchild added)

include h he

/-- If there is space for two tuples, then one alone is not split. -/
theorem Edit.two_le (hspace : gistnospace (index.page blkno) itup oldoffnum 0 = true) :
    2 ≤ (splitVector (index.page blkno).tuples oldoffnum itup).length := by
  have hsum := space_splitVector (index.page blkno).tuples itup oldoffnum
  rw [space_of_good (he.good_splitVector h)] at hsum
  unfold gistnospace GistPage.freeSpace at hspace
  rw [decide_eq_true_iff] at hspace
  have hroom := kind.room
  by_contra hfew
  have hle := Nat.mul_le_mul_right (kind.size + 4) (Nat.le_of_lt_succ (not_le.mp hfew))
  omega

variable (hflag : (index.page blkno).followRight = false)

include hflag

/-- The tuples fit on the page. -/
theorem Edit.placed (hspace : gistnospace (index.page blkno) itup oldoffnum 0 = false) :
    Placed kind index level rank blkno itup oldoffnum leftchild added ⟨index.placed blkno
      (updatedTuples (index.page blkno).tuples oldoffnum itup) leftchild, false, []⟩ := by
  have hperm := updatedTuples_perm itup he.old
  have hfits : gistfitpage (updatedTuples (index.page blkno).tuples oldoffnum itup) = true := by
    rw [gistfitpage_perm hperm]
    exact fits_of_space (h.ok blkno).fits hspace
  have hself : (index.placed blkno (updatedTuples (index.page blkno).tuples oldoffnum itup)
    leftchild).page blkno = _ := placed_page_self (he.beside h)
  refine ⟨he.adds _ hperm, rfl, fun b _ hb hl => ?_, fun _ => ?_, fun b hb => ?_, fun hsplit => ?_,
    .inl ⟨rfl, rfl, rfl, he.placed_sound h hperm hfits⟩⟩
  · rw [placed_page_of_ne hb, markLeftChild_other hl]
  · rw [hself]
  · by_cases hne : b = blkno
    · rw [hne, hself] at hb
      rw [show (index.page blkno).followRight = true from hb] at hflag
      cases hflag
    · rw [placed_page_of_ne hne] at hb
      exact .inl (markLeftChild_flag hb)
  · cases hsplit

variable {keys : KeyVector κ} (habove : blkno ≠ 0 → index.Above keys blkno)

include habove

/-- The pages of a split are written. -/
theorem Edit.exists_placeSplit
    (hh : Halves kind (splitVector (index.page blkno).tuples oldoffnum itup) a c)
    (hspace : gistnospace (index.page blkno) itup oldoffnum 0 = true) :
    ∃ res, placeSplit index blkno [a, c] leftchild = .ok res ∧
      Placed kind index level rank blkno itup oldoffnum leftchild added res := by
  by_cases hzero : blkno = 0
  · subst hzero
    have hroot : gistfitpage (rootDownlinks index [a, c]) = true := by
      have hspace : (rootDownlinks index [a, c]).map IndexTuple.space =
          [a.itup.size + 4, c.itup.size + 4] := rfl
      rw [gistfitpage, decide_eq_true_iff, hspace, (hh.good a (by simp)).size_eq,
        (hh.good c (by simp)).size_eq]
      simp only [List.sum_cons, List.sum_nil]
      have hroom := kind.room
      omega
    obtain ⟨hsound, hadds⟩ := he.splitRoot_sound h hh hroot
    refine ⟨splitRoot index [a, c] leftchild, ?_, hadds, rfl, fun b hlt hb hl => ?_,
      fun hne => absurd rfl hne, fun b hb => ?_, fun _ => hspace,
      .inr (.inl ⟨rfl, rfl, rfl, hsound⟩)⟩
    · rw [placeSplit, if_pos rfl, if_pos rfl, if_pos hroot, if_neg (by simp [gistMaxSplitPages])]
    · rw [splitRoot_page (he.beside h), if_neg hb, if_neg hlt.ne, if_neg (by omega),
        markLeftChild_other hl]
    · rw [splitRoot_page (he.beside h)] at hb
      split_ifs at hb
      exact .inl (markLeftChild_flag hb)
  · obtain ⟨p, s, hs, hchild, -⟩ := habove hzero
    obtain ⟨hsound, hadds, hunfinished⟩ := he.splitPage_sound h hh hflag hs hchild
    have hpage := splitPage_page (a := a) (c := c) he.lt (he.beside h)
    refine ⟨splitPage index blkno [a, c] leftchild, ?_, hadds, rfl, fun b hlt hb hl => ?_,
      fun _ => ?_, fun b hb => ?_, fun _ => hspace,
      .inr (.inr ⟨rfl, hzero, ⟨_, _, hsound, Function.update_of_ne h.pages.size_pos.ne ..⟩,
        _, _, _, rfl, hunfinished⟩)⟩
    · rw [placeSplit, if_neg hzero, if_neg hzero, if_neg (by simp [gistMaxSplitPages])]
    · rw [hpage, if_neg hlt.ne, if_neg hb, markLeftChild_other hl]
    · rw [hpage, if_neg he.lt.ne, if_pos rfl]
    · rw [hpage] at hb
      split_ifs at hb with hnew hself
      · exact .inr ⟨hself, by simp [splitPage, splitBlocks]⟩
      · exact .inl (markLeftChild_flag hb)

/-- If there is space on the stack, then `gistplacetopage` returns. -/
theorem gistplacetopage_returns :
    Returns (gistplacetopage giststate depth 0 index blkno itup oldoffnum leftchild)
      (Placed kind index level rank blkno itup oldoffnum leftchild added) (depth = 0) := by
  rw [gistplacetopage, if_neg (by simp [hflag])]
  cases hspace : gistnospace (index.page blkno) itup oldoffnum 0 with
  | false => exact he.placed h hflag hspace
  | true =>
    rw [if_pos rfl]
    cases depth with
    | zero => exact (rfl : 0 = 0)
    | succ depth =>
      have hfits := (h.ok blkno).fits
      rw [gistfitpage, decide_eq_true_iff, space_of_good (h.ok blkno).good] at hfits
      obtain ⟨a, c, hrun, hh⟩ := gistSplit_two (he.good_splitVector h)
        (he.two_le h hspace) he.count hfits
      obtain ⟨res, hres, hplaced⟩ := he.exists_placeSplit h hflag habove hh hspace
      rw [hrun]
      refine returns_bind.mpr ?_
      show Returns (placeSplit index blkno [a, c] leftchild) _ _
      rwa [hres]

end Placed

end Placing

end PgRange.Gist
