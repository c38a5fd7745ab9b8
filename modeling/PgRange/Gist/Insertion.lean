import PgRange.Gist.Choose
import PgRange.Gist.PlaceToPage
import PgRange.Math.Exec

/-!
# Insertions into the index

`gistdoinsert` walks down from the root along the tuples with the least penalty, and adjusts each of
them to cover the new tuple before it goes on. When it places a tuple on a page without enough
space, the page is split, and `gistfinishsplit` inserts the downlinks of the parts into the parent,
which may have to be split in turn. It finds the parent by the stack of pages that the insertion has
come through, and `gistFindCorrectParent` corrects the stack if the parent has changed. An insertion
that fails between a split and the insertion of the downlinks leaves a page with the follow-right
flag, and the next insertion that comes to this page finishes the split.

The functions are modelled for one backend at a time, with the errors that can occur in the middle:
what was written before stays. If all tuples have the same size, then the index remains sound, no
row is lost, and a row whose insertion has returned is found.

## Main definitions

* `StackEntry`, `InsertState` — the stack of an insertion, and what does not change
* `gistFindPath`, `gistFindCorrectParent`, `gistformdownlink`, `gistfixsplit`
* `gistfinishsplit`, `gistinserttuples`, `gistdoinsert`
* `OnPath` — the pages of the stack are below each other, and cover the new tuple

## Main results

* `gistFindCorrectParent_returns` — the parent is where it was
* `gistinserttuples_ensures` — tuples are placed, and splits are finished
* `gistdoinsert_ensures` — an insertion, whether it returns or fails
* `runCalls_kept` — insertions one after the other
-/

set_option autoImplicit false

namespace PgRange.Gist

open Math

variable {n : ℕ} {κ : Fin n → Type}

/-! ### The stack -/

/-- `GISTInsertStack`. The entries of the parents follow in the list. -/
structure StackEntry where
  blkno : ℕ
  lsn : ℕ
  retryFromParent : Bool
  downlinkoffnum : Option ℕ

/-- The entry of the root. -/
def StackEntry.root : StackEntry := ⟨0, 0, false, none⟩

/-- The offset of the first tuple that points to a block. -/
def findDownlink (tuples : List (IndexTuple κ)) (child : ℕ) : Option ℕ :=
  (tuples.findIdx? fun it => it.child = child).map (· + 1)

/-- The loop of `gistFindPath`. The stacks in the queue end with the page to visit. -/
def gistFindPath (index : Index κ) (child : ℕ) :
    ℕ → List (StackEntry × List StackEntry) → Except GistError (List StackEntry × ℕ)
  | 0, _ => .error (.fault .outOfFuel)
  | _ + 1, [] => .error (.failedToRefindParent child)
  | fuel + 1, (top, parents) :: fifo =>
    let page := index.page top.blkno
    -- all pages that are left must be leaves as well
    if page.isLeaf then .error (.failedToRefindParent child)
    else if page.followRight then .error .incompleteSplit
    else
      let top := { top with lsn := page.lsn }
      -- a page that was split since its downlink was read
      let right :=
        match parents, page.rightlink with
        | parent :: _, some right =>
          if parent.lsn < page.nsn then [(⟨right, 0, false, none⟩, parents)] else []
        | _, _ => []
      match findDownlink page.tuples child with
      | some i => .ok (top :: parents, i)
      | none => gistFindPath index child fuel (right ++ fifo ++
          page.tuples.mapIdx fun i it => (⟨it.child, 0, false, some (i + 1)⟩, top :: parents))

/-- Look for the downlink of a page in the right links, until the end of the chain. -/
def searchRight (index : Index κ) (child : ℕ) : ℕ → ℕ → Except GistError (Option (ℕ × ℕ))
  | 0, _ => .error (.fault .outOfFuel)
  | fuel + 1, blkno =>
    match findDownlink (index.page blkno).tuples child with
    | some i => .ok (some (blkno, i))
    | none =>
      match (index.page blkno).rightlink with
      | none => .ok none
      | some right => searchRight index child fuel right

/-- `gistFindCorrectParent`, for the page at the top of the stack. -/
def gistFindCorrectParent (index : Index κ) :
    ℕ → List StackEntry → Except GistError (List StackEntry)
  | fuel + 1, child :: parent :: rest =>
    if child.downlinkoffnum.isNone || parent.lsn != (index.page parent.blkno).lsn then
      searchRight index child.blkno fuel parent.blkno >>= fun found =>
        match found with
        | some (blkno, i) =>
          .ok ({ child with downlinkoffnum := some i } :: { parent with blkno := blkno } :: rest)
        | none =>
          gistFindPath index child.blkno fuel [(.root, [])] >>= fun (path, i) =>
            gistFindCorrectParent index fuel ({ child with downlinkoffnum := some i } :: path)
    else .ok (child :: parent :: rest)
  | 0, _ => .error (.fault .outOfFuel)
  -- the root is not split this way
  | _ + 1, _ => .error .invalidOffset

/-! ### Downlinks -/

/-- The loop of `gistformdownlink`. -/
def adjustAll (giststate : GistState κ) :
    IndexTuple κ → List (IndexTuple κ) → Except GistError (IndexTuple κ)
  | downlink, [] => .ok downlink
  | downlink, ituple :: rest =>
    gistgetadjusted giststate downlink ituple >>= fun newdownlink =>
      adjustAll giststate (newdownlink.getD downlink) rest

/-- `gistformdownlink`. A page without tuples gets the downlink of the page that was split. -/
def gistformdownlink (giststate : GistState κ) (index : Index κ) (fuel blkno : ℕ)
    (stack : List StackEntry) : Except GistError (IndexTuple κ × List StackEntry) :=
  match (index.page blkno).tuples with
  | ituple :: rest =>
    (adjustAll giststate ituple rest).map fun downlink => (downlink.pointTo blkno, stack)
  | [] =>
    gistFindCorrectParent index fuel stack >>= fun stack =>
      match stack with
      | ⟨_, _, _, some off⟩ :: parent :: _ =>
        match (index.page parent.blkno).tuples[off - 1]? with
        | some downlink => .ok (downlink.pointTo blkno, stack)
        | none => .error .invalidOffset
      | _ => .error .invalidOffset

/-- The loop of `gistfixsplit`: the pages of the split, with their downlinks. -/
def fixSplitinfo (giststate : GistState κ) (index : Index κ) :
    ℕ → ℕ → List StackEntry → Except GistError (List (ℕ × IndexTuple κ) × List StackEntry)
  | 0, _, _ => .error (.fault .outOfFuel)
  | fuel + 1, blkno, stack =>
    gistformdownlink giststate index fuel blkno stack >>= fun (downlink, stack) =>
      if (index.page blkno).followRight then
        match (index.page blkno).rightlink with
        | none => .error .invalidOffset
        | some right =>
          (fixSplitinfo giststate index fuel right stack).map fun (splitinfo, stack) =>
            ((blkno, downlink) :: splitinfo, stack)
      else .ok ([(blkno, downlink)], stack)

/-! ### Insertions -/

/-- What an insertion does not change: `GISTSTATE`, the depth of the stack, the space to leave free,
the random numbers and uninitialized variables of `gistchoose`, and whether
`CheckForSerializableConflictIn` finds a conflict right after the change with an LSN. -/
structure InsertState {n : ℕ} (κ : Fin n → Type) where
  giststate : GistState κ
  depth : ℕ
  freespace : ℕ
  random : ℕ → ℕ → Bool
  uninitialized : ℕ → ℕ → FloatQ
  conflictIn : ℕ → Bool

/-- A function that places tuples on the page at the top of a stack, like `gistinserttuples`. -/
abbrev Insert {n : ℕ} (κ : Fin n → Type) : Type :=
  List StackEntry → List (IndexTuple κ) → Option ℕ → Option ℕ →
    Exec GistError (Index κ) (Bool × List StackEntry)

/-- Insert downlinks into the parent of the page at the top. The last ones take the place of the
downlink that is there. -/
def insertDownlinks (insert : Insert κ) (fuel : ℕ) (tuples : List (IndexTuple κ)) (last : Bool)
    (left : ℕ) (stack : List StackEntry) : Exec GistError (Index κ) (List StackEntry) := do
  let index ← Exec.get
  let stack ← Exec.lift (gistFindCorrectParent index fuel stack)
  match stack with
  | [] => Exec.lift (.error .invalidOffset)
  | child :: parents =>
    let (isSplit, parents) ←
      insert parents tuples (if last then child.downlinkoffnum else none) (some left)
    -- if the parent was split, the downlink may have moved
    return { child with
      downlinkoffnum := if isSplit then none else child.downlinkoffnum } :: parents

/-- The loop of `gistfinishsplit`, from the rightmost page on. -/
def insertFromRight (insert : Insert κ) (fuel : ℕ) :
    List (ℕ × IndexTuple κ) → List StackEntry → Exec GistError (Index κ) (List StackEntry)
  | left :: right :: rest, stack => do
    let stack ← insertFromRight insert fuel (right :: rest) stack
    insertDownlinks insert fuel [right.2] false left.1 stack
  | _, stack => return stack

/-- `gistfinishsplit`, with a function that places tuples on the parent. -/
def gistfinishsplit (insert : Insert κ) (fuel : ℕ) (splitinfo : List (ℕ × IndexTuple κ))
    (stack : List StackEntry) : Exec GistError (Index κ) (List StackEntry) := do
  let stack ← insertFromRight insert fuel splitinfo.tail stack
  match splitinfo with
  | left :: right :: _ =>
    let stack ← insertDownlinks insert fuel [left.2, right.2] true left.1 stack
    return stack.modifyHead fun entry => { entry with retryFromParent := true }
  -- a split has at least two parts
  | _ => Exec.lift (.error .invalidOffset)

/-- `gistinserttuples`. -/
def gistinserttuples (state : InsertState κ) : ℕ → Insert κ
  | fuel + 1, top :: parents, tuples, oldoffnum, leftchild => do
    let index ← Exec.get
    if state.conflictIn index.lsn then Exec.lift (.error .serializationFailure)
    else
      let res ← Exec.lift (gistplacetopage state.giststate state.depth state.freespace index
        top.blkno tuples oldoffnum leftchild)
      Exec.set res.index
      if res.splitinfo.isEmpty then return (res.isSplit, top :: parents)
      else
        let stack ←
          gistfinishsplit (gistinserttuples state fuel) fuel res.splitinfo (top :: parents)
        return (res.isSplit, stack)
  | 0, _, _, _, _ => Exec.lift (.error (.fault .outOfFuel))
  | _ + 1, [], _, _, _ => Exec.lift (.error .invalidOffset)

/-- `gistfixsplit`, for the page at the top of the stack. -/
def gistfixsplit (state : InsertState κ) (fuel : ℕ) (stack : List StackEntry) :
    Exec GistError (Index κ) (List StackEntry) := do
  let index ← Exec.get
  match stack with
  | [] => Exec.lift (.error .invalidOffset)
  | top :: _ =>
    let (splitinfo, stack) ← Exec.lift (fixSplitinfo state.giststate index fuel top.blkno stack)
    gistfinishsplit (gistinserttuples state fuel) fuel splitinfo stack

/-- The page was split since its downlink was read. Only the root has no parent. -/
def splitDetected (page : GistPage κ) : List StackEntry → Bool
  | [] => false
  | parent :: _ => parent.lsn < page.nsn

/-- The part of `gistdoinsert` for an inner page: adjust the downlink with the least penalty, and go
on with the page below. -/
def insertBelow (state : InsertState κ) (itup : IndexTuple κ) (fuel : ℕ)
    (next : List StackEntry → Exec GistError (Index κ) Unit) (page : GistPage κ) (top : StackEntry)
    (parents : List StackEntry) : Exec GistError (Index κ) Unit :=
  let off := gistchoose state.giststate (state.random fuel) (state.uninitialized fuel)
    page.tuples itup
  match page.tuples[off - 1]? with
  | none => Exec.lift (.error .invalidOffset)
  | some idxtuple =>
    if idxtuple.tid.offset = 0xfffe then Exec.lift (.error .invalidInnerTuple)
    else do
      let newtup ← Exec.lift (gistgetadjusted state.giststate idxtuple itup)
      match newtup with
      | none => next (⟨idxtuple.child, 0, false, some off⟩ :: top :: parents)
      | some newtup =>
        let (isSplit, stack) ←
          gistinserttuples state fuel (top :: parents) [newtup] (some off) none
        -- after a split of the root, the downlinks are on it
        if isSplit then next (if top.blkno ≠ 0 then stack.tail else stack)
        else next (⟨idxtuple.child, 0, false, some off⟩ :: stack)

/-- The loop of `gistdoinsert`. -/
def gistdoinsert (state : InsertState κ) (itup : IndexTuple κ) :
    ℕ → List StackEntry → Exec GistError (Index κ) Unit
  | 0, _ => Exec.lift (.error (.fault .outOfFuel))
  | fuel + 1, stack => do
    let index ← Exec.get
    match stack.dropWhile StackEntry.retryFromParent with
    | [] => Exec.lift (.error .invalidOffset)
    | top :: parents =>
      let page := index.page top.blkno
      let top := { top with lsn := page.lsn }
      if page.followRight then
        -- an insertion failed before the downlink was inserted
        let stack ← gistfixsplit state fuel (top :: parents)
        gistdoinsert state itup fuel stack.tail
      else if splitDetected page parents || page.isDeleted then gistdoinsert state itup fuel parents
      else if page.isLeaf then
        let _ ← gistinserttuples state fuel (top :: parents) [itup] none none
        return ()
      else insertBelow state itup fuel (gistdoinsert state itup fuel) page top parents

/-- `gistinsert`. The support functions of the columns do not compress keys, so a tuple on a leaf is
formed like one on an inner page. -/
def gistinsert (state : InsertState κ) (fuel : ℕ) (values : KeyVector κ) (htCtid : ItemPointer) :
    Exec GistError (Index κ) Unit := do
  let itup ← Exec.lift (gistFormTuple state.giststate values)
  gistdoinsert { state with freespace := 0 } { itup with tid := htCtid } fuel [.root]

/-! ### Calls of `gistinsert` -/

/-- The index that `gistbuildempty` makes. -/
def Index.empty : Index κ := ⟨fun _ => ⟨[], true, false, false, none, 0, 1⟩, 1, 1⟩

/-- A call of `gistinsert`. -/
structure Call {n : ℕ} (κ : Fin n → Type) where
  state : InsertState κ
  fuel : ℕ
  values : KeyVector κ
  htCtid : ItemPointer

def Call.run (call : Call κ) : Exec GistError (Index κ) Unit :=
  gistinsert call.state call.fuel call.values call.htCtid

/-- The row that a call is to insert. -/
def Call.row (call : Call κ) : IndexTuple κ :=
  ⟨call.values, call.htCtid, call.state.giststate.formSize call.values⟩

/-- Calls one after the other: those that return, and the index. -/
def runCalls : List (Call κ) → Index κ → List (Call κ) × Index κ
  | [], index => ([], index)
  | call :: calls, index =>
    match call.run index with
    | (.ok _, index') => ((runCalls calls index').1.cons call, (runCalls calls index').2)
    | (.error _, index') => runCalls calls index'

/-- A call for this index, with keys of the kind and a pointer to a row. -/
structure Call.Proper (giststate : GistState κ) (Keys : KeyVector κ → Prop) (call : Call κ) :
    Prop where
  giststate_eq : call.state.giststate = giststate
  values : Keys call.values
  htCtid : call.htCtid.offset ≠ 0xfffe

/-- The space that `gistinsert` leaves free is none. -/
structure InsertState.For (giststate : GistState κ) (state : InsertState κ) : Prop where
  giststate_eq : state.giststate = giststate
  freespace : state.freespace = 0

/-! ### Downlinks of tuples of the same size -/

variable [∀ j, Preorder (κ j)] {giststate : GistState κ} {valid : (j : Fin n) → κ j → Prop}
  {kind : IndexKind giststate valid} {index index' : Index κ} {level rank : ℕ → ℕ}

section Downlinks

/-- A downlink that covers the new tuple is left as it is, another one grows as far as it must. -/
theorem exists_gistgetadjusted {oldtup addtup : IndexTuple κ} (hold : Good kind oldtup)
    (hadd : kind.Keys addtup.keys) :
    ∃ newtup, gistgetadjusted giststate oldtup addtup = .ok newtup ∧
      Good kind (newtup.getD oldtup) ∧ (newtup.getD oldtup).tid = oldtup.tid ∧
      ∀ k, (newtup.getD oldtup).keys ≤ k ↔ oldtup.keys ≤ k ∧ addtup.keys ≤ k := by
  obtain ⟨attr, hattr, hlub, hnone, hsome⟩ := gistgetadjusted_spec kind.lawful
    (kind.validKeys hold.keys) (kind.validKeys hadd)
  by_cases hle : addtup.keys ≤ oldtup.keys
  · exact ⟨none, hnone hle, hold, rfl, fun k => ⟨fun h => ⟨h, hle.trans h⟩, And.left⟩⟩
  · have hunites : Unites [oldtup, addtup] attr := by
      have hset : {k | ∃ it ∈ [oldtup, addtup], it.keys = k} = {oldtup.keys, addtup.keys} := by
        ext k
        simp [eq_comm]
      rwa [Unites, hset]
    obtain ⟨it, hit, rfl, hgood⟩ := kind.form (kind.unites (by simp)
      (by simp [hold.keys, hadd]) hattr hunites)
    refine ⟨some { it with tid := oldtup.tid }, ?_, ⟨hgood.keys, hgood.size_eq, hold.not_invalid⟩,
      rfl, fun k => by simpa using isLUB_le_iff hlub⟩
    rw [hsome hle, hit]
    rfl

/-- The downlink covers what is on the page, and no more than it must. -/
theorem exists_adjustAll {downlink : IndexTuple κ} {tuples : List (IndexTuple κ)}
    (hgood : Good kind downlink) (htuples : ∀ it ∈ tuples, kind.Keys it.keys) :
    ∃ d, adjustAll giststate downlink tuples = .ok d ∧ Good kind d ∧
      ∀ k, d.keys ≤ k ↔ ∀ it ∈ downlink :: tuples, it.keys ≤ k := by
  induction tuples generalizing downlink with
  | nil => exact ⟨downlink, rfl, hgood, by simp⟩
  | cons it tuples ih =>
    obtain ⟨next, hrun, hnext, -, hle⟩ := exists_gistgetadjusted hgood
      (htuples it List.mem_cons_self)
    obtain ⟨d, hd, hdgood, hdle⟩ := ih hnext fun it hit => htuples it (List.mem_cons_of_mem _ hit)
    refine ⟨d, by rw [adjustAll, hrun]; exact hd, hdgood, fun k => ?_⟩
    simpa [hle, and_assoc] using hdle k

end Downlinks

/-! ### The stack -/

omit [∀ j, Preorder (κ j)] in
/-- The page of `e` is below the one of `f`, which was not split since it was read, and covered. -/
structure Under [∀ j, Preorder (κ j)] (index : Index κ) (keys : KeyVector κ) (e f : StackEntry) :
    Prop where
  down : ∃ it ∈ (index.pages.page f.blkno).downs, it.child = e.blkno ∧ keys ≤ it.keys
  offset : f.lsn = (index.page f.blkno).lsn → ∃ off it, e.downlinkoffnum = some off ∧
    (index.page f.blkno).tuples[off - 1]? = some it ∧ it.child = e.blkno
  lsn_le : f.lsn ≤ index.lsn
  nsn_le : (index.page e.blkno).nsn ≤ f.lsn
  settled : (index.page f.blkno).followRight = false

omit [∀ j, Preorder (κ j)] in
theorem mem_downs_of_getElem? {b off : ℕ} {it : IndexTuple κ}
    (hinner : (index.page b).isLeaf = false) (hit : (index.page b).tuples[off - 1]? = some it) :
    it ∈ (index.pages.page b).downs :=
  LinkedPage.mem_downs.mpr ⟨hinner, List.mem_of_getElem? hit⟩

/-- The pages of the stack are a path up to the root, and their downlinks cover the keys. -/
def OnPath (index : Index κ) (keys : KeyVector κ) : List StackEntry → Prop
  | [] => False
  | [e] => e.blkno = 0 ∧ e.retryFromParent = false
  | e :: f :: rest =>
    (Under index keys e f ∧ e.retryFromParent = false) ∧ OnPath index keys (f :: rest)

/-- The insertion goes on from a path. -/
def Resumes (index : Index κ) (keys : KeyVector κ) (stack : List StackEntry) : Prop :=
  OnPath index keys (stack.dropWhile StackEntry.retryFromParent)

section Path

variable {keys : KeyVector κ} {e f : StackEntry} {rest : List StackEntry}

theorem OnPath.retry (h : OnPath index keys (e :: rest)) : e.retryFromParent = false := by
  cases rest with
  | nil => exact h.2
  | cons f rest => exact h.1.2

theorem OnPath.resumes (h : OnPath index keys (e :: rest)) : Resumes index keys (e :: rest) := by
  rwa [Resumes, List.dropWhile_cons_of_neg (by simp [h.retry])]

theorem resumes_cons_of_retry (he : e.retryFromParent = true) :
    Resumes index keys (e :: rest) ↔ Resumes index keys rest := by
  rw [Resumes, List.dropWhile_cons_of_pos (by simp [he]), Resumes]

/-- A page that is not the root has a downlink. -/
theorem OnPath.above (h : OnPath index keys (e :: rest)) (he : e.blkno ≠ 0) :
    index.Above keys e.blkno := by
  cases rest with
  | nil => exact absurd h.1 he
  | cons f rest => exact ⟨f.blkno, h.1.1.down⟩

theorem OnPath.exists_parent (h : OnPath index keys (e :: rest)) (he : e.blkno ≠ 0) :
    ∃ f rest', rest = f :: rest' := by
  refine List.exists_cons_of_ne_nil ?_
  rintro rfl
  exact he h.1

section Sound

variable (hs : index.Sound kind level rank)

include hs

theorem OnPath.lt (h : OnPath index keys (e :: rest)) : e.blkno < index.nblocks := by
  by_cases he : e.blkno = 0
  · rw [he]
    exact hs.pages.size_pos
  · obtain ⟨p, s, hmem, hchild, -⟩ := h.above he
    exact hchild ▸ (hs.pages.down hmem).2.1

/-- The root is only at the end of the stack. -/
theorem OnPath.ne_root (h : OnPath index keys (e :: f :: rest)) : e.blkno ≠ 0 := by
  obtain ⟨it, hit, hchild, -⟩ := h.1.1.down
  exact hchild ▸ (hs.pages.down hit).1.ne'

theorem OnPath.level_eq (h : OnPath index keys (e :: rest)) :
    level e.blkno + rest.length = level 0 := by
  induction rest generalizing e with
  | nil => rw [h.1]; rfl
  | cons f rest ih =>
    obtain ⟨it, hit, hchild, -⟩ := h.1.1.down
    have hlevel := (hs.pages.down hit).2.2
    have := ih h.2
    rw [hchild] at hlevel
    rw [List.length_cons]
    omega

/-- The pages above are on higher levels. -/
theorem OnPath.level_lt (h : OnPath index keys (e :: rest)) :
    ∀ f ∈ rest, level e.blkno < level f.blkno ∧ f.blkno < index.nblocks := by
  induction rest generalizing e with
  | nil => simp
  | cons g rest ih =>
    obtain ⟨it, hit, hchild, -⟩ := h.1.1.down
    have hlevel := (hs.pages.down hit).2.2
    rw [hchild] at hlevel
    intro f hf
    rcases List.mem_cons.mp hf with rfl | hf
    · exact ⟨by omega, h.2.lt hs⟩
    · have := ih h.2 f hf
      exact ⟨by omega, this.2⟩

end Sound

/-- The pages above stay as they are, and the NSN at the top. -/
theorem OnPath.frame (h : OnPath index keys (e :: rest)) (hlsn : index.lsn ≤ index'.lsn)
    (hnsn : rest ≠ [] → (index'.page e.blkno).nsn = (index.page e.blkno).nsn)
    (hsame : ∀ f ∈ rest, index'.page f.blkno = index.page f.blkno) :
    OnPath index' keys (e :: rest) := by
  induction rest generalizing e with
  | nil => exact h
  | cons f rest ih =>
    obtain ⟨⟨hunder, hretry⟩, hrest⟩ := h
    have hf := hsame f List.mem_cons_self
    refine ⟨⟨⟨?_, ?_, hunder.lsn_le.trans hlsn, ?_, ?_⟩, hretry⟩, ih hrest (fun _ => by rw [hf])
      fun g hg => hsame g (List.mem_cons_of_mem _ hg)⟩
    · rw [pages_page, hf]
      exact hunder.down
    · rw [hf]
      exact hunder.offset
    · rw [hnsn (by simp)]
      exact hunder.nsn_le
    · rw [hf]
      exact hunder.settled

theorem OnPath.inner (h : OnPath index keys (e :: f :: rest)) :
    (index.page f.blkno).isLeaf = false := by
  obtain ⟨it, hit, -⟩ := h.1.1.down
  exact (LinkedPage.mem_downs.mp hit).1

/-- The parent is where it was, but the offset of the downlink may be another one. -/
theorem gistFindCorrectParent_returns (h : OnPath index keys (e :: f :: rest)) (fuel : ℕ) :
    Returns (gistFindCorrectParent index fuel (e :: f :: rest))
      (fun stack => ∃ off it, stack = { e with downlinkoffnum := some off } :: f :: rest ∧
        (index.page f.blkno).tuples[off - 1]? = some it ∧ it.child = e.blkno) (fuel < 2) := by
  cases fuel with
  | zero => exact Nat.zero_lt_two
  | succ fuel =>
    rw [gistFindCorrectParent]
    by_cases hlsn : f.lsn = (index.page f.blkno).lsn
    · obtain ⟨off, it, hoff, hit, hchild⟩ := h.1.1.offset hlsn
      rw [if_neg (by simp [hoff, hlsn])]
      exact ⟨off, it, by rw [← hoff], hit, hchild⟩
    · -- the parent has changed, but it still has the downlink
      rw [if_pos (by simp [hlsn])]
      cases fuel with
      | zero => exact Nat.one_lt_two
      | succ fuel =>
        obtain ⟨it, hit, hchild, -⟩ := h.1.1.down
        have hmem := (LinkedPage.mem_downs.mp hit).2
        obtain ⟨i, hi⟩ : ∃ i, (index.page f.blkno).tuples.findIdx?
            (fun it => it.child = e.blkno) = some i := by
          rw [← Option.isSome_iff_exists, List.findIdx?_isSome, List.any_eq_true]
          exact ⟨it, hmem, by simpa using hchild⟩
        obtain ⟨hlt, hfound, -⟩ := List.findIdx?_eq_some_iff_getElem.mp hi
        have hsearch : searchRight index e.blkno (fuel + 1) f.blkno =
            .ok (some (f.blkno, i + 1)) := by
          simp [searchRight, findDownlink, hi]
        rw [hsearch]
        exact ⟨i + 1, _, rfl, List.getElem?_eq_getElem hlt, by simpa using hfound⟩

/-- The path is the same with the offset of the downlink. -/
theorem OnPath.refind (h : OnPath index keys (e :: f :: rest)) {off : ℕ} {it : IndexTuple κ}
    (hit : (index.page f.blkno).tuples[off - 1]? = some it) (hchild : it.child = e.blkno) :
    OnPath index keys ({ e with downlinkoffnum := some off } :: f :: rest) :=
  ⟨⟨{ h.1.1 with offset := fun _ => ⟨off, it, rfl, hit, hchild⟩ }, h.1.2⟩, h.2⟩

section Fix

variable (hs : index.Sound kind level rank) (h : OnPath index keys (e :: f :: rest))

include hs h

/-- The downlink covers what is on the page. It covers no more than the downlink of the page that
was split, if this one covers the page too. -/
theorem gistformdownlink_returns (fuel blkno : ℕ) :
    Returns (gistformdownlink giststate index fuel blkno (e :: f :: rest))
      (fun res => (Good kind res.1 ∧ res.1.child = blkno ∧
          (∀ it ∈ (index.page blkno).tuples, it.keys ≤ res.1.keys) ∧
          ∀ {b t}, t ∈ (index.pages.page b).downs → t.child = e.blkno →
            (∀ it ∈ (index.page blkno).tuples, it.keys ≤ t.keys) → res.1.keys ≤ t.keys) ∧
        ∃ o, res.2 = { e with downlinkoffnum := o } :: f :: rest ∧ OnPath index keys res.2)
      (fuel < 2) := by
  unfold gistformdownlink
  have hgood := (hs.ok blkno).good
  cases htuples : (index.page blkno).tuples with
  | nil =>
    refine returns_bind.mpr ((gistFindCorrectParent_returns h fuel).mono ?_ id)
    rintro stack ⟨off, it, rfl, hit, hchild⟩
    simp only [hit]
    have hgood := (hs.ok f.blkno).good it (List.mem_of_getElem? hit)
    refine ⟨⟨hgood.pointTo _, rfl, by simp, fun ht hte _ => ?_⟩, some off, rfl,
      h.refind hit hchild⟩
    have hdown := mem_downs_of_getElem? h.inner hit
    obtain ⟨-, rfl⟩ := hs.pages.down_inj hdown ht (hchild.trans hte.symm)
    exact le_rfl
  | cons ituple tuples =>
    rw [htuples] at hgood
    obtain ⟨d, hd, hdgood, hdle⟩ := exists_adjustAll (hgood ituple List.mem_cons_self)
      fun it hit => (hgood it (List.mem_cons_of_mem _ hit)).keys
    simp only [hd]
    exact ⟨⟨hdgood.pointTo _, rfl, (hdle _).mp le_rfl, fun _ _ => (hdle _).mpr⟩,
      e.downlinkoffnum, rfl, h⟩

/-- Only the page itself and the one to its right are without proper downlinks. -/
theorem fixSplitinfo_returns (hpending : (index.page e.blkno).followRight = true) (fuel : ℕ) :
    Returns (fixSplitinfo giststate index fuel e.blkno (e :: f :: rest))
      (fun res => (∃ r d d', res.1 = [(e.blkno, d), (r, d')] ∧
          index.Unfinished kind e.blkno r d d') ∧
        ∃ o, res.2 = { e with downlinkoffnum := o } :: f :: rest ∧ OnPath index keys res.2)
      (fuel < 4) := by
  obtain ⟨r, hnext, hr, -⟩ := hs.pages.pending hpending
  replace hnext : (index.page e.blkno).rightlink = some r := hnext
  replace hr : (index.page r).followRight = false := hr
  cases fuel with
  | zero => exact Nat.zero_lt_succ _
  | succ fuel =>
    rw [fixSplitinfo]
    refine returns_bind.mpr ((gistformdownlink_returns hs h fuel _).mono ?_ (by omega))
    rintro ⟨d, stack⟩ ⟨⟨hgood, hchild, hle, hbelow⟩, o, rfl, hpath⟩
    simp only [hpending, if_true, hnext]
    refine returns_map.mpr ?_
    cases fuel with
    | zero => exact Nat.one_lt_succ_succ _
    | succ fuel =>
      rw [fixSplitinfo]
      refine returns_bind.mpr ((gistformdownlink_returns hs hpath fuel _).mono ?_
        (by omega))
      rintro ⟨d', stack⟩ ⟨⟨hgood', hchild', hle', hbelow'⟩, o', rfl, hpath'⟩
      simp only [hr]
      refine ⟨⟨r, d, d', rfl, hpending, hnext, hchild, hchild', hgood, hgood', hle, hle',
        fun {b t} ht hte => ⟨hbelow ht hte fun it hit => ?_, hbelow' ht hte fun it hit => ?_⟩⟩,
        o', rfl, hpath'⟩
      · exact hs.pages.le_above ht (hte ▸ hit)
      · exact hs.pages.le_above_right ht (hte ▸ hpending) (hte ▸ hnext) hit

end Fix

end Path

/-! ### The edits of an insertion -/

section Edits

variable {p off : ℕ} {it : IndexTuple κ} (hs : index.Sound kind level rank)

omit [∀ j, Preorder (κ j)] in
theorem perm_cons_eraseIdx {tuples : List (IndexTuple κ)} (hit : tuples[off - 1]? = some it) :
    tuples.Perm (it :: tuples.eraseIdx (off - 1)) := by
  obtain ⟨hlt, rfl⟩ := List.getElem?_eq_some_iff.mp hit
  exact (List.getElem_cons_eraseIdx_perm hlt).symm

omit [∀ j, Preorder (κ j)] in
theorem length_splitVector {tuples itup : List (IndexTuple κ)} (hit : tuples[off - 1]? = some it) :
    (splitVector tuples (some off) itup).length + 1 = tuples.length + itup.length := by
  have hlength := (perm_cons_eraseIdx hit).length_eq
  rw [List.length_cons] at hlength
  rw [splitVector, removeAt, List.length_append]
  omega

include hs

/-- A row on a leaf whose downlink covers it. -/
theorem Edit.row {itup : IndexTuple κ} (hlt : p < index.nblocks)
    (hleaf : (index.page p).isLeaf = true) (hgood : Good kind itup)
    (habove : p ≠ 0 → index.Above itup.keys p) :
    Edit kind index level rank p [itup] none none [itup] := by
  have hdowns : (index.pages.page p).downs = [] := if_pos hleaf
  refine ⟨hlt, fun _ hoff => ?_, by simp, ?_, by simp [splitVector, removeAt], fun _ hl => ?_,
    fun es hes => ?_, fun es hes => ?_⟩
  · cases hoff
  · simpa using hgood
  · cases hl
  · have hdowns' : ((index.pages.rewrite p es).page p).downs = [] :=
      if_pos ((LinkedPages.rewrite_leaf p).trans hleaf)
    rw [pages_placed]
    refine hs.pages.rewrite hlt (by rw [hdowns, hdowns']) (by simp [hdowns]) fun hp s hs' =>
      hs.pages.above_of_le (habove hp) fun k hk hold => ?_
    rcases mem_splitVector (hes.mem_iff.mp hs') with hs' | hs'
    · exact hold s hs'
    · rwa [List.mem_singleton.mp hs']
  · rw [pages_placed]
    exact LinkedPages.adds_rewrite hleaf (hes.trans List.perm_append_comm)

/-- A downlink grows, no more than the one above covers. -/
theorem Edit.adjust {newtup : IndexTuple κ} {keys : KeyVector κ}
    (hinner : (index.page p).isLeaf = false) (hit : (index.page p).tuples[off - 1]? = some it)
    (hgood : Good kind newtup) (hchild : newtup.child = it.child)
    (hle : ∀ k, newtup.keys ≤ k ↔ it.keys ≤ k ∧ keys ≤ k) (habove : p ≠ 0 → index.Above keys p) :
    Edit kind index level rank p [newtup] (some off) none [] := by
  have hold := perm_cons_eraseIdx hit
  have hlt := hs.pages.lt_size_of_leaf (show (index.pages.page p).leaf = false from hinner)
  have hoff := (List.getElem?_eq_some_iff.mp hit).1
  refine ⟨hlt, fun o ho => ?_, by simp, ?_, ?_, fun _ hl => ?_, fun es hes => ?_, fun es hes => ?_⟩
  · obtain rfl := Option.some.inj ho
    exact hoff
  · simpa using hgood
  · exact (Nat.le_of_succ_le_succ (length_splitVector hit).le).trans (Nat.le_succ _)
  · cases hl
  · have hnew : es.Perm (newtup :: (index.page p).tuples.eraseIdx (off - 1)) :=
      hes.trans (List.perm_append_singleton _ _)
    have hdowns : ((index.pages.rewrite p es).page p).downs = es := by
      rw [LinkedPage.downs_of_inner ((LinkedPages.rewrite_leaf p).trans hinner),
        LinkedPages.rewrite_page_self]
    rw [pages_placed]
    refine hs.pages.rewrite hlt ?_ (fun t ht => ?_) fun hp s hs' =>
      hs.pages.above_of_le (habove hp) fun k hk hbound => ?_
    · rw [hdowns, LinkedPage.downs_of_inner hinner]
      refine (hnew.map _).trans (.trans ?_ (hold.map _).symm)
      rw [List.map_cons, List.map_cons, hchild]
    · rw [hdowns]
      rcases List.mem_cons.mp (hold.mem_iff.mp (LinkedPage.mem_downs.mp ht).2) with rfl | ht
      · exact ⟨newtup, hnew.mem_iff.mpr List.mem_cons_self, hchild, ((hle _).mp le_rfl).1⟩
      · exact ⟨t, hnew.mem_iff.mpr (List.mem_cons_of_mem _ ht), rfl, le_rfl⟩
    · rcases List.mem_cons.mp (hnew.mem_iff.mp hs') with rfl | hs'
      · exact (hle k).mpr ⟨hbound it (List.mem_of_getElem? hit), hk⟩
      · exact hbound s (List.mem_of_mem_eraseIdx hs')
  · rw [pages_placed]
    exact LinkedPages.adds_rewrite_inner hinner

/-- The downlinks of a split take the place of the old one. -/
theorem Edit.link {e r : ℕ} {d d' : IndexTuple κ} (hinner : (index.page p).isLeaf = false)
    (hit : (index.page p).tuples[off - 1]? = some it) (hchild : it.child = e)
    (hunf : index.Unfinished kind e r d d') :
    Edit kind index level rank p [d, d'] (some off) (some e) [] := by
  have hold := perm_cons_eraseIdx hit
  have hoff := (List.getElem?_eq_some_iff.mp hit).1
  have hdown := mem_downs_of_getElem? hinner hit
  have hbelow := hunf.below hdown hchild
  have hlinks : ∀ es : List (IndexTuple κ),
      es.Perm (splitVector (index.page p).tuples (some off) [d, d']) →
      LinkedPages.Links IndexTuple.keys IndexTuple.child index.pages p e r it d d'
        ((index.page p).tuples.eraseIdx (off - 1)) es := fun es hes =>
    ⟨hinner, hold, hes.trans List.perm_append_comm, hchild, hunf.child_left, hunf.child_right,
      hunf.pending, hunf.next, hunf.left, hunf.right, hbelow.1, hbelow.2⟩
  have hne : e ≠ p := hchild ▸ hs.pages.down_ne hdown
  refine ⟨hs.pages.lt_size_of_leaf (show (index.pages.page p).leaf = false from hinner),
    fun o ho => ?_, by simp, ?_, ?_, fun l hl => ⟨it, hdown, hchild.trans (Option.some.inj hl)⟩,
    fun es hes => ?_, fun es hes => ?_⟩
  · obtain rfl := Option.some.inj ho
    exact hoff
  · simpa using ⟨hunf.good_left, hunf.good_right⟩
  · exact (Nat.succ.inj (length_splitVector hit)).le
  · rw [pages_placed_leftchild _ hne]
    exact hs.pages.link (hlinks es hes)
  · rw [pages_placed_leftchild _ hne]
    exact LinkedPages.adds_link hinner

end Edits

/-! ### Insertions on a path -/

/-- Nothing is lost, and the given rows are added. -/
def Kept (kind : IndexKind giststate valid) (index index' : Index κ)
    (added : List (IndexTuple κ)) : Prop :=
  (∃ level rank, index'.Sound kind level rank) ∧ index.pages.Adds index'.pages added

omit [∀ j, Preorder (κ j)] in
/-- Nothing disturbs an insertion: there are no conflicts, there is space on the stack of the
backend, and the fuel is enough. -/
def Smooth (state : InsertState κ) (fuel need : ℕ) : Prop :=
  (∀ lsn, state.conflictIn lsn = false) ∧ 0 < state.depth ∧ need ≤ fuel

/-- An insertion fails, and something has disturbed it. Perhaps the rows were added before. -/
def Stops (kind : IndexKind giststate valid) (state : InsertState κ) (fuel need : ℕ)
    (index : Index κ) (added : List (IndexTuple κ)) (index' : Index κ) : Prop :=
  (∃ added' ⊆ added, Kept kind index index' added') ∧ ¬ Smooth state fuel need

/-- The insertion goes on with a stack. No page got the follow-right flag, one may have lost it, and
the root is at most one level higher. -/
structure Advanced (kind : IndexKind giststate valid) (keys : KeyVector κ) (index : Index κ)
    (level : ℕ → ℕ) (cleared : Option ℕ) (added : List (IndexTuple κ)) (stack : List StackEntry)
    (index' : Index κ) : Prop where
  sound : ∃ level' rank', index'.Sound kind level' rank' ∧ level' 0 ≤ level 0 + 1
  adds : index.pages.Adds index'.pages added
  flags : ∀ b, (index'.page b).followRight = true →
    (index.page b).followRight = true ∧ cleared ≠ some b
  resumes : Resumes index' keys stack

/-- Tuples are placed on the page at the top. -/
structure Inserted (kind : IndexKind giststate valid) (keys : KeyVector κ) (index : Index κ)
    (level rank : ℕ → ℕ) (top : StackEntry) (parents : List StackEntry)
    (tuples : List (IndexTuple κ)) (oldoffnum leftchild : Option ℕ) (added : List (IndexTuple κ))
    (res : Bool × List StackEntry) (index' : Index κ) : Prop where
  advanced : Advanced kind keys index level leftchild added res.2 index'
  split : res.1 = true → gistnospace (index.page top.blkno) tuples oldoffnum 0 = true
  placed : res.1 = false → res.2 = top :: parents ∧ index' = index.placed top.blkno
    (updatedTuples (index.page top.blkno).tuples oldoffnum tuples) leftchild ∧
    index'.Sound kind level rank

/-- What a function that inserts tuples does. -/
def Inserts (kind : IndexKind giststate valid) (keys : KeyVector κ) (state : InsertState κ)
    (fuel : ℕ) (insert : Insert κ) : Prop :=
  ∀ {index : Index κ} {level rank : ℕ → ℕ} {top : StackEntry} {parents : List StackEntry}
    {tuples added : List (IndexTuple κ)} {oldoffnum leftchild : Option ℕ},
    index.Sound kind level rank → OnPath index keys (top :: parents) →
    (index.page top.blkno).followRight = false →
    Edit kind index level rank top.blkno tuples oldoffnum leftchild added →
    (insert (top :: parents) tuples oldoffnum leftchild).Ensures index
      (Inserted kind keys index level rank top parents tuples oldoffnum leftchild added)
      (Stops kind state fuel (parents.length + 3) index added)

section Insert

variable {keys : KeyVector κ} {state : InsertState κ} {e f top : StackEntry}
  {rest parents : List StackEntry} {added added' : List (IndexTuple κ)} {fuel need : ℕ}

theorem Index.Sound.kept (h : index.Sound kind level rank) : Kept kind index index [] :=
  ⟨⟨level, rank, h⟩, by simp [LinkedPages.Adds]⟩

theorem Advanced.kept {cleared : Option ℕ} {stack : List StackEntry}
    (h : Advanced kind keys index level cleared added stack index') :
    Kept kind index index' added := by
  obtain ⟨level', rank', hs', -⟩ := h.sound
  exact ⟨⟨level', rank', hs'⟩, h.adds⟩

theorem Kept.trans {index'' : Index κ} (h : Kept kind index index' added)
    (h' : Kept kind index' index'' added') :
    Kept kind index index'' (added ++ added') :=
  ⟨h'.1, h.2.trans h'.2⟩

theorem Index.Sound.stops (h : index.Sound kind level rank)
    (hrough : ¬ Smooth state fuel need) : Stops kind state fuel need index added index :=
  ⟨⟨[], List.nil_subset _, h.kept⟩, hrough⟩

/-- After some rows were added, an insertion fails. -/
theorem Kept.stops {index'' : Index κ} {rows : List (IndexTuple κ)} {fuel' need' : ℕ}
    (h : Kept kind index index' added)
    (h' : Stops kind state fuel' need' index' added' index'') (hrows : added ++ added' ⊆ rows)
    (hneed : Smooth state fuel need → need' ≤ fuel') :
    Stops kind state fuel need index rows index'' := by
  obtain ⟨⟨added'', hsub, hkept⟩, hrough⟩ := h'
  refine ⟨⟨added ++ added'', ?_, h.trans hkept⟩, fun hsmooth =>
    hrough ⟨hsmooth.1, hsmooth.2.1, hneed hsmooth⟩⟩
  rw [List.append_subset] at hrows ⊢
  exact ⟨hrows.1, fun _ hrow => hrows.2 (hsub hrow)⟩

/-- A split of page `e` is finished, and the insertion goes on above. -/
def Finished (kind : IndexKind giststate valid) (keys : KeyVector κ) (index : Index κ)
    (level : ℕ → ℕ) (e : ℕ) (stack : List StackEntry) (index' : Index κ) : Prop :=
  Advanced kind keys index level (some e) [] stack index' ∧
    ∃ e' rest, stack = e' :: rest ∧ e'.retryFromParent = true

/-- The downlinks of a split in two are inserted at once. -/
theorem gistfinishsplit_ensures {insert : Insert κ} {r : ℕ} {d d' : IndexTuple κ}
    (hinsert : Inserts kind keys state fuel insert)
    (hs : index.Sound kind level rank) (h : OnPath index keys (e :: f :: rest))
    (hunf : index.Unfinished kind e.blkno r d d') :
    (gistfinishsplit insert fuel [(e.blkno, d), (r, d')] (e :: f :: rest)).Ensures index
      (Finished kind keys index level e.blkno)
      (Stops kind state fuel (rest.length + 3) index []) := by
  unfold gistfinishsplit insertDownlinks
  simp only [List.tail_cons, insertFromRight, Exec.ensures_bind, Exec.ensures_pure,
    Exec.ensures_get, Exec.ensures_lift]
  refine (gistFindCorrectParent_returns h fuel).mono ?_ fun hfuel =>
    hs.stops fun hsmooth => absurd hsmooth.2.2 (by omega)
  rintro stack ⟨off, it, rfl, hit, hchild⟩
  refine Exec.ensures_bind.mpr ((hinsert hs h.2 h.1.1.settled
    (Edit.link hs h.inner hit hchild hunf)).mono ?_ fun _ => id)
  rintro ⟨isSplit, parents⟩ index' hres
  refine ⟨{ hres.advanced with resumes := ?_ }, _, _, rfl, rfl⟩
  exact (resumes_cons_of_retry rfl).mpr hres.advanced.resumes

/-- The pages above are not touched when tuples are placed. -/
theorem Placed.onPath {tuples : List (IndexTuple κ)} {oldoffnum leftchild : Option ℕ}
    {res : PlaceResult κ} (hs : index.Sound kind level rank)
    (he : Edit kind index level rank top.blkno tuples oldoffnum leftchild added)
    (h : OnPath index keys (top :: parents)) (hres : Placed kind index level rank top.blkno
      tuples oldoffnum leftchild added res) : OnPath res.index keys (top :: parents) := by
  refine h.frame (by rw [hres.lsn]; exact Nat.le_succ _) (fun hne => hres.nsn ?_) fun f hf => ?_
  · obtain ⟨f, rest, rfl⟩ := List.exists_cons_of_ne_nil hne
    exact h.ne_root hs
  · obtain ⟨hlevel, hlt⟩ := h.level_lt hs f hf
    refine hres.other f.blkno hlt (fun heq => ?_) fun hleft => ?_
    · rw [heq] at hlevel
      exact lt_irrefl _ hlevel
    · subst hleft
      obtain ⟨d, hd, hchild⟩ := he.left _ rfl
      have hbelow := (hs.pages.down hd).2.2
      rw [hchild] at hbelow
      omega

variable (hstate : state.For giststate)

include hstate

theorem gistinserttuples_ensures (fuel : ℕ) :
    Inserts kind keys state fuel (gistinserttuples state fuel) := by
  induction fuel with
  | zero =>
    intro index level rank top parents tuples added oldoffnum leftchild hs h hflag he
    exact hs.stops fun hsmooth => absurd hsmooth.2.2 (by omega)
  | succ fuel ih =>
    intro index level rank top parents tuples added oldoffnum leftchild hs h hflag he
    rw [gistinserttuples]
    refine Exec.ensures_bind.mpr (Exec.ensures_get.mpr ?_)
    by_cases hconflict : state.conflictIn index.lsn = true
    · rw [if_pos hconflict]
      refine hs.stops fun hsmooth => ?_
      rw [hsmooth.1] at hconflict
      cases hconflict
    rw [if_neg hconflict, hstate.giststate_eq, hstate.freespace]
    refine Exec.ensures_bind.mpr (Exec.ensures_lift.mpr ((gistplacetopage_returns hs he hflag
      h.above).mono (fun res hres => ?_) fun hdepth =>
        hs.stops fun hsmooth => absurd hsmooth.2.1 (by omega)))
    refine Exec.ensures_bind.mpr (Exec.ensures_set.mpr ?_)
    have hpath := hres.onPath hs he h
    have hflags : res.splitinfo = [] → ∀ b, (res.index.page b).followRight = true →
        (index.page b).followRight = true ∧ leftchild ≠ some b := fun hinfo b hb =>
      (hres.flags b hb).resolve_right fun hsplit => hsplit.2 hinfo
    rcases hres.cases with ⟨hsplit, hinfo, heq, hsound⟩ |
      ⟨hsplit, hinfo, hroot, level', rank', hsound, hlevel⟩ |
      ⟨hsplit, hne, ⟨level', rank', hsound, hlevel⟩, r, d, d', hinfo, hunf⟩
    · rw [if_pos (by simp [hinfo])]
      exact ⟨⟨⟨level, rank, hsound, Nat.le_succ _⟩, hres.adds, hflags hinfo, hpath.resumes⟩,
        hres.full, fun _ => ⟨rfl, heq, hsound⟩⟩
    · rw [if_pos (by simp [hinfo])]
      exact ⟨⟨⟨level', rank', hsound, hlevel.le⟩, hres.adds, hflags hinfo, hpath.resumes⟩,
        hres.full, fun hsplit' => absurd (hsplit.symm.trans hsplit') (by simp)⟩
    · -- the page is not the root, so it has a parent for the downlinks
      obtain ⟨f, rest, rfl⟩ := h.exists_parent hne
      rw [if_neg (by simp [hinfo]), hinfo]
      refine Exec.ensures_bind.mpr ((gistfinishsplit_ensures ih hsound hpath hunf).mono ?_ ?_)
      · rintro stack index' ⟨hadv, -⟩
        obtain ⟨level'', rank'', hsound'', hlevel''⟩ := hadv.sound
        refine ⟨⟨⟨level'', rank'', hsound'', hlevel ▸ hlevel''⟩, ?_, fun b hb => ?_, hadv.resumes⟩,
          hres.full, fun hsplit' => absurd (hsplit.symm.trans hsplit') (by simp)⟩
        · simpa using hres.adds.trans hadv.adds
        · obtain ⟨hb, hclear⟩ := hadv.flags b hb
          exact (hres.flags b hb).resolve_right fun hself => hclear (by rw [hself.1])
      · have hkept : Kept kind index res.index added := ⟨⟨_, _, hsound⟩, hres.adds⟩
        refine fun index' hstops => hkept.stops hstops (by simp) fun hsmooth => ?_
        have := hsmooth.2.2
        rw [List.length_cons] at this
        omega

/-- A split that was left unfinished is finished. -/
theorem gistfixsplit_ensures (hs : index.Sound kind level rank)
    (h : OnPath index keys (e :: f :: rest))
    (hpending : (index.page e.blkno).followRight = true) (fuel : ℕ) :
    (gistfixsplit state fuel (e :: f :: rest)).Ensures index
      (Finished kind keys index level e.blkno)
      (Stops kind state fuel (rest.length + 4) index []) := by
  unfold gistfixsplit
  rw [hstate.giststate_eq]
  refine Exec.ensures_bind.mpr (Exec.ensures_get.mpr (Exec.ensures_bind.mpr (Exec.ensures_lift.mpr
    ((fixSplitinfo_returns hs h hpending fuel).mono ?_ fun hfuel =>
      hs.stops fun hsmooth => absurd hsmooth.2.2 (by omega)))))
  rintro ⟨splitinfo, stack⟩ ⟨⟨r, d, d', rfl, hunf⟩, o, rfl, hpath⟩
  exact (gistfinishsplit_ensures (gistinserttuples_ensures hstate fuel) hs hpath hunf).mono
    (fun _ _ => id) fun index' hstops => hs.kept.stops hstops (by simp) fun hsmooth =>
      (Nat.le_succ _).trans hsmooth.2.2

end Insert

/-! ### A whole insertion -/

omit [∀ j, Preorder (κ j)] in
/-- The pages with the follow-right flag. -/
def Index.pendings (index : Index κ) : Finset ℕ :=
  (Finset.range index.nblocks).filter fun b => (index.page b).followRight = true

omit [∀ j, Preorder (κ j)] in
/-- The fuel that an insertion needs. From a page on it goes down to a leaf, but for each unfinished
split on its way it starts again above. The number `bound` is one for the levels at all times. -/
def insertFuel (bound pendings level : ℕ) : ℕ := pendings * (bound + 1) + level + bound + 5

/-- The tuple is inserted. If that fails, then something has disturbed it. -/
def Completes (kind : IndexKind giststate valid) (state : InsertState κ) (itup : IndexTuple κ)
    (fuel need : ℕ) (index : Index κ) (m : Exec GistError (Index κ) Unit) (index' : Index κ) :
    Prop :=
  m.Ensures index' (fun _ index'' => Kept kind index index'' [itup])
    (Stops kind state fuel need index [itup])

/-- From a path on, the tuple is inserted. -/
def InsertsTuple (kind : IndexKind giststate valid) (state : InsertState κ)
    (itup : IndexTuple κ) (fuel : ℕ) (next : List StackEntry → Exec GistError (Index κ) Unit) :
    Prop :=
  ∀ {index : Index κ} {level rank : ℕ → ℕ} {top : StackEntry} {parents stack : List StackEntry}
    {bound : ℕ}, index.Sound kind level rank →
    stack.dropWhile StackEntry.retryFromParent = top :: parents →
    OnPath index itup.keys (top :: parents) → level 0 + index.pendings.card ≤ bound →
    Completes kind state itup fuel (insertFuel bound index.pendings.card (level top.blkno))
      index (next stack) index

section Whole

variable {keys : KeyVector κ} {state : InsertState κ} {top : StackEntry}
  {parents stack : List StackEntry} {itup : IndexTuple κ}

theorem mem_pendings (hs : index.Sound kind level rank) {b : ℕ} :
    b ∈ index.pendings ↔ (index.page b).followRight = true := by
  rw [Index.pendings, Finset.mem_filter, Finset.mem_range]
  refine ⟨fun h => h.2, fun h => ⟨?_, h⟩⟩
  obtain ⟨c, hnext, -⟩ := hs.pages.pending h
  exact hs.pages.lt_size_of_next hnext

theorem pendings_subset {level' rank' : ℕ → ℕ} (hs : index.Sound kind level rank)
    (hs' : index'.Sound kind level' rank')
    (hflags : ∀ b, (index'.page b).followRight = true → (index.page b).followRight = true) :
    index'.pendings ⊆ index.pendings := fun b hb =>
  (mem_pendings hs).mpr (hflags b ((mem_pendings hs').mp hb))

theorem Resumes.exists_top (h : Resumes index keys stack) : ∃ top parents,
    stack.dropWhile StackEntry.retryFromParent = top :: parents ∧
      OnPath index keys (top :: parents) := by
  unfold Resumes at h
  cases hdrop : stack.dropWhile StackEntry.retryFromParent with
  | nil =>
    rw [hdrop] at h
    exact h.elim
  | cons top parents => exact ⟨top, parents, rfl, hdrop ▸ h⟩

/-- The LSN at the top is not used before the insertion goes down. -/
theorem OnPath.visit (h : OnPath index keys (top :: parents)) (lsn : ℕ) :
    OnPath index keys ({ top with lsn := lsn } :: parents) := by
  cases parents with
  | nil => exact h
  | cons f rest => exact ⟨⟨{ h.1.1 with }, h.1.2⟩, h.2⟩

/-- The insertion goes down to a page whose downlink covers the tuple. -/
theorem OnPath.descend (h : OnPath index keys (top :: parents)) {off : ℕ} {it : IndexTuple κ}
    (hsettled : (index.page top.blkno).followRight = false)
    (hinner : (index.page top.blkno).isLeaf = false)
    (hit : (index.page top.blkno).tuples[off - 1]? = some it) (hle : keys ≤ it.keys)
    (hlsn : top.lsn ≤ index.lsn) (hnsn : (index.page it.child).nsn ≤ top.lsn) :
    OnPath index keys (⟨it.child, 0, false, some off⟩ :: top :: parents) :=
  ⟨⟨⟨⟨it, mem_downs_of_getElem? hinner hit, rfl, hle⟩, fun _ => ⟨off, it, rfl, hit, rfl⟩, hlsn,
    hnsn, hsettled⟩, rfl⟩, h⟩

/-- It goes down through a downlink that it has adjusted. -/
theorem OnPath.descend_adjusted (h : OnPath index' keys (top :: parents)) {off : ℕ}
    {it newtup : IndexTuple κ} (hs : index.Sound kind level rank)
    (hlsn : top.lsn = (index.page top.blkno).lsn)
    (hsettled : (index.page top.blkno).followRight = false)
    (hinner : (index.page top.blkno).isLeaf = false)
    (hit : (index.page top.blkno).tuples[off - 1]? = some it) (hchild : newtup.child = it.child)
    (hle : keys ≤ newtup.keys) (hplaced : index' = index.placed top.blkno
      (updatedTuples (index.page top.blkno).tuples (some off) [newtup]) none) :
    OnPath index' keys (⟨it.child, 0, false, some off⟩ :: top :: parents) := by
  have hdown := mem_downs_of_getElem? hinner hit
  have hpage : index'.page top.blkno = { index.page top.blkno with
      tuples := (index.page top.blkno).tuples.set (off - 1) newtup
      lsn := index.lsn + 1 } := by
    rw [hplaced]
    exact placed_page_self fun _ hl => by cases hl
  have hsame : index'.page it.child = index.page it.child := by
    rw [hplaced]
    exact placed_page_of_ne (hs.pages.down_ne hdown)
  rw [← hchild]
  refine h.descend ?_ ?_ ?_ hle ?_ ?_
  · rw [hpage]
    exact hsettled
  · rw [hpage]
    exact hinner
  · rw [hpage]
    exact List.getElem?_set_self (List.getElem?_eq_some_iff.mp hit).1
  · rw [hlsn, hplaced]
    exact (hs.ok top.blkno).lsn_le.trans (Nat.le_succ _)
  · rw [hchild, hsame, hlsn]
    exact hs.nsn_le hdown

omit [∀ j, Preorder (κ j)] in
/-- There is always space for a tuple in the place of another one of the same size. -/
theorem gistnospace_replace {page : GistPage κ} {off : ℕ} {it newtup : IndexTuple κ}
    (hit : page.tuples[off - 1]? = some it) (hsize : newtup.size = it.size) :
    gistnospace page [newtup] (some off) 0 = false := by
  simp [gistnospace, hit, IndexTuple.space, hsize]

section Steps

variable {next : List StackEntry → Exec GistError (Index κ) Unit} {fuel bound need : ℕ}
  {level' rank' : ℕ → ℕ}

/-- The insertion goes on from what a step has left. -/
theorem InsertsTuple.go (hnext : InsertsTuple kind state itup fuel next)
    (hkept : Kept kind index index' []) (hs' : index'.Sound kind level' rank')
    (hresumes : Resumes index' itup.keys stack) (hbound' : level' 0 + index'.pendings.card ≤ bound)
    (hfuel : ∀ top parents, stack.dropWhile StackEntry.retryFromParent = top :: parents →
      OnPath index' itup.keys (top :: parents) →
      insertFuel bound index'.pendings.card (level' top.blkno) < need) :
    Completes kind state itup (fuel + 1) need index (next stack) index' := by
  obtain ⟨top, parents, hdrop, h⟩ := hresumes.exists_top
  refine (hnext hs' hdrop h hbound').mono (fun _ index'' hdone => hkept.trans hdone) fun index''
    hstops => hkept.stops hstops (by simp) fun hsmooth => ?_
  have := hfuel top parents hdrop h
  have := hsmooth.2.2
  omega

omit [∀ j, Preorder (κ j)] in
/-- There is fuel for the insertion of downlinks up to the root. -/
theorem Smooth.of_insertFuel {length : ℕ} (hlevels : level top.blkno + length = level 0)
    (hbound : level 0 + index.pendings.card ≤ bound) (hneed : need ≤ length + 3)
    (hsmooth : Smooth state (fuel + 1)
      (insertFuel bound index.pendings.card (level top.blkno))) : need ≤ fuel := by
  have := hsmooth.2.2
  unfold insertFuel at this
  omega

variable (hstate : state.For giststate)
  (hnext : InsertsTuple kind state itup fuel next)
  (hs : index.Sound kind level rank) (h : OnPath index itup.keys (top :: parents))
  (hbound : level 0 + index.pendings.card ≤ bound)

include hstate hnext hs h hbound

/-- An unfinished split is finished, and there is one less. -/
theorem fixsplit_next_completes (hflag : (index.page top.blkno).followRight = true) :
    Completes kind state itup (fuel + 1)
      (insertFuel bound index.pendings.card (level top.blkno)) index
      (gistfixsplit state fuel (top :: parents) >>= fun stack => next stack.tail) index := by
  have hlevels := h.level_eq hs
  obtain ⟨f, rest, rfl⟩ := h.exists_parent fun hroot => by
    have hsettled : (index.page 0).followRight = false := hs.pages.root_pending
    rw [hroot, hsettled] at hflag
    cases hflag
  refine Exec.ensures_bind.mpr ((gistfixsplit_ensures hstate hs h hflag fuel).mono ?_ fun index'
    hstops => hs.kept.stops hstops (by simp) fun hsmooth =>
      hsmooth.of_insertFuel hlevels hbound le_rfl)
  rintro stack index' ⟨hadv, e, rest', rfl, hretry⟩
  obtain ⟨level', rank', hs', hlevel'⟩ := hadv.sound
  have hcard : index'.pendings.card < index.pendings.card := by
    refine Finset.card_lt_card (Finset.ssubset_iff_subset_ne.mpr
      ⟨pendings_subset hs hs' fun b hb => (hadv.flags b hb).1, fun heq => ?_⟩)
    have hmem := (mem_pendings hs).mpr hflag
    rw [← heq, mem_pendings hs'] at hmem
    exact (hadv.flags _ hmem).2 rfl
  refine hnext.go hadv.kept hs' ((resumes_cons_of_retry hretry).mp hadv.resumes)
    (show level' 0 + index'.pendings.card ≤ bound by omega) ?_
  rintro top' parents' - h'
  have hlevels' := h'.level_eq hs'
  have hmul := Nat.mul_le_mul_right (bound + 1) hcard
  rw [Nat.succ_mul] at hmul
  unfold insertFuel
  omega

/-- On an inner page the insertion goes down one level. -/
theorem insertBelow_completes (hgood : Good kind itup)
    (hlsn : top.lsn = (index.page top.blkno).lsn)
    (hflag : (index.page top.blkno).followRight = false)
    (hinner : (index.page top.blkno).isLeaf = false) :
    Completes kind state itup (fuel + 1)
      (insertFuel bound index.pendings.card (level top.blkno)) index
      (insertBelow state itup fuel next (index.page top.blkno) top parents) index := by
  have hok := hs.ok top.blkno
  obtain ⟨idxtuple, -, hidx, -⟩ := exists_gistchoose giststate (state.random fuel)
    (state.uninitialized fuel) (hok.nonempty hinner) itup
  have hidxgood := hok.good idxtuple (List.mem_of_getElem? hidx)
  have hdown := mem_downs_of_getElem? hinner hidx
  have hlevel := (hs.pages.down hdown).2.2
  -- below, less fuel is needed
  have hdeeper : ∀ {index' : Index κ} {off : ℕ} {stack : List StackEntry},
      index'.pendings.card ≤ index.pendings.card →
      ∀ top' parents', (⟨idxtuple.child, 0, false, some off⟩ :: stack : List StackEntry).dropWhile
        StackEntry.retryFromParent = top' :: parents' → OnPath index' itup.keys (top' :: parents') →
      insertFuel bound index'.pendings.card (level top'.blkno) <
        insertFuel bound index.pendings.card (level top.blkno) := by
    intro index' off stack hcard top' parents' hdrop _
    obtain ⟨rfl, -⟩ := List.cons.inj hdrop
    have hmul := Nat.mul_le_mul_right (bound + 1) hcard
    unfold insertFuel
    dsimp only
    omega
  unfold insertBelow
  simp only [hstate.giststate_eq, hidx, hidxgood.not_invalid, if_false]
  refine Exec.ensures_bind.mpr ?_
  obtain ⟨newtup, hrun, hnew, htid, hle⟩ := exists_gistgetadjusted hidxgood hgood.keys
  have hcover := ((hle _).mp le_rfl).2
  rw [hrun]
  cases newtup with
  | none =>
    exact hnext.go hs.kept hs (h.descend hflag hinner hidx hcover (hlsn ▸ hok.lsn_le)
      (hlsn ▸ hs.nsn_le hdown)).resumes hbound (hdeeper le_rfl)
  | some newtup =>
    have hchild : newtup.child = idxtuple.child := congrArg ItemPointer.block htid
    refine Exec.ensures_bind.mpr ((gistinserttuples_ensures hstate fuel hs h hflag
      (Edit.adjust hs hinner hidx hnew hchild hle h.above)).mono ?_ fun index' hstops =>
        hs.kept.stops hstops (by simp) fun hsmooth =>
          hsmooth.of_insertFuel (h.level_eq hs) hbound le_rfl)
    rintro ⟨isSplit, stack⟩ index' hres
    cases isSplit with
    | true =>
      -- the tuple has the same size as before
      have hfull := hres.split rfl
      rw [gistnospace_replace hidx (hnew.size_eq.trans hidxgood.size_eq.symm)] at hfull
      cases hfull
    | false =>
      obtain ⟨rfl, hplaced, hs'⟩ := hres.placed rfl
      have hpath : OnPath index' itup.keys (top :: parents) := by
        have hresumes := hres.advanced.resumes
        rwa [Resumes, List.dropWhile_cons_of_neg (by simp [h.retry])] at hresumes
      have hcard := Finset.card_le_card (pendings_subset hs hs' fun b hb =>
        (hres.advanced.flags b hb).1)
      exact hnext.go hres.advanced.kept hs'
        (hpath.descend_adjusted hs hlsn hflag hinner hidx hchild hcover hplaced).resumes
        ((Nat.add_le_add_left hcard _).trans hbound) (hdeeper hcard)

end Steps

theorem gistdoinsert_ensures (hstate : state.For giststate) (hgood : Good kind itup)
    (fuel : ℕ) : InsertsTuple kind state itup fuel (gistdoinsert state itup fuel) := by
  induction fuel with
  | zero =>
    intro index level rank top parents stack bound hs hdrop h hbound
    exact hs.stops fun hsmooth => absurd hsmooth.2.2 (by unfold insertFuel; omega)
  | succ fuel ih =>
    intro index level rank top parents stack bound hs hdrop h hbound
    rw [gistdoinsert]
    refine Exec.ensures_bind.mpr (Exec.ensures_get.mpr ?_)
    simp only [hdrop]
    have hpath := h.visit (index.page top.blkno).lsn
    cases hflag : (index.page top.blkno).followRight with
    | true => exact fixsplit_next_completes hstate ih hs hpath hbound hflag
    | false =>
      have hdetected : splitDetected (index.page top.blkno) parents = false := by
        cases parents with
        | nil => rfl
        | cons f rest => exact decide_eq_false (not_lt.mpr h.1.1.nsn_le)
      simp only [Bool.false_eq_true, if_false, hdetected, (hs.ok top.blkno).live, Bool.or_self]
      cases hleaf : (index.page top.blkno).isLeaf with
      | true =>
        exact Exec.ensures_bind.mpr ((gistinserttuples_ensures hstate fuel hs hpath hflag
          (Edit.row hs (hpath.lt hs) hleaf hgood hpath.above)).mono (fun _ _ hres =>
            hres.advanced.kept) fun index' hstops => hs.kept.stops hstops (by simp) fun hsmooth =>
              hsmooth.of_insertFuel (h.level_eq hs) hbound le_rfl)
      | false => exact insertBelow_completes hstate ih hs hpath hbound hgood rfl hflag hleaf

end Whole

/-! ### Calls one after the other -/

theorem Index.empty_sound (kind : IndexKind giststate valid) :
    (Index.empty : Index κ).Sound kind (fun _ => 0) fun _ => 0 := by
  refine ⟨?_, fun b => ⟨by simp [Index.empty], ?_, ?_, rfl, Nat.one_pos, le_rfl, Nat.zero_le _⟩,
    fun hit => by cases hit⟩
  · constructor
    all_goals simp [Index.empty, Index.pages, GistPage.linked, LinkedPage.blank, LinkedPage.downs,
      LinkedPages.total, LinkedPage.ups, LinkedPage.lefts]
  · simp [Index.empty, gistfitpage]
  · intro hleaf
    cases hleaf

theorem Call.run_completes {call : Call κ} (hcall : call.Proper giststate kind.Keys)
    (hs : index.Sound kind level rank) : Completes kind call.state call.row call.fuel
      (insertFuel (level 0 + index.pendings.card) index.pendings.card (level 0)) index call.run
      index := by
  obtain ⟨rfl, hvalues, htid⟩ := hcall
  obtain ⟨it, hit, hkeys, hgood⟩ := kind.form hvalues
  have hrow : call.row = { it with tid := call.htCtid } := by
    rw [Call.row, kind.formSize hvalues, ← hgood.size_eq, ← hkeys]
  have hstate : InsertState.For _ { call.state with freespace := 0 } := ⟨rfl, rfl⟩
  have hrowgood : Good kind call.row := hrow ▸ ⟨hgood.keys, hgood.size_eq, htid⟩
  have hpath : OnPath index call.row.keys [.root] := ⟨rfl, rfl⟩
  have hdrop : [StackEntry.root].dropWhile StackEntry.retryFromParent = [.root] := rfl
  unfold Call.run gistinsert
  rw [hit, hrow] at *
  exact gistdoinsert_ensures hstate hrowgood call.fuel hs hdrop hpath le_rfl

/-- The rows of the calls that return are added, and perhaps those of some that fail. -/
theorem runCalls_kept {calls : List (Call κ)}
    (hcalls : ∀ call ∈ calls, call.Proper giststate kind.Keys) (hs : index.Sound kind level rank) :
    ∃ added, (∀ call ∈ (runCalls calls index).1, call.row ∈ added) ∧
      (∀ row ∈ added, ∃ call ∈ calls, row = call.row) ∧
      Kept kind index (runCalls calls index).2 added := by
  induction calls generalizing index level rank with
  | nil => exact ⟨[], by simp [runCalls], by simp, hs.kept⟩
  | cons call calls ih =>
    have hrun := call.run_completes (hcalls call List.mem_cons_self) hs
    have hrest := fun call hcall => hcalls call (List.mem_cons_of_mem _ hcall)
    -- the row of this call is added or not, and then those of the others
    have hstep : ∀ {index' added}, added ⊆ [call.row] → Kept kind index index' added →
        ∃ added', (∀ call ∈ (runCalls calls index').1, call.row ∈ added') ∧ added ⊆ added' ∧
          (∀ row ∈ added', ∃ call' ∈ call :: calls, row = call'.row) ∧
          Kept kind index (runCalls calls index').2 added' := by
      intro index' added hsub hkept
      obtain ⟨level', rank', hs'⟩ := hkept.1
      obtain ⟨added', hdone, hfrom, hkept'⟩ := ih hrest hs'
      refine ⟨added ++ added', fun call hcall => List.mem_append_right _ (hdone call hcall),
        List.subset_append_left _ _, fun row hrow => ?_, hkept.trans hkept'⟩
      rcases List.mem_append.mp hrow with hrow | hrow
      · exact ⟨call, List.mem_cons_self, by simpa using hsub hrow⟩
      · obtain ⟨call', hcall', heq⟩ := hfrom row hrow
        exact ⟨call', List.mem_cons_of_mem _ hcall', heq⟩
    unfold Completes Exec.Ensures at hrun
    rw [runCalls]
    rcases hresult : call.run index with ⟨_ | _, index'⟩ <;> rw [hresult] at hrun
    · obtain ⟨⟨added, hsub, hkept⟩, -⟩ := hrun
      obtain ⟨added', hdone, -, hfrom, hkept'⟩ := hstep hsub hkept
      exact ⟨added', hdone, hfrom, hkept'⟩
    · obtain ⟨added', hdone, hsub, hfrom, hkept'⟩ := hstep (List.Subset.refl _) hrun
      refine ⟨added', fun call' hcall' => ?_, hfrom, hkept'⟩
      rcases List.mem_cons.mp hcall' with rfl | hcall'
      · exact hsub List.mem_cons_self
      · exact hdone call' hcall'

end PgRange.Gist
