import Mathlib.Logic.Hydra
import PgRange.Gist.PlaceToPage

/-!
# Index scans

A scan keeps a queue of pages, each with the LSN that its parent had when the downlink was read.
`gistScanPage` looks at one page: it adds the page to the right to the queue if the page was split
since then or the split is not finished, and the pages below whose downlinks pass the test of the
scan keys, and it returns the rows on a leaf that pass.

## Main definitions

* `ScanKey`, `gistindexKeytest` — conditions on the columns
* `gistScanPage`, `gistgetbitmap` — one page of a scan, and a scan
* `ScanKey.Lawful` — what consistent functions are for
* `Leads`, `Hits` — where a scan goes on from a page, and the rows that it returns

## Main results

* `exists_gistgetbitmap` — a scan ends, with the rows that pass the test
-/

set_option autoImplicit false

namespace PgRange.Gist

open Math

variable {n : ℕ} {κ : Fin n → Type}

/-! ### The functions of the source -/

/-- A condition on a column: `IS NULL`, `IS NOT NULL`, or an operator with its constant, as the
consistent function of the column sees it. The flag tells it whether the key is on a leaf. -/
inductive ScanKey {n : ℕ} (κ : Fin n → Type)
  | searchNull (attno : Fin n)
  | searchNotNull (attno : Fin n)
  | operator (attno : Fin n) (consistent : Bool → κ attno → Except Fault Bool)

/-- The test of one scan key. The key of a downlink may stand for NULLs as well, since the union
of a key and a NULL is the key. -/
def ScanKey.test (isLeaf : Bool) (tuple : IndexTuple κ) : ScanKey κ → Except Fault Bool
  | .searchNull attno => .ok (!(isLeaf && (tuple.keys attno).isSome))
  | .searchNotNull attno => .ok (tuple.keys attno).isSome
  | .operator attno consistent =>
    match tuple.keys attno with
    | none => .ok false
    | some datum => consistent isLeaf datum

/-- The loop of `gistindex_keytest`. -/
def testAll (isLeaf : Bool) (tuple : IndexTuple κ) : List (ScanKey κ) → Except Fault Bool
  | [] => .ok true
  | key :: keys =>
    key.test isLeaf tuple >>= fun test => if test then testAll isLeaf tuple keys else .ok false

/-- `gistindex_keytest`. -/
def gistindexKeytest (isLeaf : Bool) (tuple : IndexTuple κ) (keys : List (ScanKey κ)) :
    Except GistError Bool :=
  if tuple.tid.offset = 0xfffe then if isLeaf then .error .invalidLeafTuple else .ok true
  else callSupport (testAll isLeaf tuple keys)

/-- The tuples of a page that pass the test. -/
def matching (keys : List (ScanKey κ)) (isLeaf : Bool) :
    List (IndexTuple κ) → Except GistError (List (IndexTuple κ))
  | [] => .ok []
  | it :: rest =>
    gistindexKeytest isLeaf it keys >>= fun test =>
      (matching keys isLeaf rest).map fun found => if test then it :: found else found

/-- `GISTSearchItem` for a page. -/
structure SearchItem where
  blkno : ℕ
  parentlsn : ℕ

/-- The page to the right, if the page was split since the parent was read. The root has no
parent. -/
def rightSibling (page : GistPage κ) (parentlsn : ℕ) : List SearchItem :=
  match page.rightlink with
  | none => []
  | some right =>
    if parentlsn ≠ 0 && (page.followRight || parentlsn < page.nsn) then [⟨right, parentlsn⟩] else []

/-- `gistScanPage`: the pages that are added to the queue, and the rows that are returned. -/
def gistScanPage (index : Index κ) (keys : List (ScanKey κ)) (pageItem : SearchItem) :
    Except GistError (List SearchItem × List (IndexTuple κ)) :=
  let page := index.page pageItem.blkno
  let right := rightSibling page pageItem.parentlsn
  if page.isDeleted then .ok (right, [])
  else
    (matching keys page.isLeaf page.tuples).map fun found =>
      if page.isLeaf then (right, found)
      else (right ++ found.map fun it => ⟨it.child, page.lsn⟩, [])

/-- The loop of `gistgetbitmap`, with the pages in the order of a stack. -/
def scanQueue (index : Index κ) (keys : List (ScanKey κ)) :
    ℕ → List SearchItem → Except GistError (List (IndexTuple κ))
  | 0, _ => .error (.fault .outOfFuel)
  | _ + 1, [] => .ok []
  | fuel + 1, item :: queue =>
    gistScanPage index keys item >>= fun result =>
      (scanQueue index keys fuel (result.1 ++ queue)).map fun rows => result.2 ++ rows

/-- `gistgetbitmap`: the rows whose pointers are put into the bitmap. -/
def gistgetbitmap (index : Index κ) (keys : List (ScanKey κ)) (fuel : ℕ) :
    Except GistError (List (IndexTuple κ)) :=
  scanQueue index keys fuel [⟨0, 0⟩]

/-- From a page the scan goes on to the page to the right, and to pages below. -/
def Leads (index : Index κ) (keys : List (ScanKey κ)) (item item' : SearchItem) : Prop :=
  item' ∈ rightSibling (index.page item.blkno) item.parentlsn ∨
    ∃ it ∈ (index.pages.page item.blkno).downs, testAll false it keys = .ok true ∧
      item' = ⟨it.child, (index.page item.blkno).lsn⟩

/-- A row on a leaf passes the test. -/
def Hits (index : Index κ) (keys : List (ScanKey κ)) (item : SearchItem) (row : IndexTuple κ) :
    Prop :=
  (index.page item.blkno).isLeaf = true ∧ row ∈ (index.page item.blkno).tuples ∧
    testAll true row keys = .ok true

/-! ### What scan keys are for -/

variable [∀ j, Preorder (κ j)]

/-- The consistent function does not fail, and accepts a downlink if it accepts a key that the
downlink covers. -/
def ScanKey.Lawful (valid : (j : Fin n) → κ j → Prop) : ScanKey κ → Prop
  | .searchNull _ => True
  | .searchNotNull _ => True
  | .operator attno consistent =>
    (∀ isLeaf k, valid attno k → ∃ b, consistent isLeaf k = .ok b) ∧
      ∀ k k', valid attno k → valid attno k' → k ≤ k' → consistent true k = .ok true →
        consistent false k' = .ok true

section Keytest

variable {valid : (j : Fin n) → κ j → Prop} {keys : List (ScanKey κ)} {row down : IndexTuple κ}

theorem ScanKey.Lawful.exists_test {key : ScanKey κ} (h : key.Lawful valid) (isLeaf : Bool)
    (hvalid : ValidKeys valid row.keys) : ∃ b, key.test isLeaf row = .ok b := by
  match key, h with
  | .searchNull _, _ => exact ⟨_, rfl⟩
  | .searchNotNull _, _ => exact ⟨_, rfl⟩
  | .operator attno consistent, h =>
    rw [ScanKey.test]
    cases hdatum : row.keys attno with
    | none => exact ⟨_, rfl⟩
    | some datum => exact h.1 isLeaf datum (hvalid attno datum hdatum)

/-- A downlink passes the test of a scan key if it covers a row that does. -/
theorem ScanKey.Lawful.test_of_le {key : ScanKey κ} (h : key.Lawful valid)
    (hrow : ValidKeys valid row.keys) (hdown : ValidKeys valid down.keys)
    (hle : row.keys ≤ down.keys) (htest : key.test true row = .ok true) :
    key.test false down = .ok true := by
  match key, h with
  | .searchNull _, _ => rfl
  | .searchNotNull attno, _ =>
    have hsome : (row.keys attno).isSome = true := Except.ok.inj htest
    obtain ⟨k, hk⟩ := Option.isSome_iff_exists.mp hsome
    obtain ⟨k', hk', -⟩ := KeyVector.le_iff.mp hle attno k hk
    simp [ScanKey.test, hk']
  | .operator attno consistent, h =>
    cases hk : row.keys attno with
    | none => simp [ScanKey.test, hk] at htest
    | some k =>
      obtain ⟨k', hk', hkle⟩ := KeyVector.le_iff.mp hle attno k hk
      rw [ScanKey.test, hk] at htest
      rw [ScanKey.test, hk']
      exact h.2 k k' (hrow attno k hk) (hdown attno k' hk') hkle htest

variable (hkeys : ∀ key ∈ keys, key.Lawful valid)

include hkeys

theorem exists_testAll (isLeaf : Bool) (hvalid : ValidKeys valid row.keys) :
    ∃ b, testAll isLeaf row keys = .ok b := by
  induction keys with
  | nil => exact ⟨true, rfl⟩
  | cons key keys ih =>
    obtain ⟨b, hb⟩ := (hkeys key List.mem_cons_self).exists_test isLeaf hvalid
    obtain ⟨b', hb'⟩ := ih fun key hkey => hkeys key (List.mem_cons_of_mem _ hkey)
    rw [testAll, hb]
    cases b with
    | false => exact ⟨false, rfl⟩
    | true => exact ⟨b', hb'⟩

/-- A downlink passes the test if it covers a row that does. -/
theorem testAll_of_le (hrow : ValidKeys valid row.keys) (hdown : ValidKeys valid down.keys)
    (hle : row.keys ≤ down.keys) (htest : testAll true row keys = .ok true) :
    testAll false down keys = .ok true := by
  induction keys with
  | nil => rfl
  | cons key keys ih =>
    obtain ⟨b, hb, hrest⟩ := bind_eq_ok_iff.mp htest
    cases b with
    | false => cases hrest
    | true =>
      have hkey := (hkeys key List.mem_cons_self).test_of_le hrow hdown hle hb
      rw [testAll, hkey]
      exact ih (fun key hkey => hkeys key (List.mem_cons_of_mem _ hkey)) hrest

end Keytest

/-! ### A page of a scan -/

section Scan

variable {giststate : GistState κ} {valid : (j : Fin n) → κ j → Prop}
  {kind : IndexKind giststate valid} {index : Index κ} {level rank : ℕ → ℕ}
  {keys : List (ScanKey κ)} {item : SearchItem}

theorem gistindexKeytest_of_good {isLeaf : Bool} {it : IndexTuple κ} (h : Good kind it) :
    gistindexKeytest isLeaf it keys = callSupport (testAll isLeaf it keys) :=
  if_neg h.not_invalid

variable (hkeys : ∀ key ∈ keys, key.Lawful valid)

include hkeys

theorem exists_matching (isLeaf : Bool) {tuples : List (IndexTuple κ)}
    (hgood : ∀ it ∈ tuples, Good kind it) : ∃ found, matching keys isLeaf tuples = .ok found ∧
      ∀ it, it ∈ found ↔ it ∈ tuples ∧ testAll isLeaf it keys = .ok true := by
  induction tuples with
  | nil => exact ⟨[], rfl, by simp⟩
  | cons it rest ih =>
    have hit := hgood it List.mem_cons_self
    obtain ⟨b, hb⟩ := exists_testAll hkeys isLeaf (kind.validKeys hit.keys)
    obtain ⟨found, hfound, hmem⟩ := ih fun it hit => hgood it (List.mem_cons_of_mem _ hit)
    refine ⟨if b then it :: found else found, ?_, fun t => ?_⟩
    · rw [matching, gistindexKeytest_of_good hit, hb, hfound]
      rfl
    · cases b with
      | false =>
        rw [if_neg (by decide), hmem, List.mem_cons]
        refine ⟨fun h => ⟨.inr h.1, h.2⟩, fun h => ⟨h.1.resolve_left ?_, h.2⟩⟩
        rintro rfl
        simp [hb] at h
      | true =>
        rw [if_pos rfl, List.mem_cons, hmem, List.mem_cons]
        constructor
        · rintro (rfl | h)
          · exact ⟨.inl rfl, hb⟩
          · exact ⟨.inr h.1, h.2⟩
        · exact fun h => h.1.imp_right fun hrest => ⟨hrest, h.2⟩

/-- A page of a scan. -/
theorem exists_gistScanPage (hs : index.Sound kind level rank) (item : SearchItem) :
    ∃ items found, gistScanPage index keys item = .ok (items, found) ∧
      (∀ item', item' ∈ items ↔ Leads index keys item item') ∧
      ∀ row, row ∈ found ↔ Hits index keys item row := by
  have hok := hs.ok item.blkno
  obtain ⟨found, hfound, hmem⟩ := exists_matching hkeys (index.page item.blkno).isLeaf hok.good
  rw [gistScanPage, hok.live, if_neg (by decide), hfound]
  unfold Leads Hits
  cases hleaf : (index.page item.blkno).isLeaf with
  | true =>
    rw [hleaf] at hmem
    refine ⟨_, _, rfl, fun item' => ?_, by simpa using hmem⟩
    simp [LinkedPage.downs, pages_page, GistPage.linked, hleaf]
  | false =>
    rw [hleaf] at hmem
    refine ⟨_, _, rfl, fun item' => ?_, by simp⟩
    rw [LinkedPage.downs_of_inner hleaf, List.mem_append, List.mem_map]
    refine or_congr_right (exists_congr fun it => ?_)
    rw [hmem, and_assoc, eq_comm (a := item')]
    rfl

omit hkeys in
/-- Each page makes way for pages on lower levels, or further to the right. -/
theorem Leads.lt (hs : index.Sound kind level rank) {item item' : SearchItem}
    (h : Leads index keys item item') : toLex (level item'.blkno, rank item'.blkno) <
      toLex (level item.blkno, rank item.blkno) := by
  rcases h with hright | ⟨it, hit, -, rfl⟩
  · have hnext : (index.pages.page item.blkno).next = some item'.blkno := by
      show (index.page item.blkno).rightlink = some item'.blkno
      unfold rightSibling at hright
      split at hright
      · cases hright
      · split_ifs at hright
        · rename_i right hlink _
          rw [List.mem_singleton.mp hright, hlink]
        · cases hright
    obtain ⟨-, -, hlevel, hrank⟩ := hs.pages.right hnext
    exact Prod.Lex.toLex_lt_toLex.mpr (.inr ⟨hlevel, hrank⟩)
  · have hlevel := (hs.pages.down hit).2.2
    exact Prod.Lex.toLex_lt_toLex.mpr (.inl (by dsimp only; omega))

/-! ### Whole scans -/

/-- From any queue the loop comes to an end, with the rows on all pages that it is led to. -/
theorem exists_scanQueue (hs : index.Sound kind level rank) (queue : List SearchItem) :
    ∃ fuel rows, scanQueue index keys fuel queue = .ok rows ∧ ∀ row, row ∈ rows ↔
      ∃ item ∈ queue, ∃ item', Relation.ReflTransGen (Leads index keys) item item' ∧
        Hits index keys item' row := by
  have hwf : WellFounded fun a b => Leads index keys b a :=
    Subrelation.wf (fun h => h.lt hs) (InvImage.wf
      (fun item : SearchItem => toLex (level item.blkno, rank item.blkno)) wellFounded_lt)
  induction hq : (queue : Multiset SearchItem) using hwf.cutExpand.induction generalizing queue with
  | _ heads ih =>
    subst hq
    cases queue with
    | nil => exact ⟨1, [], rfl, by simp⟩
    | cons item rest =>
      obtain ⟨items, found, hpage, hitems, hfound⟩ := exists_gistScanPage hkeys hs item
      have hcut : Relation.CutExpand (fun a b => Leads index keys b a)
          ((items ++ rest : List SearchItem) : Multiset SearchItem)
          (item :: rest : List SearchItem) := by
        refine ⟨(items : List SearchItem), item, fun item' hitem' =>
          (hitems item').mp (Multiset.mem_coe.mp hitem'), ?_⟩
        rw [← Multiset.coe_add, ← Multiset.cons_coe, ← Multiset.singleton_add]
        abel
      obtain ⟨fuel, rows, hrun, hrows⟩ := ih _ hcut _ rfl
      refine ⟨fuel + 1, found ++ rows, ?_, fun row => ?_⟩
      · rw [scanQueue, hpage]
        change (scanQueue index keys fuel (items ++ rest)).map _ = _
        rw [hrun]
        rfl
      · -- the rows of this page, and those of the pages that it leads to
        rw [List.mem_append, hfound, hrows]
        constructor
        · rintro (hhit | ⟨start, hstart, item', hpath, hhit⟩)
          · exact ⟨item, List.mem_cons_self, item, .refl, hhit⟩
          · rcases List.mem_append.mp hstart with hstart | hstart
            · exact ⟨item, List.mem_cons_self, item', .head ((hitems start).mp hstart) hpath, hhit⟩
            · exact ⟨start, List.mem_cons_of_mem _ hstart, item', hpath, hhit⟩
        · rintro ⟨start, hstart, item', hpath, hhit⟩
          rcases List.mem_cons.mp hstart with rfl | hstart
          · rcases hpath.cases_head with rfl | ⟨next, hnext, hpath⟩
            · exact .inl hhit
            · exact .inr ⟨next, List.mem_append_left _ ((hitems next).mpr hnext), item', hpath,
                hhit⟩
          · exact .inr ⟨start, List.mem_append_right _ hstart, item', hpath, hhit⟩

/-- A scan comes to an end, with the rows that pass the test. -/
theorem exists_gistgetbitmap (hs : index.Sound kind level rank) : ∃ fuel rows,
    gistgetbitmap index keys fuel = .ok rows ∧
      ∀ row, row ∈ rows ↔ index.pages.Row row ∧ testAll true row keys = .ok true := by
  obtain ⟨fuel, rows, hrun, hrows⟩ := exists_scanQueue hkeys hs [⟨0, 0⟩]
  refine ⟨fuel, rows, hrun, fun row => (hrows row).trans ⟨?_, ?_⟩⟩
  · rintro ⟨-, -, item, -, hleaf, hmem, htest⟩
    exact ⟨⟨item.blkno, hleaf, hmem⟩, htest⟩
  · rintro ⟨⟨b, hleaf, hmem⟩, htest⟩
    have hrow := kind.validKeys ((hs.ok b).good row hmem).keys
    -- the scan comes to every page with something above the row
    have hcomes : ∃ item, Relation.ReflTransGen (Leads index keys) ⟨0, 0⟩ item ∧ item.blkno = b ∧
        (item.parentlsn = 0 → b = 0) := by
      refine hs.pages.visits (fun b => ∃ item, Relation.ReflTransGen (Leads index keys) ⟨0, 0⟩
        item ∧ item.blkno = b ∧ (item.parentlsn = 0 → b = 0)) ⟨_, .refl, rfl, fun _ => rfl⟩ ?_ ?_
        hmem le_rfl
      · rintro _ t ⟨item, hpath, rfl, -⟩ ht hle
        have hok := hs.ok item.blkno
        have ht' := kind.validKeys (hok.good t (LinkedPage.mem_downs.mp ht).2).keys
        exact ⟨_, hpath.tail (.inr ⟨t, ht, testAll_of_le hkeys hrow ht' hle htest, rfl⟩), rfl,
          fun hzero => absurd hzero hok.lsn_pos.ne'⟩
      · rintro _ c ⟨item, hpath, rfl, hparent⟩ hpending hnext
        have hne : item.parentlsn ≠ 0 := by
          intro hzero
          rw [hparent hzero, hs.pages.root_pending] at hpending
          cases hpending
        replace hpending : (index.page item.blkno).followRight = true := hpending
        replace hnext : (index.page item.blkno).rightlink = some c := hnext
        exact ⟨⟨c, item.parentlsn⟩,
          hpath.tail (.inl (by simp [rightSibling, hnext, hne, hpending])), rfl, fun hzero =>
          absurd hzero hne⟩
    obtain ⟨item, hpath, rfl, -⟩ := hcomes
    exact ⟨_, List.mem_cons_self, item, hpath, hleaf, hmem, htest⟩

end Scan

end PgRange.Gist
