import PgRange.Gist.SplitByKey

/-!
# Splitting a page

`gistSplit` splits the tuples of a page in two, and each part again as long as it does not fit on a
page. It is recursive and relies on the split by the keys to make progress: what is passed on must
be less than what was there.

If it returns, then the pages hold the tuples of the old page, each of them fits, and each comes
with a downlink whose keys are the least ones that cover the page. It returns if every tuple fits on
a page by itself and three tuples with a NULL in the last column fit on a page together. Without the
second condition it may not: two or three tuples that are NULL in every column are passed on again
and again until the stack is exhausted.

## Main definitions

* `gistfitpage`, `gistSplit`, `SplitedPageLayout`
* `PagesOf` — what the pages of a split must be

## Main results

* `gistSplit_pagesOf` — the result of a split
* `exists_gistSplit` — when there is one
* `gistSplit_of_null` — and when there is none
-/

set_option autoImplicit false

namespace PgRange.Gist

open Math

variable {n : ℕ} {κ : Fin n → Type}

/-! ### The functions of the source -/

/-- `GiSTPageSize`: the bytes of a block without its header and the `GISTPageOpaqueData`. -/
def gistPageSize : ℕ := 8192 - 24 - 16

/-- The bytes that a tuple takes on a page, with its `ItemIdData`. -/
def IndexTuple.space (it : IndexTuple κ) : ℕ := it.size + 4

/-- `gistfitpage`. -/
def gistfitpage (itvec : List (IndexTuple κ)) : Bool :=
  (itvec.map IndexTuple.space).sum ≤ gistPageSize

/-- `SplitedPageLayout`: the tuples of a page and its downlink, which gets its block later. -/
structure SplitedPageLayout (κ : Fin n → Type) where
  list : List (IndexTuple κ)
  itup : IndexTuple κ

/-- A side of a split: a page, or several if it does not fit. -/
def splitSide (giststate : GistState κ)
    (split : List (IndexTuple κ) → Except GistError (List (SplitedPageLayout κ)))
    (vectup : List (IndexTuple κ)) (attr : KeyVector κ) :
    Except GistError (List (SplitedPageLayout κ)) :=
  if gistfitpage vectup then (gistFormTuple giststate attr).map fun itup => [⟨vectup, itup⟩]
  else split vectup

/-- `gistSplit`. The number is the depth of the stack that is left. -/
def gistSplit (giststate : GistState κ) :
    ℕ → List (IndexTuple κ) → Except GistError (List (SplitedPageLayout κ))
  | 0, _ => .error .stackDepth
  | _ + 1, [it] => .error (.indexRowSize it.size)
  | depth + 1, itup => do
    let v ← callSupport (gistSplitByKey giststate (List.finRange n) itup .initial)
    let right ← splitSide giststate (gistSplit giststate depth) (pickAt itup v.right) v.rattr
    let left ← splitSide giststate (gistSplit giststate depth) (pickAt itup v.left) v.lattr
    return left ++ right

/-! ### What the pages are -/

variable [∀ j, Preorder (κ j)] {giststate : GistState κ} {valid : (j : Fin n) → κ j → Prop}
  {itup : List (IndexTuple κ)} {pages : List (SplitedPageLayout κ)} {depth : ℕ}

/-- Pages that fit, with the tuples that were given, and downlinks that cover just them. -/
structure PagesOf (valid : (j : Fin n) → κ j → Prop) (itup : List (IndexTuple κ))
    (pages : List (SplitedPageLayout κ)) : Prop where
  perm : (pages.flatMap SplitedPageLayout.list).Perm itup
  fits : ∀ p ∈ pages, gistfitpage p.list = true
  valid : ∀ p ∈ pages, ValidKeys valid p.itup.keys
  unites : ∀ p ∈ pages, Unites p.list p.itup.keys

theorem PagesOf.append {itup' : List (IndexTuple κ)} {pages' : List (SplitedPageLayout κ)}
    (h : PagesOf valid itup pages) (h' : PagesOf valid itup' pages') :
    PagesOf valid (itup ++ itup') (pages ++ pages') where
  perm := by
    rw [List.flatMap_append]
    exact h.perm.append h'.perm
  fits p hp := (List.mem_append.mp hp).elim (h.fits p) (h'.fits p)
  valid p hp := (List.mem_append.mp hp).elim (h.valid p) (h'.valid p)
  unites p hp := (List.mem_append.mp hp).elim (h.unites p) (h'.unites p)

theorem PagesOf.of_perm {itup' : List (IndexTuple κ)} (h : PagesOf valid itup pages)
    (hperm : itup.Perm itup') : PagesOf valid itup' pages :=
  { h with perm := h.perm.trans hperm }

omit [∀ j, Preorder (κ j)] in
theorem gistFormTuple_keys {attr : KeyVector κ} {it : IndexTuple κ}
    (h : gistFormTuple giststate attr = .ok it) : it.keys = attr := by
  unfold gistFormTuple at h
  dsimp only at h
  split_ifs at h
  obtain rfl := Except.ok.inj h
  rfl

/-- A side of a split, if the recursive calls do what they should. -/
theorem splitSide_pagesOf
    {split : List (IndexTuple κ) → Except GistError (List (SplitedPageLayout κ))}
    {vectup : List (IndexTuple κ)} {attr : KeyVector κ} (hattr : ValidKeys valid attr)
    (hunites : Unites vectup attr)
    (hsplit : gistfitpage vectup = false → ∀ pages, split vectup = .ok pages →
      PagesOf valid vectup pages)
    (h : splitSide giststate split vectup attr = .ok pages) : PagesOf valid vectup pages := by
  unfold splitSide at h
  split_ifs at h with hfit
  · cases hform : gistFormTuple giststate attr with
    | error e =>
      rw [hform] at h
      cases h
    | ok it =>
      rw [hform] at h
      obtain rfl := Except.ok.inj h
      have hkeys := gistFormTuple_keys hform
      refine ⟨by simp, ?_, ?_, ?_⟩
      all_goals
        intro p hp
        obtain rfl := List.mem_singleton.mp hp
      · exact hfit
      · exact hkeys ▸ hattr
      · exact hkeys ▸ hunites
  · exact hsplit (by simpa using hfit) pages h

omit [∀ j, Preorder (κ j)] in
/-- What does not fit on a page is something. -/
theorem ne_nil_of_not_fit {vectup : List (IndexTuple κ)} (h : gistfitpage vectup = false) :
    vectup ≠ [] := by
  rintro rfl
  simp [gistfitpage] at h

omit [∀ j, Preorder (κ j)] in
/-- The calls of a split that is not refused: first the split by the keys, and then both sides. -/
theorem gistSplit_succ (htwo : 2 ≤ itup.length) :
    gistSplit giststate (depth + 1) itup =
      callSupport (gistSplitByKey giststate (List.finRange n) itup .initial) >>= fun v =>
      splitSide giststate (gistSplit giststate depth) (pickAt itup v.right) v.rattr >>= fun right =>
      splitSide giststate (gistSplit giststate depth) (pickAt itup v.left) v.lattr >>= fun left =>
      .ok (left ++ right) := by
  match itup, htwo with
  | _ :: _ :: _, _ => rfl

/-- The pages of a split. -/
theorem gistSplit_pagesOf (h : giststate.Lawful valid) (hn : 0 < n)
    (hvalid : ∀ it ∈ itup, ValidKeys valid it.keys) (hne : itup ≠ []) (hmax : itup.length < 65535)
    (hrun : gistSplit giststate depth itup = .ok pages) : PagesOf valid itup pages := by
  induction depth generalizing itup pages with
  | zero => cases hrun
  | succ depth ih =>
    have htwo : 2 ≤ itup.length := by
      match itup, hne, hrun with
      | [it], _, hrun => cases hrun
      | _ :: _ :: _, _, _ => simp
    obtain ⟨v, hv, hsplits, hlub, hrub⟩ := exists_gistSplitByKey h hn hvalid htwo hmax
    rw [gistSplit_succ htwo, hv] at hrun
    obtain ⟨w, hw, hrun⟩ := bind_eq_ok_iff.mp hrun
    obtain rfl := Except.ok.inj hw
    obtain ⟨right, hright, hrun⟩ := bind_eq_ok_iff.mp hrun
    obtain ⟨left, hleft, hrun⟩ := bind_eq_ok_iff.mp hrun
    obtain rfl := Except.ok.inj hrun
    have hperm := pickAt_perm hsplits.perm
    -- a part of the tuples
    have hpart : ∀ offs, (pickAt itup offs).length ≤ itup.length →
        gistfitpage (pickAt itup offs) = false → ∀ pages,
        gistSplit giststate depth (pickAt itup offs) = .ok pages →
          PagesOf valid (pickAt itup offs) pages := fun offs hle hfit pages hpages =>
      ih (fun it hit => hvalid it (mem_of_mem_pickAt hit)) (ne_nil_of_not_fit hfit) (by omega) hpages
    have hlength := hperm.length_eq
    rw [List.length_append] at hlength
    have hl := splitSide_pagesOf hsplits.lvalid hlub (hpart v.left (by omega)) hleft
    have hr := splitSide_pagesOf hsplits.rvalid hrub (hpart v.right (by omega)) hright
    exact (hl.append hr).of_perm hperm

/-! ### When there is a split -/

omit [∀ j, Preorder (κ j)] in
/-- The tuples are small enough to be split: each fits on a page, and three fit together if they are
NULL in the last column. -/
structure Splittable (it : IndexTuple κ) : Prop where
  fits : it.space ≤ gistPageSize
  few : ∀ j : Fin n, j.val + 1 = n → it.keys j = none → 3 * it.space ≤ gistPageSize

omit [∀ j, Preorder (κ j)] in
theorem two_le_of_not_fit {vectup : List (IndexTuple κ)} (hsmall : ∀ it ∈ vectup, Splittable it)
    (h : gistfitpage vectup = false) : 2 ≤ vectup.length := by
  match vectup, hsmall, h with
  | [], _, h => simp [gistfitpage] at h
  | [it], hsmall, h =>
    have hfits := (hsmall it (by simp)).fits
    simp [gistfitpage] at h
    omega
  | _ :: _ :: _, _, _ => simp

omit [∀ j, Preorder (κ j)] in
/-- Few tuples that are NULL in the last column fit. -/
theorem fit_of_few (hsmall : ∀ it ∈ itup, Splittable it) (hn : 0 < n)
    (hfew : FewLastNull (List.finRange n) itup) {vectup : List (IndexTuple κ)}
    (hperm : vectup.Perm itup) : gistfitpage vectup = true := by
  obtain ⟨hlen, j, hj, hnull⟩ := hfew
  have hlast : j.val + 1 = n := by
    rw [List.getLast?_eq_getElem?, List.length_finRange] at hj
    obtain ⟨-, rfl⟩ := List.getElem?_eq_some_iff.mp hj
    simp
    omega
  have hsum : (vectup.map IndexTuple.space).sum = (itup.map IndexTuple.space).sum :=
    (hperm.map _).sum_eq
  have hspace : ∀ it ∈ itup, 3 * it.space ≤ gistPageSize := fun it hit =>
    (hsmall it hit).few j hlast (hnull it hit)
  simp only [gistfitpage, decide_eq_true_eq, hsum]
  match itup, hlen, hspace with
  | [], _, _ => simp
  | [a], _, hspace =>
    have ha := hspace a (by simp)
    simp
    omega
  | [a, b], _, hspace =>
    have ha := hspace a (by simp)
    have hb := hspace b (by simp)
    simp
    omega
  | [a, b, c], _, hspace =>
    have ha := hspace a (by simp)
    have hb := hspace b (by simp)
    have hc := hspace c (by simp)
    simp
    omega

omit [∀ j, Preorder (κ j)] in
/-- A side of a split, if there are recursive calls that return. -/
theorem exists_splitSide {attr : KeyVector κ} (hform : giststate.formSize attr ≤ indexSizeMask)
    {split : List (IndexTuple κ) → Except GistError (List (SplitedPageLayout κ))}
    (vectup : List (IndexTuple κ))
    (hsplit : gistfitpage vectup = false → ∃ pages, split vectup = .ok pages) :
    ∃ pages, splitSide giststate split vectup attr = .ok pages := by
  unfold splitSide
  split_ifs with hfit
  · simp [gistFormTuple, hform, Except.map]
  · exact hsplit (by simpa using hfit)

/-- A page is split if its tuples are small enough, and the unions of some of them too. -/
theorem exists_gistSplit (h : giststate.Lawful valid) (hn : 0 < n)
    (hform : ∀ part keys, (∀ it ∈ part, it ∈ itup) → Unites part keys →
      giststate.formSize keys ≤ indexSizeMask)
    (hvalid : ∀ it ∈ itup, ValidKeys valid it.keys) (hsmall : ∀ it ∈ itup, Splittable it)
    (htwo : 2 ≤ itup.length) (hmax : itup.length < 65535) (hdepth : itup.length ≤ depth) :
    ∃ pages, gistSplit giststate depth itup = .ok pages := by
  induction depth generalizing itup with
  | zero => omega
  | succ depth ih =>
    obtain ⟨v, hv, hsplits, hlunites, hrunites⟩ := exists_gistSplitByKey h hn hvalid htwo hmax
    have hperm := pickAt_perm hsplits.perm
    have hlength := hperm.length_eq
    rw [List.length_append] at hlength
    have hoffs : ∀ off ∈ v.left ++ v.right, 1 ≤ off ∧ off ≤ itup.length := by
      intro off hoff
      have := List.mem_range'_1.mp (hsplits.perm.mem_iff.mp hoff)
      omega
    -- a part that is smaller is split
    have hpart : ∀ offs, (pickAt itup offs).length < itup.length →
        gistfitpage (pickAt itup offs) = false →
        ∃ pages, gistSplit giststate depth (pickAt itup offs) = .ok pages := by
      intro offs hlt hfit
      have hsmall' : ∀ it ∈ pickAt itup offs, Splittable it := fun it hit =>
        hsmall it (mem_of_mem_pickAt hit)
      exact ih (fun part keys hpart => hform part keys fun it hit =>
          mem_of_mem_pickAt (hpart it hit))
        (fun it hit => hvalid it (mem_of_mem_pickAt hit)) hsmall'
        (two_le_of_not_fit hsmall' hfit) (by omega) (by omega)
    have hpos : ∀ {offs}, (∀ off ∈ offs, off ∈ v.left ++ v.right) → offs ≠ [] →
        0 < (pickAt itup offs).length := fun hsub hne =>
      List.length_pos_iff.mpr (pickAt_ne_nil (fun off hoff => hoffs off (hsub off hoff)) hne)
    have hlpos := hpos (fun _ => List.mem_append_left _) hsplits.left_ne
    obtain ⟨right, hright⟩ := exists_splitSide
      (hform _ _ (fun it => mem_of_mem_pickAt) hrunites) _ (hpart v.right (by omega))
    have hleft : ∃ left, splitSide giststate (gistSplit giststate depth) (pickAt itup v.left)
        v.lattr = .ok left := by
      refine exists_splitSide (hform _ _ (fun it => mem_of_mem_pickAt) hlunites) _ fun hfit => ?_
      -- a few tuples may all be on the left, but then they fit
      have hne : v.right ≠ [] := by
        refine fun hnil => hsplits.right_ne (fun hfew => ?_) hnil
        rw [hnil, pickAt_nil, List.append_nil] at hperm
        rw [fit_of_few hsmall hn hfew hperm] at hfit
        cases hfit
      have hrpos := hpos (fun _ => List.mem_append_right _) hne
      exact hpart v.left (by omega) hfit
    obtain ⟨left, hleft⟩ := hleft
    refine ⟨left ++ right, ?_⟩
    rw [gistSplit_succ htwo, hv]
    simp [callSupport, Except.mapError, hright, hleft, bind, Except.bind]

/-! ### When there is none -/

omit [∀ j, Preorder (κ j)] in
theorem columnKeys_of_null (hnull : ∀ it ∈ itup, it.keys = .missing) (j : Fin n) :
    columnKeys itup j = [] := by
  rw [columnKeys, List.filterMap_eq_nil_iff]
  intro it hit
  rw [hnull it hit]
  rfl

omit [∀ j, Preorder (κ j)] in
/-- The union of tuples without a key needs no support function. -/
theorem gistMakeUnionItVec_of_null (hnull : ∀ it ∈ itup, it.keys = .missing) :
    gistMakeUnionItVec giststate itup = .ok .missing := by
  refine sequence_eq_ok_iff.mpr fun j => ?_
  rw [columnKeys_of_null hnull j]
  rfl

omit [∀ j, Preorder (κ j)] in
/-- Two or three tuples that are NULL in every column all stay on the left. -/
theorem gistSplitByKey_of_null (giststate : GistState κ)
    (hnull : ∀ it ∈ itup, it.keys = .missing) (htwo : 2 ≤ itup.length)
    (hthree : itup.length ≤ 3) {cols : List (Fin n)} (hcols : cols ≠ []) {v : GistSplitVector κ}
    (hv : v.rattr = .missing) :
    ∃ v', gistSplitByKey giststate cols itup v = .ok v' ∧
      v'.left = List.range' 1 itup.length ∧ v'.right = [] ∧ v'.rattr = .missing := by
  induction cols generalizing v with
  | nil => exact absurd rfl hcols
  | cons j cols ih =>
    -- this column is skipped
    have hset : v.rattr.set j none = .missing := by
      rw [hv]
      exact Function.update_eq_self j _
    have hcolumn : ∃ v', splitColumn giststate (gistSplitByKey giststate cols) j cols itup v =
        .ok v' ∧ v'.left = List.range' 1 itup.length ∧ v'.right = [] ∧ v'.rattr = .missing := by
      unfold splitColumn
      dsimp only
      rw [columnKeys_of_null hnull j, List.length_nil, if_pos rfl]
      by_cases hlast : cols = []
      · rw [if_pos hlast]
        have hhalf : itup.length / 2 = 1 := by omega
        refine ⟨_, rfl, List.filter_eq_self.mpr ?_, List.filter_eq_nil_iff.mpr ?_, hset⟩
        all_goals
          intro i hi
          rw [List.mem_range'_1] at hi
          simp [hhalf]
          omega
      · rw [if_neg hlast]
        exact ih hlast hset
    obtain ⟨v', hv', hleft, hright, hrattr⟩ := hcolumn
    rw [gistSplitByKey, hv']
    change ∃ v'', recomputeUnions giststate j itup v' = .ok v'' ∧ _
    unfold recomputeUnions
    split_ifs
    · have hpick : ∀ offs, ∀ it ∈ pickAt itup offs, it.keys = .missing := fun offs it hit =>
        hnull it (mem_of_mem_pickAt hit)
      refine ⟨{ v' with dontcare := none, lattr := .missing, rattr := .missing }, ?_, hleft, hright,
        rfl⟩
      simp [gistunionsubkey, gistunionsubkeyvec, gistMakeUnionItVec_of_null (hpick _), bind,
        Except.bind, pure, Except.pure]
    · exact ⟨v', rfl, hleft, hright, hrattr⟩

omit [∀ j, Preorder (κ j)] in
/-- So a page of two or three tuples that are NULL in every column, and too big for one page because
of the included columns, is never split: the recursion goes on until the stack is exhausted. -/
theorem gistSplit_of_null (hn : 0 < n) (hform : giststate.formSize .missing ≤ indexSizeMask)
    (hnull : ∀ it ∈ itup, it.keys = .missing) (htwo : 2 ≤ itup.length) (hthree : itup.length ≤ 3)
    (hfit : gistfitpage itup = false) (depth : ℕ) :
    gistSplit giststate depth itup = .error .stackDepth := by
  have hcols : List.finRange n ≠ [] := by
    rw [← List.length_pos_iff, List.length_finRange]
    exact hn
  obtain ⟨v, hv, hleft, hright, hrattr⟩ := gistSplitByKey_of_null giststate hnull htwo hthree hcols
    (rfl : (GistSplitVector.initial : GistSplitVector κ).rattr = .missing)
  induction depth with
  | zero => rfl
  | succ depth ih =>
    have hnothing : ∃ right, splitSide giststate (gistSplit giststate depth) (pickAt itup v.right)
        v.rattr = .ok right :=
      exists_splitSide (hrattr ▸ hform) _ fun hnot => by simp [hright, gistfitpage] at hnot
    obtain ⟨right, hrun⟩ := hnothing
    have hagain : splitSide giststate (gistSplit giststate depth) (pickAt itup v.left) v.lattr =
        .error .stackDepth := by
      rw [hleft, pickAt_range', splitSide, if_neg (by simp [hfit])]
      exact ih
    rw [gistSplit_succ htwo, hv]
    simp [callSupport, Except.mapError, hrun, hagain, bind, Except.bind]

end PgRange.Gist
