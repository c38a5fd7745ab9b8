import Mathlib.Data.List.TakeWhile
import PgRange.Math.SortBy

/-!
# Sweeping over intervals from one side

Things with two keys, such as the two ends of an interval, are held in two lists: one sorted by
the first key and one by the second. A sweep stops at the different first keys but the smallest,
in ascending order. At a stop it knows the furthest second key of the things it has passed, and
how many things are still ahead in each of the two lists. The lists are read once, by two
cursors that are moved forward together.

Read backwards, with the keys exchanged, the same sweep comes from the other side. So the tests
that it makes are parameters, and `SweepTests.Decides` ties them to an order.

## Main results

* `sweep_eq_foldl` — the stops do not depend on what is done at them
* `SweepInv.step` — what one stop preserves
* `sweepStops_spec` — the stops of a whole sweep
-/

set_option autoImplicit false

namespace PgRange.Math

variable {β γ σ : Type*}

/-! ### Definitions -/

/-- The tests of a sweep: whether two first keys are level, and whether a second key lies beyond
or within the furthest one so far. -/
structure SweepTests (β : Type*) where
  level : β → β → Bool
  beyond : β → β → Bool
  within : β → β → Bool

/-- The tests decide a three-way comparison. -/
structure SweepTests.Decides (t : SweepTests β) (cmp : β → β → Ordering) : Prop where
  level_iff : ∀ {a b}, t.level a b = true ↔ cmp a b = .eq
  beyond_iff : ∀ {a b}, t.beyond a b = true ↔ cmp a b = .gt
  within_iff : ∀ {a b}, t.within a b = true ↔ (cmp a b).isLE = true

/-- A stop of a sweep: the first key that is reached, the furthest second key passed before it,
and how much of each list is still ahead. -/
structure SweepStop (β : Type*) where
  key : β
  aheadLo : ℕ
  reach : β
  aheadHi : ℕ

section Defs

variable (t : SweepTests β) (lo hi : γ → β)

/-- Pass all things with first key `key` and keep track of the furthest second key. -/
def passLevel (key : β) : β → List γ → β × List γ
  | reach, [] => (reach, [])
  | reach, x :: rest =>
    if t.level key (lo x) then
      passLevel key (if t.beyond (hi x) reach then hi x else reach) rest
    else (reach, x :: rest)

/-- The sweep: pass what is level, stop at the next first key if there is one, and go on. -/
def sweep (visit : σ → SweepStop β → σ) : ℕ → β → β → List γ → List γ → σ → σ
  | 0, _, _, _, _, s => s
  | fuel + 1, key, reach, byLo, byHi, s =>
    match passLevel t lo hi key reach byLo with
    | (_, []) => s
    | (reach, x :: byLo) =>
      let byHi := byHi.dropWhile fun y => t.within (hi y) reach
      sweep visit fuel (lo x) reach (x :: byLo) byHi
        (visit s ⟨lo x, (x :: byLo).length, reach, byHi.length⟩)

/-- The stops of the sweep. -/
def sweepStops : ℕ → β → β → List γ → List γ → List (SweepStop β)
  | 0, _, _, _, _ => []
  | fuel + 1, key, reach, byLo, byHi =>
    match passLevel t lo hi key reach byLo with
    | (_, []) => []
    | (reach, x :: byLo) =>
      let byHi := byHi.dropWhile fun y => t.within (hi y) reach
      ⟨lo x, (x :: byLo).length, reach, byHi.length⟩ ::
        sweepStops fuel (lo x) reach (x :: byLo) byHi

/-- Where a sweep stops does not depend on what is done at the stops. -/
theorem sweep_eq_foldl (visit : σ → SweepStop β → σ) (fuel : ℕ) (key reach : β)
    (byLo byHi : List γ) (s : σ) :
    sweep t lo hi visit fuel key reach byLo byHi s =
      (sweepStops t lo hi fuel key reach byLo byHi).foldl visit s := by
  induction fuel generalizing key reach byLo byHi s with
  | zero => rfl
  | succ fuel ih =>
    rw [sweep, sweepStops]
    split
    · rfl
    · rw [List.foldl_cons]
      exact ih ..

end Defs

/-! ### One stop -/

section Step

variable {t : SweepTests β} {lo hi : γ → β} {cmp : β → β → Ordering} [Std.TransCmp cmp]

/-- Keeping the further one of two second keys. -/
theorem isLE_further (ht : t.Decides cmp) (b reach : β) :
    (cmp reach (if t.beyond b reach then b else reach)).isLE ∧
      (cmp b (if t.beyond b reach then b else reach)).isLE := by
  split_ifs with hbeyond
  · have hgt := ht.beyond_iff.mp hbeyond
    exact ⟨isLE_of_lt (Std.OrientedCmp.lt_of_gt hgt), Std.ReflCmp.isLE_rfl⟩
  · exact ⟨Std.ReflCmp.isLE_rfl,
      Ordering.isLE_iff_ne_gt.mpr fun hgt => hbeyond (ht.beyond_iff.mpr hgt)⟩

/-- The furthest second key after some things are passed: at or beyond where it was and beyond
each of them, and no further than it has to be. -/
theorem passLevel_spec (lo hi : γ → β) (ht : t.Decides cmp) (key reach : β) (l : List γ) :
    ∃ passed, l = passed ++ (passLevel t lo hi key reach l).2 ∧
      (∀ x ∈ passed, cmp key (lo x) = .eq) ∧
      (∀ x rest, (passLevel t lo hi key reach l).2 = x :: rest → cmp key (lo x) ≠ .eq) ∧
      (cmp reach (passLevel t lo hi key reach l).1).isLE ∧
      (∀ x ∈ passed, (cmp (hi x) (passLevel t lo hi key reach l).1).isLE) ∧
      ((passLevel t lo hi key reach l).1 = reach ∨
        ∃ x ∈ passed, (passLevel t lo hi key reach l).1 = hi x) := by
  induction l generalizing reach with
  | nil => exact ⟨[], rfl, by simp, by simp [passLevel], Std.ReflCmp.isLE_rfl, by simp, Or.inl rfl⟩
  | cons x rest ih =>
    by_cases hlevel : t.level key (lo x) = true
    · rw [passLevel, if_pos hlevel]
      obtain ⟨passed, hl, hkey, hnext, hreach, hpassed, hhow⟩ :=
        ih (if t.beyond (hi x) reach then hi x else reach)
      have hstep := isLE_further ht (hi x) reach
      refine ⟨x :: passed, ?_, ?_, hnext, Std.TransCmp.isLE_trans hstep.1 hreach, ?_, ?_⟩
      · rw [List.cons_append, ← hl]
      · rintro y (_ | ⟨_, hy⟩)
        · exact ht.level_iff.mp hlevel
        · exact hkey y hy
      · rintro y (_ | ⟨_, hy⟩)
        · exact Std.TransCmp.isLE_trans hstep.2 hreach
        · exact hpassed y hy
      · rcases hhow with heq | ⟨y, hy, heq⟩
        · rw [heq]
          split_ifs
          · exact Or.inr ⟨x, List.mem_cons_self, rfl⟩
          · exact Or.inl rfl
        · exact Or.inr ⟨y, List.mem_cons_of_mem x hy, heq⟩
    · rw [passLevel, if_neg hlevel]
      rw [ht.level_iff] at hlevel
      refine ⟨[], rfl, by simp, ?_, Std.ReflCmp.isLE_rfl, by simp, Or.inl rfl⟩
      rintro y rest' ⟨⟩
      exact hlevel

/-- What holds when a sweep is at a first key: the things before it are passed, some thing has
it, and no second key beyond the furthest is passed in the other list. Before anything is passed,
no second key is before the furthest. -/
structure SweepInv (cmp : β → β → Ordering) (lo hi : γ → β) (passedLo byLo passedHi byHi : List γ)
    (key reach : β) : Prop where
  sortedLo : (passedLo ++ byLo).Pairwise fun x y => (cmp (lo x) (lo y)).isLE
  sortedHi : (passedHi ++ byHi).Pairwise fun x y => (cmp (hi x) (hi y)).isLE
  before : ∀ x ∈ passedLo, cmp (lo x) key = .lt
  here : ∃ x rest, byLo = x :: rest ∧ lo x = key
  passedLo_isLE : ∀ x ∈ passedLo, (cmp (hi x) reach).isLE
  passedHi_isLE : ∀ x ∈ passedHi, (cmp (hi x) reach).isLE
  reached : (passedLo = [] ∧ ∀ x ∈ byLo, (cmp reach (hi x)).isLE) ∨
    ∃ x ∈ passedLo, cmp (hi x) reach = .eq

/-- The head of a sorted list is at or before all of it. -/
theorem head_isLE {f : γ → β} {x y : γ} {rest : List γ}
    (hsorted : (x :: rest).Pairwise fun x y => (cmp (f x) (f y)).isLE) (hy : y ∈ x :: rest) :
    (cmp (f x) (f y)).isLE := by
  rcases List.mem_cons.mp hy with rfl | hy
  · exact Std.ReflCmp.isLE_rfl
  · exact (List.pairwise_cons.mp hsorted).1 y hy

variable {passedLo byLo passedHi byHi : List γ} {key reach : β}

theorem SweepInv.key_isLE (h : SweepInv cmp lo hi passedLo byLo passedHi byHi key reach) {y : γ}
    (hy : y ∈ byLo) : (cmp key (lo y)).isLE := by
  obtain ⟨x, rest, rfl, rfl⟩ := h.here
  exact head_isLE (List.pairwise_append.mp h.sortedLo).2.1 hy

/-- If the first of what is left is not level with the key, all of it is beyond the key. -/
theorem SweepInv.lt_of_rest (h : SweepInv cmp lo hi passedLo byLo passedHi byHi key reach)
    {level rest : List γ} (hsplit : byLo = level ++ rest)
    (hnext : ∀ x rest', rest = x :: rest' → cmp key (lo x) ≠ .eq) {y : γ} (hy : y ∈ rest) :
    cmp key (lo y) = .lt := by
  have hsorted := (List.pairwise_append.mp h.sortedLo).2.1
  cases rest with
  | nil => simp at hy
  | cons z zs =>
    have hz : (cmp key (lo z)).isLE := h.key_isLE (by simp [hsplit])
    have hlt : cmp key (lo z) = .lt :=
      (Ordering.isLE_iff_eq_lt_or_eq_eq.mp hz).resolve_right (hnext z zs rfl)
    rw [hsplit, List.pairwise_append] at hsorted
    exact Std.TransCmp.lt_of_lt_of_isLE hlt (head_isLE hsorted.2.1 hy)

/-- Passing what is level leaves nothing at the key, and then some thing has the furthest second
key. -/
theorem SweepInv.pass (ht : t.Decides cmp)
    (h : SweepInv cmp lo hi passedLo byLo passedHi byHi key reach) :
    ∃ level, level ≠ [] ∧ byLo = level ++ (passLevel t lo hi key reach byLo).2 ∧
      (∀ x ∈ level, cmp key (lo x) = .eq) ∧
      (∀ x ∈ (passLevel t lo hi key reach byLo).2, cmp key (lo x) = .lt) ∧
      (cmp reach (passLevel t lo hi key reach byLo).1).isLE ∧
      (∀ x ∈ passedLo ++ level, (cmp (hi x) (passLevel t lo hi key reach byLo).1).isLE) ∧
      ∃ x ∈ passedLo ++ level, cmp (hi x) (passLevel t lo hi key reach byLo).1 = .eq := by
  obtain ⟨level, hsplit, hlevel, hnext, hmono, hle, hhow⟩ :=
    passLevel_spec lo hi ht key reach byLo
  obtain ⟨x, rest, hbyLo, hx⟩ := h.here
  have hne : level ≠ [] := by
    rintro rfl
    rw [List.nil_append] at hsplit
    refine hnext x rest (hsplit.symm.trans hbyLo) ?_
    rw [hx]
    exact Std.ReflCmp.compare_self
  refine ⟨level, hne, hsplit, hlevel, fun y => h.lt_of_rest hsplit hnext, hmono, ?_, ?_⟩
  · intro y hy
    rcases List.mem_append.mp hy with hy | hy
    · exact Std.TransCmp.isLE_trans (h.passedLo_isLE y hy) hmono
    · exact hle y hy
  · rcases hhow with heq | ⟨y, hy, heq⟩
    · rw [heq]
      rcases h.reached with ⟨rfl, hfirst⟩ | ⟨y, hy, hreach⟩
      · -- nothing was passed before, and the furthest key has not moved
        obtain ⟨y, hy⟩ := List.exists_mem_of_ne_nil level hne
        have hyl : y ∈ byLo := hsplit ▸ List.mem_append_left _ hy
        refine ⟨y, List.mem_append_right _ hy, ?_⟩
        exact Std.OrientedCmp.isLE_antisymm (heq ▸ hle y hy) (hfirst y hyl)
      · exact ⟨y, List.mem_append_left _ hy, hreach⟩
    · refine ⟨y, List.mem_append_right _ hy, ?_⟩
      rw [heq]
      exact Std.ReflCmp.compare_self

/-- The second list is read up to the furthest second key. -/
theorem dropWhile_within (ht : t.Decides cmp) {l : List γ}
    (hsorted : l.Pairwise fun x y => (cmp (hi x) (hi y)).isLE) (reach : β) :
    ∃ within, l = within ++ l.dropWhile (fun y => t.within (hi y) reach) ∧
      (∀ x ∈ within, (cmp (hi x) reach).isLE) ∧
      ∀ x ∈ l.dropWhile (fun y => t.within (hi y) reach), ¬ (cmp (hi x) reach).isLE := by
  refine ⟨l.takeWhile fun y => t.within (hi y) reach, List.takeWhile_append_dropWhile.symm, ?_, ?_⟩
  · intro x hx
    have hin := List.mem_takeWhile_imp hx
    exact ht.within_iff.mp hin
  · intro x hx
    have hsorted' := hsorted.sublist (List.dropWhile_sublist fun y => t.within (hi y) reach)
    cases hrest : l.dropWhile (fun y => t.within (hi y) reach) with
    | nil => simp [hrest] at hx
    | cons z zs =>
      have hz : ¬ (cmp (hi z) reach).isLE := by
        rw [← ht.within_iff]
        have hnot := List.head_dropWhile_not (fun y => t.within (hi y) reach)
          (show l.dropWhile (fun y => t.within (hi y) reach) ≠ [] by simp [hrest])
        simpa [hrest] using hnot
      rw [hrest] at hx hsorted'
      exact fun hxle => hz (Std.TransCmp.isLE_trans (head_isLE hsorted' hx) hxle)

/-- What one stop preserves: at the next first key the same holds again. -/
theorem SweepInv.step (ht : t.Decides cmp)
    (h : SweepInv cmp lo hi passedLo byLo passedHi byHi key reach) {reach' : β} {x : γ}
    {rest : List γ} (hpass : passLevel t lo hi key reach byLo = (reach', x :: rest)) :
    ∃ level within, level ≠ [] ∧ byLo = level ++ x :: rest ∧
      byHi = within ++ byHi.dropWhile (fun y => t.within (hi y) reach') ∧
      cmp key (lo x) = .lt ∧ (∀ y ∈ level, cmp key (lo y) = .eq) ∧
      (∀ y ∈ byHi.dropWhile (fun y => t.within (hi y) reach'), ¬ (cmp (hi y) reach').isLE) ∧
      (∃ y ∈ passedLo ++ level, cmp (hi y) reach' = .eq) ∧
      SweepInv cmp lo hi (passedLo ++ level) (x :: rest) (passedHi ++ within)
        (byHi.dropWhile fun y => t.within (hi y) reach') (lo x) reach' := by
  obtain ⟨level, hne, hsplit, hlevel, hbeyond, hmono, hle, hreached⟩ := h.pass ht
  rw [hpass] at hsplit hbeyond hmono hle hreached
  obtain ⟨within, hwithin, hin, hout⟩ :=
    dropWhile_within ht (List.pairwise_append.mp h.sortedHi).2.1 reach'
  have hx : cmp key (lo x) = .lt := hbeyond x List.mem_cons_self
  refine ⟨level, within, hne, hsplit, hwithin, hx, hlevel, hout, hreached, ?_⟩
  refine ⟨?_, ?_, ?_, ⟨x, rest, rfl, rfl⟩, hle, ?_, Or.inr hreached⟩
  · rw [List.append_assoc, ← hsplit]
    exact h.sortedLo
  · rw [List.append_assoc, ← hwithin]
    exact h.sortedHi
  · intro y hy
    rcases List.mem_append.mp hy with hy | hy
    · exact Std.TransCmp.lt_trans (h.before y hy) hx
    · exact Std.TransCmp.lt_of_eq_of_lt (Std.OrientedCmp.eq_symm (hlevel y hy)) hx
  · intro y hy
    rcases List.mem_append.mp hy with hy | hy
    · exact Std.TransCmp.isLE_trans (h.passedHi_isLE y hy) hmono
    · exact hin y hy

end Step

/-! ### The whole sweep -/

/-- What is known at a stop of a sweep over `xs`: it is the first key of something and not the
smallest one, the furthest second key is that of the things before it, and the counts are those
of the things not before the key and of those beyond the furthest second key. -/
structure SweepStop.Spec (cmp : β → β → Ordering) (lo hi : γ → β) (xs : List γ)
    (stop : SweepStop β) : Prop where
  isKey : ∃ x ∈ xs, lo x = stop.key
  notFirst : ∃ x ∈ xs, cmp (lo x) stop.key = .lt ∧ cmp (hi x) stop.reach = .eq
  furthest : ∀ x ∈ xs, cmp (lo x) stop.key = .lt → (cmp (hi x) stop.reach).isLE
  countLo : xs.countP (fun x => (cmp (lo x) stop.key).isLT) + stop.aheadLo = xs.length
  countHi : xs.countP (fun x => (cmp (hi x) stop.reach).isLE) + stop.aheadHi = xs.length

section Whole

variable {t : SweepTests β} {lo hi : γ → β} {cmp : β → β → Ordering} [Std.TransCmp cmp]
  {passedLo byLo passedHi byHi : List γ} {key reach : β}

omit [Std.TransCmp cmp] in
theorem countP_split {p : γ → Bool} {l l' : List γ} (hl : ∀ x ∈ l, p x = true)
    (hl' : ∀ x ∈ l', p x = false) : (l ++ l').countP p + l'.length = (l ++ l').length := by
  have h1 : l.countP p = l.length := List.countP_eq_length.mpr hl
  have h2 : l'.countP p = 0 := List.countP_eq_zero.mpr fun x hx => by simp [hl' x hx]
  rw [List.countP_append, List.length_append, h1, h2, Nat.add_zero]

omit [Std.TransCmp cmp] in
/-- What is not counted is what the opposite test counts. -/
theorem eq_countP_of_not {p p' : γ → Bool} {l : List γ} {ahead : ℕ}
    (hcount : l.countP p + ahead = l.length) (hnot : ∀ x, p' x = !p x) :
    ahead = l.countP p' := by
  have hp' : p' = fun x => decide ¬ p x = true := by
    funext x
    rw [hnot x]
    cases p x <;> rfl
  have hall := List.length_eq_countP_add_countP p (l := l)
  rw [← hp'] at hall
  omega

/-- At a key that the invariant holds for, and after the second list is read, all of
`SweepStop.Spec` holds. -/
theorem SweepInv.spec {xs : List γ}
    (h : SweepInv cmp lo hi passedLo byLo passedHi byHi key reach)
    (hlo : (passedLo ++ byLo).Perm xs) (hhi : (passedHi ++ byHi).Perm xs)
    (hahead : ∀ y ∈ byHi, ¬ (cmp (hi y) reach).isLE)
    (hreached : ∃ x ∈ passedLo, cmp (hi x) reach = .eq) :
    SweepStop.Spec cmp lo hi xs ⟨key, byLo.length, reach, byHi.length⟩ := by
  obtain ⟨x, rest, hbyLo, hx⟩ := h.here
  have hnot : ∀ y ∈ byLo, (cmp (lo y) key).isLT = false := by
    intro y hy
    rw [isLT_eq_not_isLE, h.key_isLE hy]
    rfl
  refine ⟨?_, ?_, ?_, ?_, ?_⟩
  · exact ⟨x, hlo.mem_iff.mp (List.mem_append_right _ (hbyLo ▸ List.mem_cons_self)), hx⟩
  · obtain ⟨y, hy, hyreach⟩ := hreached
    exact ⟨y, hlo.mem_iff.mp (List.mem_append_left _ hy), h.before y hy, hyreach⟩
  · intro y hy hlt
    rcases List.mem_append.mp (hlo.mem_iff.mpr hy) with hy | hy
    · exact h.passedLo_isLE y hy
    · have := hnot y hy
      simp [hlt] at this
  · rw [← hlo.countP_eq, ← hlo.length_eq]
    exact countP_split (fun y hy => by simp [h.before y hy]) hnot
  · rw [← hhi.countP_eq, ← hhi.length_eq]
    exact countP_split h.passedHi_isLE fun y hy => by simpa using hahead y hy

/-- The stops from a key on: each is as specified, they ascend from the key, and no first key
beyond it is left out. -/
theorem SweepInv.stops (ht : t.Decides cmp) {xs : List γ} (fuel : ℕ)
    (h : SweepInv cmp lo hi passedLo byLo passedHi byHi key reach)
    (hlo : (passedLo ++ byLo).Perm xs) (hhi : (passedHi ++ byHi).Perm xs)
    (hfuel : byLo.length ≤ fuel) :
    (∀ stop ∈ sweepStops t lo hi fuel key reach byLo byHi,
      cmp key stop.key = .lt ∧ stop.Spec cmp lo hi xs) ∧
    (sweepStops t lo hi fuel key reach byLo byHi).Pairwise
      (fun stop stop' => cmp stop.key stop'.key = .lt) ∧
    ∀ x ∈ byLo, cmp key (lo x) = .lt →
      ∃ stop ∈ sweepStops t lo hi fuel key reach byLo byHi, cmp stop.key (lo x) = .eq := by
  induction fuel generalizing passedLo byLo passedHi byHi key reach with
  | zero =>
    obtain ⟨x, rest, rfl, -⟩ := h.here
    simp at hfuel
  | succ fuel ih =>
    rw [sweepStops]
    split
    · -- everything left is level with the key
      next reach' hpass =>
      obtain ⟨level, -, hsplit, hlevel, -⟩ := h.pass ht
      rw [hpass, List.append_nil] at hsplit
      refine ⟨by simp, List.Pairwise.nil, fun x hx hlt => ?_⟩
      have heq := hlevel x (hsplit ▸ hx)
      simp [heq] at hlt
    · next reach' x rest hpass =>
      obtain ⟨level, within, hne, hsplit, hwithin, hx, hlevel, hout, hreached, hinv⟩ :=
        h.step ht hpass
      have hlo' : (passedLo ++ level ++ x :: rest).Perm xs := by
        rwa [List.append_assoc, ← hsplit]
      have hhi' : (passedHi ++ within ++
          byHi.dropWhile fun y => t.within (hi y) reach').Perm xs := by
        rwa [List.append_assoc, ← hwithin]
      have hlen : (x :: rest).length ≤ fuel := by
        have hpos := List.length_pos_iff.mpr hne
        rw [hsplit, List.length_append] at hfuel
        omega
      obtain ⟨hspec, hasc, hall⟩ := ih hinv hlo' hhi' hlen
      refine ⟨?_, ?_, ?_⟩
      · intro stop hstop
        rcases List.mem_cons.mp hstop with rfl | hstop
        · exact ⟨hx, hinv.spec hlo' hhi' hout hreached⟩
        · exact ⟨Std.TransCmp.lt_trans hx (hspec stop hstop).1, (hspec stop hstop).2⟩
      · exact List.pairwise_cons.mpr ⟨fun stop hstop => (hspec stop hstop).1, hasc⟩
      · intro y hy hlt
        rw [hsplit] at hy
        rcases List.mem_append.mp hy with hy | hy
        · have heq := hlevel y hy
          simp [heq] at hlt
        · -- this stop is at its key, or a later one is
          rcases Ordering.isLE_iff_eq_lt_or_eq_eq.mp (hinv.key_isLE hy) with hlt' | heq
          · obtain ⟨stop, hstop, heq⟩ := hall y hy hlt'
            exact ⟨stop, List.mem_cons_of_mem _ hstop, heq⟩
          · exact ⟨_, List.mem_cons_self, heq⟩

/-- The stops of a whole sweep: the different first keys but the smallest, in ascending order,
each with what `SweepStop.Spec` says. The furthest second key starts before all second keys. -/
theorem sweepStops_spec (ht : t.Decides cmp) {xs : List γ} {x : γ} {rest : List γ}
    (hlo : IsSortOf (fun x y => cmp (lo x) (lo y)) (x :: rest) xs)
    (hhi : IsSortOf (fun x y => cmp (hi x) (hi y)) byHi xs)
    (hreach : ∀ y ∈ xs, (cmp reach (hi y)).isLE) :
    (∀ stop ∈ sweepStops t lo hi xs.length (lo x) reach (x :: rest) byHi,
      stop.Spec cmp lo hi xs) ∧
    (sweepStops t lo hi xs.length (lo x) reach (x :: rest) byHi).Pairwise
      (fun stop stop' => cmp stop.key stop'.key = .lt) ∧
    ∀ b, (∃ stop ∈ sweepStops t lo hi xs.length (lo x) reach (x :: rest) byHi,
        cmp stop.key b = .eq) ↔
      (∃ y ∈ xs, cmp (lo y) b = .eq) ∧ ∃ y ∈ xs, cmp (lo y) b = .lt := by
  have hinv : SweepInv cmp lo hi [] (x :: rest) [] byHi (lo x) reach :=
    ⟨hlo.sorted, hhi.sorted, by simp, ⟨x, rest, rfl, rfl⟩, by simp, by simp,
      Or.inl ⟨rfl, fun y hy => hreach y (hlo.perm.mem_iff.mp hy)⟩⟩
  obtain ⟨hspec, hasc, hall⟩ := hinv.stops ht xs.length hlo.perm hhi.perm hlo.perm.length_eq.le
  refine ⟨fun stop hstop => (hspec stop hstop).2, hasc, fun b => ⟨?_, ?_⟩⟩
  · rintro ⟨stop, hstop, hb⟩
    obtain ⟨y, hy, hkey⟩ := (hspec stop hstop).2.isKey
    obtain ⟨z, hz, hlt, -⟩ := (hspec stop hstop).2.notFirst
    exact ⟨⟨y, hy, hkey ▸ hb⟩, z, hz, Std.TransCmp.lt_of_lt_of_eq hlt hb⟩
  · rintro ⟨⟨y, hy, hb⟩, z, hz, hlt⟩
    have hlt' := Std.TransCmp.lt_of_lt_of_eq hlt (Std.OrientedCmp.eq_symm hb)
    -- the sweep starts at the smallest first key
    have hfirst : cmp (lo x) (lo y) = .lt :=
      Std.TransCmp.lt_of_isLE_of_lt (hinv.key_isLE (hlo.perm.mem_iff.mpr hz)) hlt'
    obtain ⟨stop, hstop, heq⟩ := hall y (hlo.perm.mem_iff.mpr hy) hfirst
    exact ⟨stop, hstop, Std.TransCmp.eq_trans heq hb⟩

end Whole

end PgRange.Math
