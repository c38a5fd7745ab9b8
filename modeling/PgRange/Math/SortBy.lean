import PgRange.Math.Cut
import Mathlib.Data.List.GetD
import Mathlib.Data.List.Sort

/-!
# Sorting by a three-way comparison

Sorting a list by a transitive three-way comparison, the order statistics of
the result, and the pairing of two lists that are sorted independently of each
other: if all elements have two keys in order, the `k`-th smallest first key is at
or below the `k`-th smallest second key.
-/

set_option autoImplicit false

namespace PgRange.Math

variable {β : Type*} (cmp : β → β → Ordering)

/-- Ascending sort by a three-way comparison. -/
def sortBy (l : List β) : List β :=
  l.insertionSort fun x y => (cmp x y).isLE

theorem sortBy_perm (l : List β) : (sortBy cmp l).Perm l :=
  List.perm_insertionSort _ l

@[simp] theorem length_sortBy (l : List β) : (sortBy cmp l).length = l.length :=
  (sortBy_perm cmp l).length_eq

@[simp] theorem mem_sortBy {l : List β} {x : β} : x ∈ sortBy cmp l ↔ x ∈ l :=
  (sortBy_perm cmp l).mem_iff

theorem sortBy_getD_mem {l : List β} {k : ℕ} (hk : k < l.length) (d : β) :
    (sortBy cmp l).getD k d ∈ l := by
  have hlt : k < (sortBy cmp l).length := by rwa [length_sortBy]
  rw [List.getD_eq_getElem _ _ hlt]
  exact (mem_sortBy cmp).mp (List.getElem_mem hlt)

/-- Sorting commutes with a renaming that the comparison does not see. -/
theorem sortBy_map {γ : Type*} {cmp : β → β → Ordering} {cmp' : γ → γ → Ordering} {f : β → γ}
    (h : ∀ x y, cmp' (f x) (f y) = cmp x y) (l : List β) :
    sortBy cmp' (l.map f) = (sortBy cmp l).map f := by
  unfold sortBy
  refine (List.map_insertionSort _ _ f l ?_).symm
  intro x _ y _
  rw [h]

/-- A list is a result of sorting another: it holds the same elements, in ascending order.
Elements that compare equal may come in any order. -/
structure IsSortOf (s l : List β) : Prop where
  perm : s.Perm l
  sorted : s.Pairwise fun x y => (cmp x y).isLE

/-- The order of the elements to be sorted does not matter, if only equal elements compare
equal. -/
theorem IsSortOf.eq {cmp : β → β → Ordering} {s t l l' : List β} (hs : IsSortOf cmp s l)
    (ht : IsSortOf cmp t l') (hperm : l.Perm l')
    (hanti : ∀ x ∈ l, ∀ y ∈ l, (cmp x y).isLE → (cmp y x).isLE → x = y) : s = t := by
  refine List.Perm.eq_of_pairwise (fun x y hx hy => ?_) hs.sorted ht.sorted
    (hs.perm.trans (hperm.trans ht.perm.symm))
  exact hanti x (hs.perm.mem_iff.mp hx) y (hperm.mem_iff.mpr (ht.perm.mem_iff.mp hy))

variable [Std.TransCmp cmp]

theorem sortBy_pairwise (l : List β) :
    (sortBy cmp l).Pairwise fun x y => (cmp x y).isLE := by
  have htotal : Std.Total fun x y => ((cmp x y).isLE : Prop) := ⟨isLE_total cmp⟩
  have htrans : IsTrans β fun x y => ((cmp x y).isLE : Prop) :=
    ⟨fun _ _ _ => Std.TransCmp.isLE_trans⟩
  exact List.pairwise_insertionSort _ l

theorem isSortOf_sortBy (l : List β) : IsSortOf cmp (sortBy cmp l) l :=
  ⟨sortBy_perm cmp l, sortBy_pairwise cmp l⟩

variable {cmp} in
omit [Std.TransCmp cmp] in
/-- Read backwards, a sorted list is sorted the other way. -/
theorem IsSortOf.reverse {s l : List β} (h : IsSortOf cmp s l) :
    IsSortOf (fun x y => cmp y x) s.reverse l :=
  ⟨(List.reverse_perm s).trans h.perm, List.pairwise_reverse.mpr h.sorted⟩

variable {cmp} in
omit [Std.TransCmp cmp] in
theorem IsSortOf.exists_cons {s l : List β} (h : IsSortOf cmp s l) (hne : l ≠ []) :
    ∃ x rest, s = x :: rest := by
  apply List.exists_cons_of_ne_nil
  rintro rfl
  exact hne h.perm.nil_eq.symm

variable {cmp} in
/-- The first element is the least. -/
theorem IsSortOf.head_isLE {x y : β} {rest l : List β} (h : IsSortOf cmp (x :: rest) l)
    (hy : y ∈ l) : (cmp x y).isLE := by
  rcases List.mem_cons.mp (h.perm.mem_iff.mpr hy) with rfl | hy
  · exact Std.ReflCmp.isLE_rfl
  · exact (List.pairwise_cons.mp h.sorted).1 y hy

/-- Comparing by a key. -/
theorem transCmp_on {γ : Type*} (f : γ → β) : Std.TransCmp fun x y => cmp (f x) (f y) where
  eq_swap := Std.OrientedCmp.eq_swap
  isLE_trans := Std.TransCmp.isLE_trans

variable {cmp} in
theorem IsSortOf.getElem_isLE {s l : List β} (h : IsSortOf cmp s l) {i j : ℕ} (hij : i ≤ j)
    (hj : j < s.length) : (cmp s[i] s[j]).isLE := by
  rcases Nat.lt_or_eq_of_le hij with hlt | rfl
  · exact List.pairwise_iff_getElem.mp h.sorted i j _ hj hlt
  · exact Std.ReflCmp.isLE_rfl

theorem sortBy_getElem_isLE (l : List β) {i j : ℕ} (hij : i ≤ j)
    (hj : j < (sortBy cmp l).length) :
    (cmp (sortBy cmp l)[i] (sortBy cmp l)[j]).isLE :=
  (isSortOf_sortBy cmp l).getElem_isLE hij hj

theorem sortBy_getD_isLE {l : List β} {i j : ℕ} (hij : i ≤ j) (hj : j < l.length) (d : β) :
    (cmp ((sortBy cmp l).getD i d) ((sortBy cmp l).getD j d)).isLE := by
  have hj' : j < (sortBy cmp l).length := by rwa [length_sortBy]
  rw [List.getD_eq_getElem _ _ (by omega), List.getD_eq_getElem _ _ hj']
  exact sortBy_getElem_isLE cmp l hij hj'

/-- The first element of a sorted list lies at or below every element. -/
theorem sortBy_first_isLE {l : List β} (hl : 0 < l.length) (d : β) :
    (sortBy cmp l).getD 0 d ∈ l ∧ ∀ x ∈ l, (cmp ((sortBy cmp l).getD 0 d) x).isLE := by
  have hlt : 0 < (sortBy cmp l).length := by rwa [length_sortBy]
  refine ⟨sortBy_getD_mem cmp hl d, fun x hx => ?_⟩
  obtain ⟨i, hi, rfl⟩ := List.mem_iff_getElem.mp ((mem_sortBy cmp).mpr hx)
  rw [List.getD_eq_getElem _ _ hlt]
  exact sortBy_getElem_isLE cmp l (Nat.zero_le i) hi

/-- The last element of a sorted list lies at or above every element. -/
theorem sortBy_last_isLE {l : List β} (hl : 0 < l.length) (d : β) :
    (sortBy cmp l).getD (l.length - 1) d ∈ l ∧
      ∀ x ∈ l, (cmp x ((sortBy cmp l).getD (l.length - 1) d)).isLE := by
  have hlt : l.length - 1 < (sortBy cmp l).length := by
    rw [length_sortBy]
    omega
  refine ⟨sortBy_getD_mem cmp (by omega) d, fun x hx => ?_⟩
  obtain ⟨i, hi, rfl⟩ := List.mem_iff_getElem.mp ((mem_sortBy cmp).mpr hx)
  have hi' : i < l.length := by rwa [length_sortBy] at hi
  rw [List.getD_eq_getElem _ _ hlt]
  exact sortBy_getElem_isLE cmp l (by omega) hlt

/-! ### Order statistics -/

section OrderStatistics

variable {cmp} {s l : List β} (h : IsSortOf cmp s l)

include h

/-- At least `k + 1` elements lie at or below the `k`-th smallest. -/
theorem IsSortOf.lt_countP_isLE {k : ℕ} (hk : k < s.length) :
    k < l.countP fun x => (cmp x s[k]).isLE := by
  rw [← h.perm.countP_eq]
  have htake : ∀ x ∈ s.take (k + 1), (cmp x s[k]).isLE := by
    intro x hx
    obtain ⟨i, hi, rfl⟩ := List.mem_take_iff_getElem.mp hx
    exact h.getElem_isLE (by omega) hk
  have hcount := List.countP_eq_length.mpr htake
  have hle := (s.take_sublist (k + 1)).countP_le (p := fun x => (cmp x s[k]).isLE)
  rw [hcount, List.length_take] at hle
  omega

/-- At most `k` elements lie strictly below the `k`-th smallest. -/
theorem IsSortOf.countP_lt_le {k : ℕ} (hk : k < s.length) :
    (l.countP fun x => cmp x s[k] = .lt) ≤ k := by
  rw [← h.perm.countP_eq]
  generalize hv : s[k] = v
  have hdrop : ∀ x ∈ s.drop k, cmp x v ≠ .lt := by
    intro x hx hlt
    obtain ⟨i, hi, rfl⟩ := List.mem_drop_iff_getElem.mp hx
    have hle := h.getElem_isLE (Nat.le_add_right k i) (by omega)
    rw [hv] at hle
    exact Std.OrientedCmp.not_isLE_of_lt hlt hle
  have hzero : (s.drop k).countP (fun x => decide (cmp x v = .lt)) = 0 :=
    List.countP_eq_zero.mpr (by simpa using hdrop)
  rw [← List.take_append_drop k s, List.countP_append, hzero, Nat.add_zero]
  exact List.countP_le_length.trans (List.length_take_le _ _)

end OrderStatistics

/-! ### Independent sorts -/

section Independent

variable {cmp} {s t : List β}

/-- If every element has its two keys in order, then so has every position after the keys
are sorted independently of each other. -/
theorem sort_pairing {γ : Type*} {f g : γ → β} {xs : List γ} (hs : IsSortOf cmp s (xs.map f))
    (ht : IsSortOf cmp t (xs.map g)) (hxs : ∀ x ∈ xs, (cmp (f x) (g x)).isLE) {k : ℕ}
    (hk : k < xs.length) (d : β) : (cmp (s.getD k d) (t.getD k d)).isLE := by
  have hks : k < s.length := by rwa [hs.perm.length_eq, List.length_map]
  have hkt : k < t.length := by rwa [ht.perm.length_eq, List.length_map]
  rw [List.getD_eq_getElem _ _ hks, List.getD_eq_getElem _ _ hkt]
  by_contra hnot
  have hlow := hs.countP_lt_le hks
  have hhigh := ht.lt_countP_isLE hkt
  rw [List.countP_map] at hlow hhigh
  -- an element whose greater key is among the first `k + 1` has its smaller one strictly below
  have hmono := List.countP_mono_left (l := xs) (p := (fun x => (cmp x t[k]).isLE) ∘ g)
    (q := (fun x => decide (cmp x s[k] = .lt)) ∘ f) fun x hx hle => by
      have hlt : cmp t[k] s[k] = .lt := lt_iff_not_isLE.mpr hnot
      exact decide_eq_true
        (Std.TransCmp.lt_of_isLE_of_lt (Std.TransCmp.isLE_trans (hxs x hx) hle) hlt)
  omega

end Independent

/-! ### Any sorting function -/

/-- A sorting function that leaves open in which order it puts elements that compare equal. -/
structure Qsort where
  run : {β : Type} → (β → β → Ordering) → List β → List β
  perm : ∀ {β : Type} (cmp : β → β → Ordering) (l : List β), (run cmp l).Perm l
  sorted : ∀ {β : Type} (cmp : β → β → Ordering) [Std.TransCmp cmp] (l : List β),
    (run cmp l).Pairwise fun x y => (cmp x y).isLE

theorem Qsort.isSortOf (q : Qsort) {β : Type} (cmp : β → β → Ordering) [Std.TransCmp cmp]
    (l : List β) : IsSortOf cmp (q.run cmp l) l :=
  ⟨q.perm cmp l, q.sorted cmp l⟩

/-- Insertion sort is one. -/
def Qsort.insertion : Qsort where
  run := sortBy
  perm := sortBy_perm
  sorted := fun cmp => sortBy_pairwise cmp

end PgRange.Math
