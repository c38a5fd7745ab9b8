import Mathlib.Algebra.BigOperators.Ring.Finset
import Mathlib.Algebra.Order.BigOperators.Group.Finset
import Mathlib.Algebra.Order.Ring.Defs
import Mathlib.Order.Monotone.Basic
import Mathlib.Tactic.Linarith

/-!
# Two cursors on two sequences

A cursor moves along each of two sequences. In every round the cursor at the smaller
element moves on; at equal elements both do. The pairs of positions that the cursors go
through descend a staircase: no pair comes twice, and for ascending sequences a pair is
a step of the stairs exactly when each of its elements lies beyond all that the other
cursor has left behind.

## Main results

* `mergePath_nodup` — no pair of positions is visited twice
* `sum_mergePath_le` — products over the visited pairs add up to no more than the product
  of the sums
* `mem_mergePath_iff` — the pairs that are visited in two ascending sequences
-/

set_option autoImplicit false

namespace PgRange.Math

section Path

variable {α : Type*} [LinearOrder α] (a b : ℕ → α) (n m : ℕ)

/-- The positions after a round. -/
def mergeNext (p : ℕ × ℕ) : ℕ × ℕ :=
  if a p.1 < b p.2 then (p.1 + 1, p.2)
  else if b p.2 < a p.1 then (p.1, p.2 + 1)
  else (p.1 + 1, p.2 + 1)

/-- No cursor moves back, and at least one moves on. -/
theorem le_mergeNext (p : ℕ × ℕ) :
    p.1 ≤ (mergeNext a b p).1 ∧ p.2 ≤ (mergeNext a b p).2 ∧
      p.1 + p.2 < (mergeNext a b p).1 + (mergeNext a b p).2 := by
  unfold mergeNext
  split_ifs <;> dsimp only <;> omega

/-- The pairs of positions from `p` on, until one of the sequences is used up. -/
def mergePath (p : ℕ × ℕ) : List (ℕ × ℕ) :=
  if _h : p.1 < n ∧ p.2 < m then p :: mergePath (mergeNext a b p) else []
termination_by (n - p.1) + (m - p.2)
decreasing_by
  have := le_mergeNext a b p
  omega

variable {a b n m}

theorem mergePath_cons {p : ℕ × ℕ} (h : p.1 < n ∧ p.2 < m) :
    mergePath a b n m p = p :: mergePath a b n m (mergeNext a b p) := by
  rw [mergePath, dif_pos h]

theorem mergePath_nil {p : ℕ × ℕ} (h : ¬ (p.1 < n ∧ p.2 < m)) : mergePath a b n m p = [] := by
  rw [mergePath, dif_neg h]

/-- The pairs that are visited lie in the two sequences, and not before the first one. -/
theorem bounds_of_mem_mergePath {p q : ℕ × ℕ} (hq : q ∈ mergePath a b n m p) :
    (q.1 < n ∧ q.2 < m) ∧ p.1 + p.2 ≤ q.1 + q.2 := by
  induction p using mergePath.induct a b n m with
  | case1 p h ih =>
    rw [mergePath_cons h, List.mem_cons] at hq
    rcases hq with rfl | hq
    · exact ⟨h, le_rfl⟩
    · obtain ⟨hbounds, hle⟩ := ih hq
      exact ⟨hbounds, (le_mergeNext a b p).2.2.le.trans hle⟩
  | case2 p h => rw [mergePath_nil h] at hq; cases hq

theorem mergePath_nodup (p : ℕ × ℕ) : (mergePath a b n m p).Nodup := by
  induction p using mergePath.induct a b n m with
  | case1 p h ih =>
    rw [mergePath_cons h, List.nodup_cons]
    refine ⟨fun hmem => ?_, ih⟩
    have hle := (bounds_of_mem_mergePath hmem).2
    exact absurd (le_mergeNext a b p).2.2 (not_lt.mpr hle)
  | case2 p h => rw [mergePath_nil h]; exact List.nodup_nil

/-- Every pair moves a cursor. -/
theorem length_mergePath_le (p : ℕ × ℕ) :
    (mergePath a b n m p).length ≤ (n - p.1) + (m - p.2) := by
  induction p using mergePath.induct a b n m with
  | case1 p h ih =>
    have hnext := le_mergeNext a b p
    rw [mergePath_cons h, List.length_cons]
    omega
  | case2 p h =>
    rw [mergePath_nil h]
    exact Nat.zero_le _

/-- Only the elements before the ends matter. -/
theorem mergePath_congr {a' b' : ℕ → α} (ha : ∀ i < n, a i = a' i) (hb : ∀ j < m, b j = b' j)
    (p : ℕ × ℕ) : mergePath a b n m p = mergePath a' b' n m p := by
  induction p using mergePath.induct a b n m with
  | case1 p h ih =>
    have hnext : mergeNext a' b' p = mergeNext a b p := by
      rw [mergeNext, mergeNext, ha _ h.1, hb _ h.2]
    rw [mergePath_cons h, mergePath_cons h, hnext, ih]
  | case2 p h => rw [mergePath_nil h, mergePath_nil h]

end Path

section Sums

variable {α : Type*} [LinearOrder α] {a b : ℕ → α} {n m : ℕ} {R : Type*} [CommRing R]

/-- A sum over the visited pairs, as one over all pairs of positions. -/
theorem sum_mergePath (p : ℕ × ℕ) (F : ℕ × ℕ → R) :
    ((mergePath a b n m p).map F).sum =
      ∑ q ∈ Finset.range n ×ˢ Finset.range m with q ∈ mergePath a b n m p, F q := by
  rw [← List.sum_toFinset F (mergePath_nodup p)]
  refine Finset.sum_congr (Finset.ext fun q => ?_) fun _ _ => rfl
  rw [List.mem_toFinset, Finset.mem_filter, Finset.mem_product, Finset.mem_range, Finset.mem_range]
  exact ⟨fun hq => ⟨(bounds_of_mem_mergePath hq).1, hq⟩, fun hq => hq.2⟩

variable [PartialOrder R] [IsOrderedRing R]

/-- Since no pair comes twice, the products stay below the product of the sums. -/
theorem sum_mergePath_le (p : ℕ × ℕ) {f g : ℕ → R} (hf : ∀ i < n, 0 ≤ f i)
    (hg : ∀ j < m, 0 ≤ g j) :
    ((mergePath a b n m p).map fun q => f q.1 * g q.2).sum ≤
      (∑ i ∈ Finset.range n, f i) * ∑ j ∈ Finset.range m, g j := by
  rw [sum_mergePath, Finset.sum_mul_sum, ← Finset.sum_product']
  refine Finset.sum_le_sum_of_subset_of_nonneg (Finset.filter_subset _ _) fun q hq _ => ?_
  rw [Finset.mem_product, Finset.mem_range, Finset.mem_range] at hq
  exact mul_nonneg (hf _ hq.1) (hg _ hq.2)

theorem sum_mergePath_nonneg (p : ℕ × ℕ) {f g : ℕ → R} (hf : ∀ i < n, 0 ≤ f i)
    (hg : ∀ j < m, 0 ≤ g j) :
    0 ≤ ((mergePath a b n m p).map fun q => f q.1 * g q.2).sum := by
  refine List.sum_nonneg fun x hx => ?_
  obtain ⟨q, hq, rfl⟩ := List.mem_map.mp hx
  obtain ⟨h1, h2⟩ := (bounds_of_mem_mergePath hq).1
  exact mul_nonneg (hf _ h1) (hg _ h2)

end Sums

/-! ### Ascending sequences -/

section Ascending

variable {α : Type*} [LinearOrder α] (a b : ℕ → α)

/-- Each element of the pair lies beyond all earlier ones of the other sequence. -/
def Stair (p : ℕ × ℕ) : Prop := (∀ i < p.1, a i < b p.2) ∧ ∀ j < p.2, b j < a p.1

instance : DecidablePred (Stair a b) := fun p => by
  unfold Stair
  infer_instance

variable {a b} (ha : StrictMono a) (hb : StrictMono b)

include ha hb

/-- A round leads from stair to stair. -/
theorem Stair.next {p : ℕ × ℕ} (h : Stair a b p) : Stair a b (mergeNext a b p) := by
  obtain ⟨hfirst, hsecond⟩ := h
  rcases lt_trichotomy (a p.1) (b p.2) with hlt | heq | hgt
  · rw [mergeNext, if_pos hlt]
    refine ⟨fun i hi => ?_, fun j hj => (hsecond j hj).trans (ha (Nat.lt_succ_self _))⟩
    rcases Nat.lt_succ_iff_lt_or_eq.mp hi with hi | rfl
    · exact hfirst i hi
    · exact hlt
  · rw [mergeNext, if_neg heq.not_lt, if_neg heq.not_gt]
    constructor
    · intro i hi
      exact ((ha.monotone (Nat.lt_succ_iff.mp hi)).trans heq.le).trans_lt (hb (Nat.lt_succ_self _))
    · intro j hj
      exact ((hb.monotone (Nat.lt_succ_iff.mp hj)).trans heq.ge).trans_lt (ha (Nat.lt_succ_self _))
  · rw [mergeNext, if_neg hgt.not_gt, if_pos hgt]
    refine ⟨fun i hi => (hfirst i hi).trans (hb (Nat.lt_succ_self _)), fun j hj => ?_⟩
    rcases Nat.lt_succ_iff_lt_or_eq.mp hj with hj | rfl
    · exact hsecond j hj
    · exact hgt

omit ha hb in
/-- From a position before a stair, a round does not lead past it. -/
theorem Stair.mergeNext_le {p q : ℕ × ℕ} (hq : Stair a b q) (h1 : p.1 ≤ q.1) (h2 : p.2 ≤ q.2)
    (hne : p ≠ q) : (mergeNext a b p).1 ≤ q.1 ∧ (mergeNext a b p).2 ≤ q.2 := by
  -- a cursor that has arrived waits for the other one, whose element is smaller
  have hwait1 : p.1 = q.1 → b p.2 < a p.1 := fun h => by
    have hlt : p.2 < q.2 := lt_of_le_of_ne h2 fun h' => hne (Prod.ext h h')
    rw [h]
    exact hq.2 _ hlt
  have hwait2 : p.2 = q.2 → a p.1 < b p.2 := fun h => by
    have hlt : p.1 < q.1 := lt_of_le_of_ne h1 fun h' => hne (Prod.ext h' h)
    rw [h]
    exact hq.1 _ hlt
  unfold mergeNext
  split_ifs with hlt hgt
  · exact ⟨lt_of_le_of_ne h1 fun h => hlt.not_gt (hwait1 h), h2⟩
  · exact ⟨h1, lt_of_le_of_ne h2 fun h => hgt.not_gt (hwait2 h)⟩
  · exact ⟨lt_of_le_of_ne h1 fun h => hgt (hwait1 h), lt_of_le_of_ne h2 fun h => hlt (hwait2 h)⟩

variable {n m : ℕ}

theorem stair_of_mem_mergePath {p q : ℕ × ℕ} (hp : Stair a b p)
    (hq : q ∈ mergePath a b n m p) : Stair a b q := by
  induction p using mergePath.induct a b n m with
  | case1 p h ih =>
    rw [mergePath_cons h, List.mem_cons] at hq
    rcases hq with rfl | hq
    · exact hp
    · exact ih (hp.next ha hb) hq
  | case2 p h => rw [mergePath_nil h] at hq; cases hq

omit ha hb in
theorem Stair.mem_mergePath {p q : ℕ × ℕ} (hq : Stair a b q) (hn : q.1 < n) (hm : q.2 < m)
    (h1 : p.1 ≤ q.1) (h2 : p.2 ≤ q.2) : q ∈ mergePath a b n m p := by
  induction p using mergePath.induct a b n m with
  | case1 p h ih =>
    rw [mergePath_cons h, List.mem_cons]
    by_cases hne : p = q
    · exact Or.inl hne.symm
    · obtain ⟨h1', h2'⟩ := hq.mergeNext_le h1 h2 hne
      exact Or.inr (ih h1' h2')
  | case2 p h => exact absurd ⟨h1.trans_lt hn, h2.trans_lt hm⟩ h

/-- In ascending sequences the cursors go through the stairs. -/
theorem mem_mergePath_iff {q : ℕ × ℕ} :
    q ∈ mergePath a b n m (0, 0) ↔ (q.1 < n ∧ q.2 < m) ∧ Stair a b q := by
  have hstart : Stair a b (0, 0) := ⟨fun i hi => absurd hi (Nat.not_lt_zero i),
    fun j hj => absurd hj (Nat.not_lt_zero j)⟩
  constructor
  · intro hq
    exact ⟨(bounds_of_mem_mergePath hq).1, stair_of_mem_mergePath ha hb hstart hq⟩
  · rintro ⟨⟨hn, hm⟩, hq⟩
    exact hq.mem_mergePath hn hm (Nat.zero_le _) (Nat.zero_le _)

end Ascending

end PgRange.Math
