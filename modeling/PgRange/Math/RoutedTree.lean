import PgRange.Math.Loop
import PgRange.Math.SearchTree

/-!
# Pruned search in a tree of routed entries

A tree whose inner tuples have numbered children and route every entry to one of them.
A search asks at each inner tuple which children to visit, and may pass a value down to
each of them. The invariant of such a search speaks about a subtree together with the
value that was passed to it.

## Main results

* `RoutedTree.search_eq_filter` — a search that only leaves out children without an
  accepted entry returns exactly the accepted entries, in order
-/

set_option autoImplicit false

namespace PgRange.Math

/-- A tree of entries of type `κ` with inner tuples of type `ν`. An inner tuple has the
children below its number of nodes. -/
inductive RoutedTree (κ ν : Type)
  | leaf (entries : List κ)
  | inner (tuple : ν) (nNodes : ℕ) (child : ℕ → RoutedTree κ ν)

namespace RoutedTree

variable {κ ν τ ε : Type}

/-- The entries, from the first child to the last. -/
def leaves : RoutedTree κ ν → List κ
  | leaf entries => entries
  | inner _ nNodes child => (List.range nNodes).flatMap fun k => (child k).leaves

theorem mem_leaves_inner {tuple : ν} {nNodes : ℕ} {child : ℕ → RoutedTree κ ν} {x : κ} :
    x ∈ (inner tuple nNodes child).leaves ↔ ∃ k < nNodes, x ∈ (child k).leaves := by
  simp [leaves]

/-- The entries that a test accepts. -/
def keep (test : κ → Except ε Bool) : List κ → Except ε (List κ)
  | [] => .ok []
  | x :: xs => do
    let accepted ← test x
    let rest ← keep test xs
    return if accepted then x :: rest else rest

/-- Collect the entries that the leaf test accepts, visiting the children that the inner
test names with the values that it passes to them. -/
def search (innerTest : ν → ℕ → Option τ → Except ε (List (ℕ × Option τ)))
    (leafTest : κ → Except ε Bool) : RoutedTree κ ν → Option τ → Except ε (List κ)
  | leaf entries, _ => keep leafTest entries
  | inner tuple nNodes child, traversal => do
    let visits ← innerTest tuple nNodes traversal
    let found ← visits.mapM fun visit => search innerTest leafTest (child visit.1) visit.2
    return found.flatten

/-! ### Searches that lose nothing -/

theorem keep_eq_filter {test : κ → Except ε Bool} {xs : List κ}
    (h : ∀ x ∈ xs, ∃ b, test x = .ok b) :
    keep test xs = .ok (xs.filter (SearchTree.accepts test)) := by
  induction xs with
  | nil => rfl
  | cons x xs ih =>
    obtain ⟨b, hb⟩ := h x List.mem_cons_self
    have hrest := ih fun y hy => h y (List.mem_cons_of_mem x hy)
    simp only [keep, hb, hrest, List.filter_cons, SearchTree.accepts_of_ok hb]
    rfl

/-- Leaving out members that contribute nothing does not change a concatenation. -/
theorem flatMap_filter_of_nil {γ δ : Type} {p : γ → Bool} {f : γ → List δ} {xs : List γ}
    (h : ∀ x ∈ xs, p x = false → f x = []) : (xs.filter p).flatMap f = xs.flatMap f := by
  induction xs with
  | nil => rfl
  | cons x xs ih =>
    have hrest := ih fun y hy => h y (List.mem_cons_of_mem x hy)
    cases hp : p x with
    | true => rw [List.filter_cons_of_pos hp, List.flatMap_cons, List.flatMap_cons, hrest]
    | false =>
      rw [List.filter_cons_of_neg (by simp [hp]), List.flatMap_cons,
        h x List.mem_cons_self hp, List.nil_append, hrest]

/-- What an invariant of a search has to provide at an inner tuple: the children to visit,
in order, each with the invariant for the value passed to it, and no accepted entry below
a child that is left out. -/
structure Visits (innerTest : ν → ℕ → Option τ → Except ε (List (ℕ × Option τ)))
    (leafTest : κ → Except ε Bool) (Inv : Option τ → RoutedTree κ ν → Prop)
    (tuple : ν) (nNodes : ℕ) (child : ℕ → RoutedTree κ ν) (traversal : Option τ)
    (visited : ℕ → Bool) (passed : ℕ → Option τ) : Prop where
  eq_ok : innerTest tuple nNodes traversal =
    .ok (((List.range nNodes).filter visited).map fun k => (k, passed k))
  keeps : ∀ k < nNodes, visited k = true → Inv (passed k) (child k)
  skips : ∀ k < nNodes, visited k = false → ∀ x ∈ (child k).leaves, leafTest x ≠ .ok true

/-- A search with such an invariant returns exactly the accepted entries. -/
theorem search_eq_filter {innerTest : ν → ℕ → Option τ → Except ε (List (ℕ × Option τ))}
    {leafTest : κ → Except ε Bool} {Inv : Option τ → RoutedTree κ ν → Prop}
    (hleaf : ∀ traversal entries, Inv traversal (leaf entries) →
      ∀ x ∈ entries, ∃ b, leafTest x = .ok b)
    (hinner : ∀ traversal tuple nNodes child, Inv traversal (inner tuple nNodes child) →
      ∃ visited passed,
        Visits innerTest leafTest Inv tuple nNodes child traversal visited passed)
    (t : RoutedTree κ ν) {traversal : Option τ} (ht : Inv traversal t) :
    t.search innerTest leafTest traversal =
      .ok (t.leaves.filter (SearchTree.accepts leafTest)) := by
  induction t generalizing traversal with
  | leaf entries => exact keep_eq_filter (hleaf traversal entries ht)
  | inner tuple nNodes child ih =>
    obtain ⟨visited, passed, hv⟩ := hinner traversal tuple nNodes child ht
    have hchild : ∀ visit ∈ ((List.range nNodes).filter visited).map fun k => (k, passed k),
        (child visit.1).search innerTest leafTest visit.2 =
          .ok ((child visit.1).leaves.filter (SearchTree.accepts leafTest)) := by
      intro visit hvisit
      obtain ⟨k, hk, rfl⟩ := List.mem_map.mp hvisit
      obtain ⟨hmem, hvis⟩ := List.mem_filter.mp hk
      exact ih k (hv.keeps k (List.mem_range.mp hmem) hvis)
    -- a child that is left out would contribute nothing
    have hskip : ∀ k ∈ List.range nNodes, visited k = false →
        (child k).leaves.filter (SearchTree.accepts leafTest) = [] := by
      intro k hk hvis
      refine List.filter_eq_nil_iff.mpr fun x hx hacc => ?_
      exact hv.skips k (List.mem_range.mp hk) hvis x hx (SearchTree.eq_ok_true_of_accepts hacc)
    simp only [search, hv.eq_ok, bind, Except.bind, mapM_eq_ok hchild, pure, Except.pure]
    rw [leaves, List.filter_flatMap, ← flatMap_filter_of_nil hskip, List.map_map,
      List.flatMap_def]
    rfl

end RoutedTree

end PgRange.Math
