import Mathlib.Data.List.Basic

/-!
# Pruned search in a tree of keys

A search tree keeps entries at its leaves and, above every subtree, a key that
covers the entries below it. A search descends only where a test on the key
allows it. If the test never rejects a key above an entry that the leaf test
accepts, the search returns exactly the accepted entries, in order.
-/

set_option autoImplicit false

namespace PgRange.Math

/-- A page of a search tree, as a chain of its entries: stored entries, and keys
with the subtree they stand for. -/
inductive SearchTree (κ : Type)
  | nil
  | entry (x : κ) (rest : SearchTree κ)
  | node (key : κ) (child rest : SearchTree κ)

namespace SearchTree

variable {κ ε : Type}

/-- The stored entries, from left to right. -/
def leaves : SearchTree κ → List κ
  | nil => []
  | entry x rest => x :: rest.leaves
  | node _ child rest => child.leaves ++ rest.leaves

/-- Every stored entry and every key has the property. -/
def All (P : κ → Prop) : SearchTree κ → Prop
  | nil => True
  | entry x rest => P x ∧ rest.All P
  | node key child rest => P key ∧ child.All P ∧ rest.All P

/-- Every key covers the entries of its subtree. -/
def Covering (covers : κ → κ → Prop) : SearchTree κ → Prop
  | nil => True
  | entry _ rest => rest.Covering covers
  | node key child rest =>
    (∀ x ∈ child.leaves, covers key x) ∧ child.Covering covers ∧ rest.Covering covers

/-- Collect the entries the leaf test accepts, descending where the test on the
key allows it. -/
def search (inner leaf : κ → Except ε Bool) : SearchTree κ → Except ε (List κ)
  | nil => .ok []
  | entry x rest => do
    let keep ← leaf x
    let found ← search inner leaf rest
    return if keep then x :: found else found
  | node key child rest => do
    let descend ← inner key
    let below ← if descend then search inner leaf child else pure []
    let found ← search inner leaf rest
    return below ++ found

/-- The test ends normally and accepts. -/
def accepts (test : κ → Except ε Bool) (x : κ) : Bool :=
  match test x with
  | .ok b => b
  | .error _ => false

theorem accepts_of_ok {test : κ → Except ε Bool} {x : κ} {b : Bool} (h : test x = .ok b) :
    accepts test x = b := by
  simp [accepts, h]

theorem eq_ok_true_of_accepts {test : κ → Except ε Bool} {x : κ} (h : accepts test x = true) :
    test x = .ok true := by
  unfold accepts at h
  cases ht : test x with
  | error e => simp [ht] at h
  | ok b => simpa [ht] using h

theorem All.of_mem_leaves {P : κ → Prop} {t : SearchTree κ} (h : t.All P) {x : κ}
    (hx : x ∈ t.leaves) : P x := by
  induction t with
  | nil => simp [leaves] at hx
  | entry y rest ih =>
    rcases List.mem_cons.mp hx with rfl | hx
    · exact h.1
    · exact ih h.2 hx
  | node key child rest ihc ihr =>
    rcases List.mem_append.mp hx with hx | hx
    · exact ihc h.2.1 hx
    · exact ihr h.2.2 hx

/-- A search whose tests end normally, and whose pruning never loses an accepted
entry, returns exactly the accepted entries. -/
theorem search_eq_filter {inner leaf : κ → Except ε Bool} {P : κ → Prop} {covers : κ → κ → Prop}
    (hinner : ∀ k, P k → ∃ b, inner k = .ok b) (hleaf : ∀ x, P x → ∃ b, leaf x = .ok b)
    (hsound : ∀ k x, P k → P x → covers k x → leaf x = .ok true → inner k = .ok true)
    (t : SearchTree κ) (hall : t.All P) (hcover : t.Covering covers) :
    t.search inner leaf = .ok (t.leaves.filter (accepts leaf)) := by
  induction t with
  | nil => rfl
  | entry x rest ih =>
    obtain ⟨b, hb⟩ := hleaf x hall.1
    simp only [search, leaves, List.filter_cons, hb, ih hall.2 hcover, accepts_of_ok hb]
    rfl
  | node key child rest ihc ihr =>
    obtain ⟨hkey, hchild, hrest⟩ := hall
    obtain ⟨hbelow, hcchild, hcrest⟩ := hcover
    obtain ⟨b, hb⟩ := hinner key hkey
    simp only [search, leaves, List.filter_append, hb, ihc hchild hcchild, ihr hrest hcrest]
    cases b with
    | true => rfl
    | false =>
      -- the subtree is skipped, so nothing in it may be accepted
      have hnone : child.leaves.filter (accepts leaf) = [] := by
        refine List.filter_eq_nil_iff.mpr fun x hx hacc => ?_
        have htrue := hsound key x hkey (hchild.of_mem_leaves hx) (hbelow x hx)
          (eq_ok_true_of_accepts hacc)
        rw [hb] at htrue
        exact absurd htrue (by simp)
      rw [hnone]
      rfl

end SearchTree

end PgRange.Math
