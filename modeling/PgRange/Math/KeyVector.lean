import Mathlib.Data.Fin.Tuple.Basic
import Mathlib.Order.Bounds.Basic

/-!
# Vectors of keys with missing entries

A vector has a key of its own ordered type in every column, or none. A missing key is below all
keys and vectors are compared column by column, so that a vector above another one says at least
as much in every column. Least upper bounds are found column by column, too, and a computation
that can fail in some column gives a vector only if it fails in none.

## Main definitions

* `KeyVector` — the vectors and their order
* `sequence` — the results of a computation for every column

## Main results

* `KeyVector.le_iff` — the order in terms of the keys that are there
* `KeyVector.isLUB_of_columns` — least upper bounds column by column
* `sequence_eq_ok_iff` — when a computation for every column succeeds
-/

set_option autoImplicit false

namespace PgRange.Math

/-- A key or none in every column. -/
def KeyVector {n : ℕ} (κ : Fin n → Type) : Type :=
  (j : Fin n) → Option (κ j)

namespace KeyVector

variable {n : ℕ} {κ : Fin n → Type}

/-- The vector without a key. -/
def missing : KeyVector κ := fun _ => none

/-- The vector with another key in one column. -/
def set (a : KeyVector κ) (j : Fin n) (key : Option (κ j)) : KeyVector κ :=
  fun i => if h : i = j then h ▸ key else a i

@[simp] theorem set_self (a : KeyVector κ) (j : Fin n) (key : Option (κ j)) :
    a.set j key j = key := by
  simp [set]

theorem set_of_ne {a : KeyVector κ} {i j : Fin n} (h : i ≠ j) (key : Option (κ j)) :
    a.set j key i = a i := by
  simp [set, h]

variable [∀ j, Preorder (κ j)]

/-- A missing key is the least one. -/
instance : Preorder (KeyVector κ) where
  le a b := ∀ j k, a j = some k → ∃ k', b j = some k' ∧ k ≤ k'
  le_refl _ _ k hk := ⟨k, hk, le_rfl⟩
  le_trans a b c hab hbc j k hk := by
    obtain ⟨k', hk', hle⟩ := hab j k hk
    obtain ⟨k'', hk'', hle'⟩ := hbc j k' hk'
    exact ⟨k'', hk'', hle.trans hle'⟩

variable {a b u : KeyVector κ} {S : Set (KeyVector κ)}

theorem le_iff : a ≤ b ↔ ∀ j k, a j = some k → ∃ k', b j = some k' ∧ k ≤ k' := Iff.rfl

/-- A vector is a least upper bound if each of its keys is one, and if it has a key wherever one
of the vectors below has one, and there only. -/
theorem isLUB_of_columns (hnone : ∀ j, u j = none → ∀ a ∈ S, a j = none)
    (hsome : ∀ j k, u j = some k →
      (∃ a ∈ S, a j ≠ none) ∧ IsLUB {x | ∃ a ∈ S, a j = some x} k) : IsLUB S u := by
  constructor
  · intro a ha
    rw [le_iff]
    intro j x hx
    cases hu : u j with
    | none => simp [hnone j hu a ha] at hx
    | some k => exact ⟨k, rfl, (hsome j k hu).2.1 ⟨a, ha, hx⟩⟩
  · intro b hb
    rw [le_iff]
    intro j k hk
    obtain ⟨⟨a, ha, hne⟩, hlub⟩ := hsome j k hk
    obtain ⟨x, hx⟩ := Option.ne_none_iff_exists'.mp hne
    -- an upper bound has a key in this column, since some vector has one
    obtain ⟨k', hk', -⟩ := le_iff.mp (hb ha) j x hx
    refine ⟨k', hk', hlub.2 ?_⟩
    rintro y ⟨c, hc, hy⟩
    obtain ⟨k'', hk'', hle⟩ := le_iff.mp (hb hc) j y hy
    rw [hk', Option.some.injEq] at hk''
    exact hk'' ▸ hle

end KeyVector

/-- The results of a computation for every column, or its first failure. -/
def sequence {ε : Type} : {n : ℕ} → {β : Fin n → Type} → ((j : Fin n) → Except ε (β j)) →
    Except ε ((j : Fin n) → β j)
  | 0, _, _ => .ok fun j => j.elim0
  | _ + 1, _, f => do
    let head ← f 0
    let tail ← sequence fun j => f j.succ
    return Fin.cons head tail

theorem sequence_eq_ok_iff {ε : Type} {n : ℕ} {β : Fin n → Type} {f : (j : Fin n) → Except ε (β j)}
    {g : (j : Fin n) → β j} : sequence f = .ok g ↔ ∀ j, f j = .ok (g j) := by
  induction n with
  | zero =>
    simp only [sequence, Except.ok.injEq]
    exact ⟨fun _ j => j.elim0, fun _ => funext fun j => j.elim0⟩
  | succ n ih =>
    rw [Fin.forall_fin_succ, sequence]
    cases hhead : f 0 with
    | error e => simp [bind, Except.bind]
    | ok head =>
      have hrest := ih (f := fun j => f j.succ) (g := fun j => g j.succ)
      rw [← hrest]
      cases htail : sequence fun j => f j.succ with
      | error e => simp [bind, Except.bind]
      | ok tail =>
        simp only [bind, Except.bind, pure, Except.pure, Except.ok.injEq]
        constructor
        · rintro rfl
          exact ⟨rfl, rfl⟩
        · rintro ⟨rfl, rfl⟩
          exact Fin.cons_self_tail g

end PgRange.Math
