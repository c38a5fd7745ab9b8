import Mathlib.Order.Bounds.Basic
import Mathlib.Data.List.Basic

/-!
# Folding a join that may fail

An operation on a preorder that returns a least upper bound of its two arguments is
commutative and associative up to equivalence, because least upper bounds are unique
up to equivalence. Folded over a list it returns a least upper bound of the members,
so the order of the list does not matter either.

The operation may raise an error outside of a predicate that it preserves.
-/

set_option autoImplicit false

namespace PgRange.Math

variable {κ ε : Type} [Preorder κ]

/-- The operation returns a least upper bound, on the arguments that satisfy `P`. -/
def JoinsOn (P : κ → Prop) (op : κ → κ → Except ε κ) : Prop :=
  ∀ a b, P a → P b → ∃ c, op a b = .ok c ∧ P c ∧ IsLUB {a, b} c

/-- Two least upper bounds of one set are below each other. -/
theorem le_of_isLUB {s : Set κ} {a b : κ} (ha : IsLUB s a) (hb : IsLUB s b) : a ≤ b :=
  ha.2 hb.1

/-- A least upper bound of two elements may stand for them in a set. -/
theorem isLUB_cons_cons_iff {a b c d : κ} {l : List κ} (h : IsLUB {a, b} c) :
    IsLUB {x | x ∈ a :: b :: l} d ↔ IsLUB {x | x ∈ c :: l} d := by
  apply isLUB_congr
  ext u
  have hu : c ≤ u ↔ a ≤ u ∧ b ≤ u := by
    rw [isLUB_le_iff h]
    simp [upperBounds]
  simp [upperBounds, hu, and_assoc]

namespace JoinsOn

variable {P : κ → Prop} {op : κ → κ → Except ε κ}

/-- A result on admissible arguments is a least upper bound. -/
theorem isLUB (h : JoinsOn P op) {a b c : κ} (ha : P a) (hb : P b) (hc : op a b = .ok c) :
    P c ∧ IsLUB {a, b} c := by
  obtain ⟨c', hc', hP, hlub⟩ := h a b ha hb
  obtain rfl := Except.ok.inj (hc.symm.trans hc')
  exact ⟨hP, hlub⟩

theorem comm (h : JoinsOn P op) {a b u v : κ} (ha : P a) (hb : P b) (hu : op a b = .ok u)
    (hv : op b a = .ok v) : u ≤ v := by
  have hub := (h.isLUB ha hb hu).2
  rw [Set.pair_comm] at hub
  exact le_of_isLUB hub (h.isLUB hb ha hv).2

theorem idem (h : JoinsOn P op) {a u : κ} (ha : P a) (hu : op a a = .ok u) : u ≤ a ∧ a ≤ u := by
  have hub := (h.isLUB ha ha hu).2
  rw [Set.pair_eq_singleton] at hub
  exact ⟨le_of_isLUB hub isLUB_singleton, le_of_isLUB isLUB_singleton hub⟩

/-- Folding the operation over a list gives a least upper bound of its members. -/
theorem foldlM (h : JoinsOn P op) (l : List κ) (a : κ) (ha : P a) (hl : ∀ x ∈ l, P x) :
    ∃ u, l.foldlM op a = .ok u ∧ P u ∧ IsLUB {x | x ∈ a :: l} u := by
  induction l generalizing a with
  | nil => exact ⟨a, rfl, ha, by simp⟩
  | cons b l ih =>
    obtain ⟨c, hc, hPc, hlub⟩ := h a b ha (hl b (by simp))
    obtain ⟨u, hu, hPu, hlubu⟩ := ih c hPc fun x hx => hl x (by simp [hx])
    refine ⟨u, ?_, hPu, (isLUB_cons_cons_iff hlub).mpr hlubu⟩
    rw [List.foldlM_cons, hc]
    exact hu

/-- Two ways to bracket three arguments are folds over the same members. -/
theorem assoc (h : JoinsOn P op) {a b c ab bc u v : κ} (ha : P a) (hb : P b) (hc : P c)
    (hab : op a b = .ok ab) (hu : op ab c = .ok u) (hbc : op b c = .ok bc)
    (hv : op a bc = .ok v) : u ≤ v ∧ v ≤ u := by
  obtain ⟨hPab, hlab⟩ := h.isLUB ha hb hab
  obtain ⟨hPbc, hlbc⟩ := h.isLUB hb hc hbc
  have hlu : IsLUB {x | x ∈ [a, b, c]} u := by
    rw [isLUB_cons_cons_iff hlab]
    simpa [Set.insert_def] using (h.isLUB hPab hc hu).2
  -- the right bracketing starts with the last two, so its list is rotated
  have hlv : IsLUB {x | x ∈ [b, c, a]} v := by
    rw [isLUB_cons_cons_iff hlbc]
    have hpair := (h.isLUB ha hPbc hv).2
    rw [Set.pair_comm] at hpair
    simpa [Set.insert_def] using hpair
  have hsame : {x | x ∈ [a, b, c]} = {x | x ∈ [b, c, a]} := by
    ext x
    simp only [List.mem_cons, List.not_mem_nil, or_false, Set.mem_ofPred_eq]
    tauto
  rw [hsame] at hlu
  exact ⟨le_of_isLUB hlu hlv, le_of_isLUB hlv hlu⟩

end JoinsOn

end PgRange.Math
