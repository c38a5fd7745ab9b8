import Mathlib.Data.List.Induction
import Mathlib.Order.Fin.Basic
import Mathlib.Order.WellFounded
import PgRange.Math.FloatQ

/-!
# Least costs

A cost is a floating-point number that is not negative, or infinite. Vectors of costs are compared
by their first difference, so an earlier column counts for more than all later ones.

A loop that keeps the best of the elements it has seen ends with the first one that no other beats.

## Main results

* `FloatQ.IsCost.trichotomy` — costs are totally ordered
* `LexLe.trans` — and so are the vectors, transitively
* `foldl_keepBest` — what is kept of a list
-/

set_option autoImplicit false

namespace PgRange.Math

namespace FloatQ

variable {x y z : FloatQ}

/-- A number that is not negative, or infinite. -/
def IsCost (x : FloatQ) : Prop :=
  x = .posInf ∨ ∃ q, 0 ≤ q ∧ x = .fin q

theorem isCost_zero : IsCost (.fin 0) := Or.inr ⟨0, le_rfl, rfl⟩

theorem lt_irrefl (x : FloatQ) : x.lt x = false := by
  cases x <;> simp [lt]

theorem lt_trans (hxy : x.lt y = true) (hyz : y.lt z = true) : x.lt z = true := by
  cases x <;> cases y <;> cases z <;> simp_all [lt]
  exact hxy.trans hyz

/-- Every number is above the smaller or below the larger one of two. -/
theorem lt_or_lt (hz : z ≠ .nan) (h : x.lt y = true) : x.lt z = true ∨ z.lt y = true := by
  cases x <;> cases y <;> cases z <;> simp_all [lt]
  exact (lt_or_ge _ _).imp_right fun hle => hle.trans_lt h

theorem ne_of_lt (h : x.lt y = true) : x ≠ y := by
  rintro rfl
  simp [lt_irrefl] at h

theorem trichotomy (hx : x ≠ .nan) (hy : y ≠ .nan) : x.lt y = true ∨ x = y ∨ y.lt x = true := by
  cases x <;> cases y <;> simp_all [lt]
  exact lt_trichotomy _ _

theorem IsCost.ne_nan (hx : x.IsCost) : x ≠ .nan := by
  rcases hx with rfl | ⟨p, -, rfl⟩ <;> simp

theorem IsCost.trichotomy (hx : x.IsCost) (hy : y.IsCost) :
    x.lt y = true ∨ x = y ∨ y.lt x = true :=
  FloatQ.trichotomy hx.ne_nan hy.ne_nan

theorem IsCost.not_neg (hx : x.IsCost) : x.lt (.fin 0) = false := by
  rcases hx with rfl | ⟨p, hp, rfl⟩
  · rfl
  · simpa [lt] using hp

theorem IsCost.isEq_self (hx : x.IsCost) : x.isEq x = true := by
  rcases hx with rfl | ⟨p, -, rfl⟩ <;> simp [isEq]

theorem isEq_of_ne (h : x ≠ y) : x.isEq y = false := by
  simp [isEq, h]

/-- A cost that is not positive is zero. -/
theorem IsCost.eq_zero (hx : x.IsCost) (h : (FloatQ.fin 0).lt x = false) : x = .fin 0 := by
  rcases hx.trichotomy isCost_zero with hlt | heq | hgt
  · rw [hx.not_neg] at hlt
    cases hlt
  · exact heq
  · rw [hgt] at h
    cases h

end FloatQ

/-! ### The first best of a list -/

section FirstBest

variable {γ : Type*} (ok : γ → Bool) (better : γ → γ → Bool)

/-- A turn of a loop that keeps the best acceptable element. -/
def keepBest (best : Option γ) (x : γ) : Option γ :=
  if ok x && best.all (better x) then some x else best

/-- An acceptable element of the list that beats the acceptable ones before it, and is not beaten by
those after it. -/
def IsFirstBest (l : List γ) (x : γ) : Prop :=
  ∃ before after, l = before ++ x :: after ∧ ok x = true ∧
    (∀ y ∈ before, ok y = true → better x y = true) ∧
    ∀ y ∈ after, ok y = true → better y x = false

/-- What is kept of a list: nothing if no element is acceptable, else the first best one. -/
theorem foldl_keepBest (hasymm : ∀ {x y}, better x y = true → better y x = false)
    (hlt : ∀ {x y}, better x y = true → ∀ z, better x z = true ∨ better z y = true) (l : List γ) :
    (l.foldl (keepBest ok better) none = none ∧ ∀ y ∈ l, ok y = false) ∨
      ∃ x, l.foldl (keepBest ok better) none = some x ∧ IsFirstBest ok better l x := by
  induction l using List.reverseRecOn with
  | nil => exact Or.inl ⟨rfl, by simp⟩
  | append_singleton l y ih =>
    rw [List.foldl_append, List.foldl_cons, List.foldl_nil, keepBest]
    cases hy : ok y with
    | false =>
      rw [Bool.false_and, if_neg (by simp)]
      rcases ih with ⟨hnone, hall⟩ | ⟨x, hx, before, after, rfl, hok, hbefore, hafter⟩
      · refine Or.inl ⟨hnone, fun z hz => ?_⟩
        rcases List.mem_append.mp hz with hz | hz
        · exact hall z hz
        · rwa [List.mem_singleton.mp hz]
      · refine Or.inr ⟨x, hx, before, after ++ [y], by simp, hok, hbefore, fun z hz hzok => ?_⟩
        rcases List.mem_append.mp hz with hz | hz
        · exact hafter z hz hzok
        · rw [List.mem_singleton.mp hz, hy] at hzok
          cases hzok
    | true =>
      rw [Bool.true_and]
      rcases ih with ⟨hnone, hall⟩ | ⟨x, hx, before, after, rfl, hok, hbefore, hafter⟩
      · rw [hnone]
        refine Or.inr ⟨y, rfl, l, [], rfl, hy, fun z hz hzok => ?_, by simp⟩
        rw [hall z hz] at hzok
        cases hzok
      · rw [hx, Option.all_some]
        cases hbetter : better y x with
        | false =>
          refine Or.inr ⟨x, rfl, before, after ++ [y], by simp, hok, hbefore, fun z hz hzok => ?_⟩
          rcases List.mem_append.mp hz with hz | hz
          · exact hafter z hz hzok
          · rwa [List.mem_singleton.mp hz]
        | true =>
          refine Or.inr ⟨y, rfl, before ++ x :: after, [], by simp, hy, fun z hz hzok => ?_, by simp⟩
          -- what does not beat the old one is beaten by the new one
          have hkeep : ∀ {z}, better z x = false → better y z = true := fun hz =>
            (hlt hbetter _).resolve_right (by simp [hz])
          rcases List.mem_append.mp hz with hz | hz
          · exact hkeep (hasymm (hbefore z hz hzok))
          · rcases List.mem_cons.mp hz with rfl | hz
            · exact hbetter
            · exact hkeep (hafter z hz hzok)

end FirstBest

variable {n : ℕ} {u v w : Fin n → FloatQ}

/-- The first difference, if there is one, is in favour of the first vector. -/
def LexLe (v w : Fin n → FloatQ) : Prop :=
  v = w ∨ ∃ j, (∀ k < j, v k = w k) ∧ (v j).lt (w j) = true

theorem LexLe.refl (v : Fin n → FloatQ) : LexLe v v := Or.inl rfl

theorem LexLe.trans (huv : LexLe u v) (hvw : LexLe v w) : LexLe u w := by
  rcases huv with rfl | ⟨i, hi, hlti⟩
  · exact hvw
  rcases hvw with rfl | ⟨j, hj, hltj⟩
  · exact Or.inr ⟨i, hi, hlti⟩
  -- the earlier one of the two differences decides
  right
  rcases lt_trichotomy i j with hij | rfl | hji
  · exact ⟨i, fun k hk => (hi k hk).trans (hj k (hk.trans hij)), hj i hij ▸ hlti⟩
  · exact ⟨i, fun k hk => (hi k hk).trans (hj k hk), FloatQ.lt_trans hlti hltj⟩
  · exact ⟨j, fun k hk => (hi k (hk.trans hji)).trans (hj k hk), (hi j hji).symm ▸ hltj⟩

/-- Nothing is less than no cost at all. -/
theorem LexLe.eq_zero (hcost : ∀ j, (v j).IsCost) (h : LexLe v fun _ => .fin 0) :
    v = fun _ => .fin 0 := by
  rcases h with h | ⟨j, -, hlt⟩
  · exact h
  · rw [(hcost j).not_neg] at hlt
    cases hlt

/-- And no cost at all is the least vector. -/
theorem zero_lexLe (hcost : ∀ j, (v j).IsCost) : LexLe (fun _ => .fin 0) v := by
  by_cases hall : ∀ j, v j = .fin 0
  · exact Or.inl (funext fun j => (hall j).symm)
  · push Not at hall
    -- the first cost that is positive
    obtain ⟨j, hj, hmin⟩ := WellFounded.has_min (wellFounded_lt (α := Fin n))
      {j | v j ≠ .fin 0} hall
    refine Or.inr ⟨j, fun k hk => ?_, ?_⟩
    · by_contra hne
      exact hmin k (Ne.symm hne) hk
    · rcases (hcost j).trichotomy FloatQ.isCost_zero with hlt | heq | hgt
      · rw [(hcost j).not_neg] at hlt
        cases hlt
      · exact absurd heq hj
      · exact hgt

end PgRange.Math
