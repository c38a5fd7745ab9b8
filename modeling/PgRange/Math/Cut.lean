import Mathlib.Data.Int.Basic

/-!
# Cut points of a preordered type

The end of an interval is not a point of the underlying type but a place
between points: at a value, just below it, just above it, or beyond every value
on one side. A `Cut` is such a place, and `Cut.compareBy` orders cuts by lifting a
three-way comparison of the values. Any transitive comparison lifts to a
transitive comparison of cuts, so the ends of intervals over any total preorder
form a total preorder again.
-/

set_option autoImplicit false

namespace PgRange.Math

/-! ### Reading a three-way comparison -/

section Comparison

variable {α : Type*} {cmp : α → α → Ordering} {a b : α}

theorem isLE_of_lt (h : cmp a b = .lt) : (cmp a b).isLE := by
  rw [h]
  rfl

theorem isLE_of_eq (h : cmp a b = .eq) : (cmp a b).isLE := by
  rw [h]
  rfl

variable [Std.OrientedCmp cmp]

theorem isLT_eq_not_isLE : (cmp a b).isLT = !(cmp b a).isLE := by
  rw [← Std.OrientedCmp.isGE_eq_isLE]
  cases cmp a b <;> rfl

theorem lt_iff_not_isLE : cmp a b = .lt ↔ ¬ (cmp b a).isLE := by
  rw [← Std.OrientedCmp.isGE_eq_isLE]
  cases cmp a b <;> simp

theorem isLE_total (cmp : α → α → Ordering) [Std.OrientedCmp cmp] (a b : α) :
    (cmp a b).isLE ∨ (cmp b a).isLE := by
  by_cases h : (cmp b a).isLE = true
  · exact Or.inr h
  · exact Or.inl (isLE_of_lt (lt_iff_not_isLE.mpr h))

section Extremes

variable {α : Type*} {cmp : α → α → Ordering} [Std.TransCmp cmp] {a b c : α}

/-- Below the smaller of two elements is below both. -/
theorem isLE_min_iff :
    (cmp c (if (cmp a b).isLE then a else b)).isLE ↔ (cmp c a).isLE ∧ (cmp c b).isLE := by
  split_ifs with hab
  · exact ⟨fun h => ⟨h, Std.TransCmp.isLE_trans h hab⟩, And.left⟩
  · have hba : (cmp b a).isLE := (isLE_total cmp a b).resolve_left hab
    exact ⟨fun h => ⟨Std.TransCmp.isLE_trans h hba, h⟩, And.right⟩

/-- Above the larger of two elements is above both. -/
theorem max_isLE_iff :
    (cmp (if (cmp a b).isGE then a else b) c).isLE ↔ (cmp a c).isLE ∧ (cmp b c).isLE := by
  rw [Std.OrientedCmp.isGE_eq_isLE]
  split_ifs with hba
  · exact ⟨fun h => ⟨h, Std.TransCmp.isLE_trans hba h⟩, And.left⟩
  · have hab : (cmp a b).isLE := (isLE_total cmp a b).resolve_right hba
    exact ⟨fun h => ⟨Std.TransCmp.isLE_trans hab h, h⟩, And.right⟩

/-- Above the smaller of two elements is above one of them. -/
theorem min_isLE_iff :
    (cmp (if (cmp a b).isLT then a else b) c).isLE ↔ (cmp a c).isLE ∨ (cmp b c).isLE := by
  rw [isLT_eq_not_isLE]
  cases hba : (cmp b a).isLE with
  | true =>
    refine ⟨Or.inr, ?_⟩
    rintro (hac | hbc)
    · exact Std.TransCmp.isLE_trans hba hac
    · exact hbc
  | false =>
    have hab : (cmp a b).isLE := (isLE_total cmp a b).resolve_right (by simp [hba])
    refine ⟨Or.inl, ?_⟩
    rintro (hac | hbc)
    · exact hac
    · exact Std.TransCmp.isLE_trans hab hbc

/-- Below the larger of two elements is below one of them. -/
theorem isLE_max_iff :
    (cmp c (if (cmp a b).isGT then a else b)).isLE ↔ (cmp c a).isLE ∨ (cmp c b).isLE := by
  cases hab : (cmp a b).isLE with
  | true =>
    rw [if_neg (by cases h : cmp a b <;> simp_all)]
    refine ⟨Or.inr, ?_⟩
    rintro (hca | hcb)
    · exact Std.TransCmp.isLE_trans hca hab
    · exact hcb
  | false =>
    have hba : (cmp b a).isLE := (isLE_total cmp a b).resolve_left (by simp [hab])
    rw [if_pos (by cases h : cmp a b <;> simp_all)]
    refine ⟨Or.inl, ?_⟩
    rintro (hca | hcb)
    · exact hca
    · exact Std.TransCmp.isLE_trans hcb hba

end Extremes

/-- Three-way comparison of integers. -/
def compareInt (x y : ℤ) : Ordering :=
  if y < x then .gt else if x = y then .eq else .lt

theorem compareInt_lt_iff {x y : ℤ} : compareInt x y = .lt ↔ x < y := by
  unfold compareInt
  split_ifs <;> simp <;> omega

theorem compareInt_eq_iff {x y : ℤ} : compareInt x y = .eq ↔ x = y := by
  unfold compareInt
  split_ifs <;> simp <;> omega

theorem compareInt_isLE_iff {x y : ℤ} : (compareInt x y).isLE ↔ x ≤ y := by
  rw [Ordering.isLE_iff_eq_lt_or_eq_eq, compareInt_lt_iff, compareInt_eq_iff]
  omega

instance : Std.TransCmp compareInt where
  eq_swap := by
    intro x y
    unfold compareInt
    split_ifs <;> first | rfl | omega
  isLE_trans := by
    intro x y z hxy hyz
    rw [compareInt_isLE_iff] at hxy hyz ⊢
    exact Int.le_trans hxy hyz

end Comparison

/-! ### Cut points -/

/-- A place in a preordered type. The offset of `point` tells on which side of the
value the place lies: negative for just below, zero for on it, positive for just
above. -/
inductive Cut (α : Type*)
  | bot
  | point (v : α) (off : ℤ)
  | top
  deriving DecidableEq

namespace Cut

variable {α : Type*} (cmp : α → α → Ordering)

/-- Compare two places, given a comparison of the values. -/
def compareBy : Cut α → Cut α → Ordering
  | bot, bot => .eq
  | bot, _ => .lt
  | _, bot => .gt
  | top, top => .eq
  | top, _ => .gt
  | _, top => .lt
  | .point v o, .point w p => (cmp v w).then (compareInt o p)

@[simp] theorem compareBy_point_point (v w : α) (o p : ℤ) :
    Cut.compareBy cmp (.point v o) (.point w p) = (cmp v w).then (compareInt o p) := rfl

@[simp] theorem compareBy_bot_point (v : α) (o : ℤ) : Cut.compareBy cmp .bot (.point v o) = .lt := rfl

@[simp] theorem compareBy_point_bot (v : α) (o : ℤ) : Cut.compareBy cmp (.point v o) .bot = .gt := rfl

@[simp] theorem compareBy_top_point (v : α) (o : ℤ) : Cut.compareBy cmp .top (.point v o) = .gt := rfl

@[simp] theorem compareBy_point_top (v : α) (o : ℤ) : Cut.compareBy cmp (.point v o) .top = .lt := rfl

@[simp] theorem compareBy_bot_bot : Cut.compareBy cmp .bot .bot = .eq := rfl

@[simp] theorem compareBy_bot_top : Cut.compareBy cmp .bot .top = .lt := rfl

@[simp] theorem compareBy_top_bot : Cut.compareBy cmp .top .bot = .gt := rfl

@[simp] theorem compareBy_top_top : Cut.compareBy cmp .top .top = .eq := rfl

theorem compareBy_swap [Std.OrientedCmp cmp] (a b : Cut α) :
    Cut.compareBy cmp a b = (Cut.compareBy cmp b a).swap := by
  cases a with
  | bot => cases b <;> rfl
  | top => cases b <;> rfl
  | point v o =>
    cases b with
    | bot => rfl
    | top => rfl
    | point w p =>
      rw [compareBy_point_point, compareBy_point_point, Ordering.swap_then,
        ← Std.OrientedCmp.eq_swap, ← Std.OrientedCmp.eq_swap]

/-- Lexicographic transitivity: the only case with content is the one of three
finite places. -/
theorem compareBy_isLE_trans [Std.TransCmp cmp] {a b c : Cut α}
    (hab : (Cut.compareBy cmp a b).isLE) (hbc : (Cut.compareBy cmp b c).isLE) :
    (Cut.compareBy cmp a c).isLE := by
  cases a with
  | bot => cases c <;> rfl
  | top =>
    cases b with
    | top => exact hbc
    | bot | point _ _ => simp at hab
  | point u o =>
    cases c with
    | top => rfl
    | bot => cases b <;> simp at hab hbc
    | point w q =>
      cases b with
      | bot => simp at hab
      | top => simp at hbc
      | point v p =>
        simp only [compareBy_point_point, Ordering.isLE_then_iff_or] at hab hbc ⊢
        rcases hab with huv | ⟨huv, hop⟩
        · rcases hbc with hvw | ⟨hvw, -⟩
          · exact Or.inl (Std.TransCmp.lt_trans huv hvw)
          · exact Or.inl (Std.TransCmp.lt_of_lt_of_eq huv hvw)
        · rcases hbc with hvw | ⟨hvw, hpq⟩
          · exact Or.inl (Std.TransCmp.lt_of_eq_of_lt huv hvw)
          · exact Or.inr ⟨Std.TransCmp.eq_trans huv hvw, Std.TransCmp.isLE_trans hop hpq⟩

instance [Std.TransCmp cmp] : Std.TransCmp (Cut.compareBy cmp) where
  eq_swap := compareBy_swap cmp _ _
  isLE_trans := compareBy_isLE_trans cmp

/-! ### Neighbouring cut points -/

/-- Nothing lies between the two places: they are next to each other at values
the comparison does not tell apart. -/
def Adjacent (a b : Cut α) : Prop :=
  ∃ v w o, a = .point v o ∧ b = .point w (o + 1) ∧ cmp v w = .eq

@[simp] theorem adjacent_point_point (v w : α) (o p : ℤ) :
    Adjacent cmp (.point v o) (.point w p) ↔ p = o + 1 ∧ cmp v w = .eq := by
  constructor
  · rintro ⟨v', w', o', hv, hw, hvw⟩
    obtain ⟨rfl, rfl⟩ := point.inj hv
    obtain ⟨rfl, rfl⟩ := point.inj hw
    exact ⟨rfl, hvw⟩
  · rintro ⟨rfl, hvw⟩
    exact ⟨v, w, o, rfl, rfl, hvw⟩

@[simp] theorem not_adjacent_top (b : Cut α) : ¬ Adjacent cmp .top b := by
  rintro ⟨_, _, _, h, -⟩
  exact nomatch h

@[simp] theorem not_adjacent_bot (a : Cut α) : ¬ Adjacent cmp a .bot := by
  rintro ⟨_, _, _, -, h, -⟩
  exact nomatch h

variable {cmp} {a b c : Cut α}

theorem Adjacent.lt (h : Adjacent cmp a b) : Cut.compareBy cmp a b = .lt := by
  obtain ⟨v, w, o, rfl, rfl, hvw⟩ := h
  have ho : compareInt o (o + 1) = .lt := compareInt_lt_iff.mpr (Int.lt_succ o)
  rw [compareBy_point_point, hvw, ho]
  rfl

variable [Std.TransCmp cmp]

/-- Two upper neighbours of one place are level. -/
theorem Adjacent.level (hb : Adjacent cmp a b) (hc : Adjacent cmp a c) :
    Cut.compareBy cmp c b = .eq := by
  obtain ⟨v, w, o, rfl, rfl, hvw⟩ := hb
  obtain ⟨v', u, o', heq, rfl, hvu⟩ := hc
  obtain ⟨rfl, rfl⟩ := point.inj heq
  have hself : compareInt (o + 1) (o + 1) = .eq := compareInt_eq_iff.mpr rfl
  rw [compareBy_point_point, Std.TransCmp.eq_trans (Std.OrientedCmp.eq_symm hvu) hvw, hself]
  rfl

/-- Two lower neighbours of one place are level. -/
theorem Adjacent.level_left (ha : Adjacent cmp a b) (hc : Adjacent cmp c b) :
    Cut.compareBy cmp a c = .eq := by
  obtain ⟨v, w, o, rfl, rfl, hvw⟩ := ha
  obtain ⟨u, w', o', rfl, heq, huw⟩ := hc
  obtain ⟨rfl, ho⟩ := point.inj heq
  have hlevel : compareInt o o' = .eq := compareInt_eq_iff.mpr (by omega)
  rw [compareBy_point_point, Std.TransCmp.eq_trans hvw (Std.OrientedCmp.eq_symm huw), hlevel]
  rfl

/-- A place at or above the lower neighbour is level with it or at or above the
upper neighbour. -/
theorem Adjacent.of_isLE (h : Adjacent cmp a b) (hac : (Cut.compareBy cmp a c).isLE) :
    Adjacent cmp c b ∨ (Cut.compareBy cmp b c).isLE := by
  obtain ⟨v, w, o, rfl, rfl, hvw⟩ := h
  cases c with
  | bot => simp at hac
  | top => exact Or.inr rfl
  | point u p =>
    rw [compareBy_point_point, Ordering.isLE_then_iff_or] at hac
    have hwv : cmp w v = .eq := Std.OrientedCmp.eq_symm hvw
    rcases hac with hvu | ⟨hvu, hop⟩
    · right
      rw [compareBy_point_point, Std.TransCmp.lt_of_eq_of_lt hwv hvu]
      rfl
    · rcases Int.lt_or_eq_of_le (compareInt_isLE_iff.mp hop) with hlt | rfl
      · right
        rw [compareBy_point_point, Std.TransCmp.eq_trans hwv hvu]
        exact compareInt_isLE_iff.mpr (Int.add_one_le_of_lt hlt)
      · exact Or.inl ⟨u, w, o, rfl, rfl, Std.TransCmp.eq_trans (Std.OrientedCmp.eq_symm hvu) hvw⟩

/-- A place at or below the upper neighbour is level with it or at or below the
lower neighbour. -/
theorem Adjacent.of_isLE_right (h : Adjacent cmp a b) (hcb : (Cut.compareBy cmp c b).isLE) :
    Adjacent cmp a c ∨ (Cut.compareBy cmp c a).isLE := by
  obtain ⟨v, w, o, rfl, rfl, hvw⟩ := h
  cases c with
  | top => simp at hcb
  | bot => exact Or.inr rfl
  | point u p =>
    rw [compareBy_point_point, Ordering.isLE_then_iff_or] at hcb
    have hwv : cmp w v = .eq := Std.OrientedCmp.eq_symm hvw
    rcases hcb with huw | ⟨huw, hpo⟩
    · right
      rw [compareBy_point_point, Std.TransCmp.lt_of_lt_of_eq huw hwv]
      rfl
    · rcases Int.lt_or_eq_of_le (compareInt_isLE_iff.mp hpo) with hlt | rfl
      · right
        rw [compareBy_point_point, Std.TransCmp.eq_trans huw hwv]
        exact compareInt_isLE_iff.mpr (Int.le_of_lt_add_one hlt)
      · exact Or.inl ⟨v, u, o, rfl, rfl, Std.TransCmp.eq_trans hvw (Std.OrientedCmp.eq_symm huw)⟩

/-- A place below the upper neighbour is at or below the lower one. -/
theorem Adjacent.isLE_left (h : Adjacent cmp a b) (hcb : Cut.compareBy cmp c b = .lt) :
    (Cut.compareBy cmp c a).isLE := by
  rcases h.of_isLE_right (isLE_of_lt hcb) with hadj | hle
  · have hlevel := h.level hadj
    rw [hcb] at hlevel
    exact absurd hlevel (by decide)
  · exact hle

/-- A place above the lower neighbour is at or above the upper one. -/
theorem Adjacent.isLE_right (h : Adjacent cmp a b) (hac : Cut.compareBy cmp a c = .lt) :
    (Cut.compareBy cmp b c).isLE := by
  rcases h.of_isLE (isLE_of_lt hac) with hadj | hle
  · have hlevel := h.level_left hadj
    rw [hac] at hlevel
    exact absurd hlevel (by decide)
  · exact hle

end Cut

end PgRange.Math
