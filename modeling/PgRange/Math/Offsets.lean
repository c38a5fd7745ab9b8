import Mathlib.Data.List.Perm.Basic
import Mathlib.Data.List.Range

/-!
# Lists of offsets

A list of offsets, counted from one, picks members of another list. If two lists of offsets
together are a rearrangement of all offsets, then the members that they pick are a rearrangement of
the whole list, so none is lost and none is picked twice.

## Main definitions

* `pickAt` — the members at some offsets

## Main results

* `pickAt_perm` — a partition of the offsets is one of the members
* `perm_split_off` — offsets that are taken out of both parts are left over
-/

set_option autoImplicit false

namespace PgRange.Math

variable {β : Type} {l : List β} {offs offs' left right : List ℕ}

/-- The members of a list at some offsets. -/
def pickAt (l : List β) (offs : List ℕ) : List β :=
  offs.filterMap fun off => l[off - 1]?

@[simp] theorem pickAt_nil (l : List β) : pickAt l [] = [] := rfl

theorem pickAt_append (l : List β) (offs offs' : List ℕ) :
    pickAt l (offs ++ offs') = pickAt l offs ++ pickAt l offs' :=
  List.filterMap_append

theorem mem_pickAt {x : β} : x ∈ pickAt l offs ↔ ∃ off ∈ offs, l[off - 1]? = some x :=
  List.mem_filterMap

theorem mem_of_mem_pickAt {x : β} (h : x ∈ pickAt l offs) : x ∈ l := by
  obtain ⟨off, -, hx⟩ := mem_pickAt.mp h
  exact List.mem_of_getElem? hx

/-- All offsets pick all members. -/
@[simp] theorem pickAt_range' (l : List β) : pickAt l (List.range' 1 l.length) = l := by
  induction l using List.reverseRecOn with
  | nil => rfl
  | append_singleton l x ih =>
    have hinit : (List.range' 1 l.length).filterMap (fun off => (l ++ [x])[off - 1]?) =
        pickAt l (List.range' 1 l.length) := by
      apply List.filterMap_congr
      intro off hoff
      rw [List.mem_range'_1] at hoff
      exact List.getElem?_append_left (by omega)
    rw [List.length_append, List.length_singleton, List.range'_1_concat, pickAt,
      List.filterMap_append, hinit, ih]
    simp

/-- A partition of the offsets is one of the members. -/
theorem pickAt_perm (h : (left ++ right).Perm (List.range' 1 l.length)) :
    (pickAt l left ++ pickAt l right).Perm l := by
  rw [← pickAt_append]
  have := h.filterMap fun off => l[off - 1]?
  rwa [show (List.range' 1 l.length).filterMap (fun off => l[off - 1]?) = l from
    pickAt_range' l] at this

/-- Offsets of the list pick as many members. -/
theorem length_pickAt (h : ∀ off ∈ offs, 1 ≤ off ∧ off ≤ l.length) :
    (pickAt l offs).length = offs.length := by
  induction offs with
  | nil => rfl
  | cons off offs ih =>
    have hoff := h off List.mem_cons_self
    have hcons : pickAt l (off :: offs) = l.get ⟨off - 1, by omega⟩ :: pickAt l offs := by
      simp [pickAt, show off - 1 < l.length by omega]
    rw [hcons, List.length_cons, List.length_cons,
      ih fun off' hoff' => h off' (List.mem_cons_of_mem off hoff')]

theorem pickAt_ne_nil (h : ∀ off ∈ offs, 1 ≤ off ∧ off ≤ l.length) (hne : offs ≠ []) :
    pickAt l offs ≠ [] := by
  rw [← List.length_pos_iff, length_pickAt h]
  exact List.length_pos_iff.mpr hne

/-- Offsets that are taken out of both parts are left over. -/
theorem perm_split_off {all : List ℕ} (h : (left ++ right).Perm all) (out : ℕ → Bool) :
    (left.filter (fun off => !out off) ++ right.filter (fun off => !out off) ++
      all.filter out).Perm all := by
  rw [← List.filter_append]
  have hkeep := h.filter fun off => !out off
  exact ((hkeep.append_right _).trans List.perm_append_comm).trans (List.filter_append_perm out all)

end PgRange.Math
