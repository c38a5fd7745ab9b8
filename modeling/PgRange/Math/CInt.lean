import Mathlib.Data.Int.Basic
import Mathlib.Tactic.Ring

/-!
# Readings of the C type `int`

An integer computation of a C program can be read in two ways: with the
two's-complement wrap-around of 32-bit words, or over the unbounded integers.
Both apply some normalisation to the result of every operation; the identity
is the unbounded one. `CInt` packages a normalisation with the facts that hold
in either reading: it is invisible on values that fit and on everything between
two values it leaves alone, and it commutes with addition and change of sign up
to a final normalisation. In a comparison with an unsigned word the machine also
takes a signed operand for an unsigned one, which changes the values below zero.

A model that is written once over a `CInt` can then be compared with itself
under the two readings.
-/

set_option autoImplicit false

namespace PgRange.Math

/-- The value fits a signed 32-bit word. -/
def FitsInt32 (x : ℤ) : Prop := -2147483648 ≤ x ∧ x ≤ 2147483647

instance : DecidablePred FitsInt32 := fun x => by
  unfold FitsInt32
  infer_instance

/-- A reading of C's `int`: what is kept of the result of an operation. -/
structure CInt where
  wrap : ℤ → ℤ
  wrap_of_fits : ∀ {x}, FitsInt32 x → wrap x = x
  wrap_of_between : ∀ {lo hi x}, wrap lo = lo → wrap hi = hi → lo ≤ x → x ≤ hi → wrap x = x
  wrap_add_wrap : ∀ x y, wrap (x + wrap y) = wrap (x + y)
  wrap_neg_wrap : ∀ x, wrap (-wrap x) = wrap (-x)
  /-- What a signed value becomes when it is compared with an unsigned 64-bit word. -/
  word : ℤ → ℤ
  word_of_nonneg : ∀ {x}, 0 ≤ x → x < 9223372036854775808 → word x = x

namespace CInt

/-- Two's-complement wrap onto 32 bits. -/
def wrap32 (x : ℤ) : ℤ := (x + 2147483648) % 4294967296 - 2147483648

theorem wrap32_fits (x : ℤ) : FitsInt32 (wrap32 x) := by
  unfold FitsInt32 wrap32
  omega

theorem wrap32_eq_iff (x : ℤ) : wrap32 x = x ↔ FitsInt32 x := by
  unfold FitsInt32 wrap32
  omega

/-- The machine reading: every result is reduced to 32 bits. -/
def int32 : CInt where
  wrap := wrap32
  wrap_of_fits h := (wrap32_eq_iff _).mpr h
  wrap_of_between hlo hhi hle hge := by
    rw [wrap32_eq_iff] at hlo hhi ⊢
    exact ⟨Int.le_trans hlo.1 hle, Int.le_trans hge hhi.2⟩
  wrap_add_wrap x y := by
    unfold wrap32
    omega
  wrap_neg_wrap x := by
    unfold wrap32
    omega
  word x := x % 18446744073709551616
  word_of_nonneg h h' := by omega

/-- The mathematical reading: nothing is lost. -/
def unbounded : CInt where
  wrap := id
  wrap_of_fits _ := rfl
  wrap_of_between _ _ _ _ := rfl
  wrap_add_wrap _ _ := rfl
  wrap_neg_wrap _ := rfl
  word := id
  word_of_nonneg _ _ := rfl

@[simp] theorem int32_wrap (x : ℤ) : int32.wrap x = wrap32 x := rfl

@[simp] theorem unbounded_wrap (x : ℤ) : unbounded.wrap x = x := rfl

@[simp] theorem unbounded_word (x : ℤ) : unbounded.word x = x := rfl

variable (A : CInt)

theorem wrap_wrap (x : ℤ) : A.wrap (A.wrap x) = A.wrap x := by
  simpa using A.wrap_add_wrap 0 x

theorem wrap_zero : A.wrap 0 = 0 := A.wrap_of_fits (by decide)

theorem wrap_wrap_add (x y : ℤ) : A.wrap (A.wrap x + y) = A.wrap (x + y) := by
  rw [Int.add_comm, A.wrap_add_wrap, Int.add_comm]

theorem wrap_wrap_sub (x y : ℤ) : A.wrap (A.wrap x - y) = A.wrap (x - y) := by
  rw [Int.sub_eq_add_neg, A.wrap_wrap_add, ← Int.sub_eq_add_neg]

theorem wrap_sub_wrap (x y : ℤ) : A.wrap (x - A.wrap y) = A.wrap (x - y) := by
  rw [Int.sub_eq_add_neg, ← A.wrap_add_wrap, A.wrap_neg_wrap, A.wrap_add_wrap,
    ← Int.sub_eq_add_neg]

end CInt

end PgRange.Math
