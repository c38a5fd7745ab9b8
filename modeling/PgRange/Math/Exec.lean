import Mathlib.Logic.Basic

/-!
# Programs that change a state and may fail

A program starts from a state and ends in one, with a result or with an error. What it has changed
before it fails stays changed. `Ensures` says what holds when a program returns and when it fails,
and it is found step by step along the program.

## Main definitions

* `Exec` — the programs, with `Exec.get`, `Exec.set` and `Exec.lift`
* `Exec.Ensures` — what holds after a program

## Main results

* `Exec.ensures_bind` and the rules for the other programs
* `Exec.Ensures.mono` — the rule of consequence
-/

set_option autoImplicit false

namespace PgRange.Math

/-- `Q` holds of the result of a computation, or `E` if it has none. -/
def Returns {ε α : Type} (x : Except ε α) (Q : α → Prop) (E : Prop) : Prop :=
  match x with
  | .ok a => Q a
  | .error _ => E

section Returns

variable {ε α β : Type} {x : Except ε α} {Q Q' : α → Prop} {R : β → Prop} {E E' : Prop}

theorem Returns.mono (h : Returns x Q E) (hQ : ∀ a, Q a → Q' a) (hE : E → E') :
    Returns x Q' E' := by
  cases x with
  | error e => exact hE h
  | ok a => exact hQ a h

theorem returns_bind {f : α → Except ε β} :
    Returns (x >>= f) R E ↔ Returns x (fun a => Returns (f a) R E) E := by
  cases x <;> rfl

theorem returns_map {f : α → β} : Returns (x.map f) R E ↔ Returns x (fun a => R (f a)) E := by
  cases x <;> rfl

end Returns

/-- A program with states in `σ`, errors in `ε` and results in `α`. -/
def Exec (ε σ α : Type) : Type := σ → Except ε α × σ

namespace Exec

variable {ε σ α β : Type}

instance : Monad (Exec ε σ) where
  pure a s := (.ok a, s)
  bind m f s :=
    match m s with
    | (.ok a, s') => f a s'
    | (.error e, s') => (.error e, s')

/-- Read the state. -/
def get : Exec ε σ σ := fun s => (.ok s, s)

/-- Change the state. -/
def set (s : σ) : Exec ε σ Unit := fun _ => (.ok (), s)

/-- Go on with a result, or fail. -/
def lift (x : Except ε α) : Exec ε σ α := fun s => (x, s)

/-- From state `s` on, `Q` holds if the program returns, and `E` if it fails. -/
def Ensures (m : Exec ε σ α) (s : σ) (Q : α → σ → Prop) (E : σ → Prop) : Prop :=
  match m s with
  | (.ok a, s') => Q a s'
  | (.error _, s') => E s'

variable {m : Exec ε σ α} {f : α → Exec ε σ β} {s : σ} {Q Q' : α → σ → Prop} {R : β → σ → Prop}
  {E E' : σ → Prop}

theorem Ensures.mono (h : m.Ensures s Q E) (hQ : ∀ a s', Q a s' → Q' a s')
    (hE : ∀ s', E s' → E' s') : m.Ensures s Q' E' := by
  revert h
  unfold Ensures
  rcases m s with ⟨e | a, s'⟩
  · exact hE s'
  · exact hQ a s'

theorem bind_apply : (m >>= f) s =
    match m s with
    | (.ok a, s') => f a s'
    | (.error e, s') => (.error e, s') := rfl

theorem ensures_bind :
    (m >>= f).Ensures s R E ↔ m.Ensures s (fun a s' => (f a).Ensures s' R E) E := by
  unfold Ensures
  rw [bind_apply]
  rcases m s with ⟨e | a, s'⟩
  · rfl
  · rfl

@[simp] theorem ensures_pure {a : α} : (pure a : Exec ε σ α).Ensures s Q E ↔ Q a s := Iff.rfl

@[simp] theorem ensures_get {Q : σ → σ → Prop} :
    (get : Exec ε σ σ).Ensures s Q E ↔ Q s s := Iff.rfl

@[simp] theorem ensures_set {s' : σ} {Q : Unit → σ → Prop} :
    (set s' : Exec ε σ Unit).Ensures s Q E ↔ Q () s' := Iff.rfl

theorem ensures_lift {x : Except ε α} :
    (lift x : Exec ε σ α).Ensures s Q E ↔ Returns x (fun a => Q a s) (E s) := by
  cases x <;> rfl

end Exec

end PgRange.Math
