import Mathlib.Data.List.Basic
import Mathlib.Data.Nat.Count

/-!
# Guarded loops

A C loop of the shape `while (cond) { step; if (bad) raise; }`, as a value:
the condition, the round, and the test that ends a round by raising. Running it
takes a bound on the number of rounds; a run that exhausts the bound ends in a
`timeout`, so termination is a statement about the result and never assumed.

`trace` lists the states a run goes through, the state of a round that raises
included, so that a statement about every value a local variable takes is a
statement about a list. It also tells at which states the condition is evaluated.

## Main results

* `run_path`, `mem_trace_path` — a run follows any sequence of uneventful rounds
* `run_inv`, `run_total` — the invariant rule and the termination rule
* `run_reaches` — both together: an invariant that also guarantees the next round
* `run_congr` — two loops that agree on the states of an invariant run alike
* `Renames.run`, `Renames.trace` — a loop that does to renamed states what another does
  to the states
* `run_scan` — a loop that moves an index over a sorted array while a test holds
  stops at the number of entries that pass the test
* `run_advance` — a loop that repeats one move until a target is in reach either
  gets there or raises when it has made too many moves
* `IsCursor.le_iff` — how far an index gets that is moved in several rounds
-/

set_option autoImplicit false

namespace PgRange.Math

/-- A sequence of two computations returns what the second one makes of the first. -/
theorem bind_eq_ok_iff {ε α β : Type} {x : Except ε α} {f : α → Except ε β} {b : β} :
    x >>= f = .ok b ↔ ∃ a, x = .ok a ∧ f a = .ok b := by
  cases x with
  | error e => simp [bind, Except.bind]
  | ok a => simp [bind, Except.bind]

theorem map_eq_error_iff {ε α β : Type} {x : Except ε α} {f : α → β} {e : ε} :
    x.map f = .error e ↔ x = .error e := by
  cases x with
  | error e => simp [Except.map]
  | ok a => simp [Except.map]

/-- A computation that succeeds on every entry of a list succeeds on the list. -/
theorem mapM_eq_ok {ε α β : Type} {f : α → Except ε β} {g : α → β} {xs : List α}
    (h : ∀ x ∈ xs, f x = .ok (g x)) : xs.mapM f = .ok (xs.map g) := by
  induction xs with
  | nil => rfl
  | cons x xs ih =>
    have hrest := ih fun y hy => h y (List.mem_cons_of_mem x hy)
    rw [List.mapM_cons, h x List.mem_cons_self, hrest]
    rfl

/-- Two computations that agree on the entries of a list agree on the list. -/
theorem mapM_congr {ε α β : Type} {f g : α → Except ε β} {xs : List α}
    (h : ∀ x ∈ xs, f x = g x) : xs.mapM f = xs.mapM g := by
  induction xs with
  | nil => rfl
  | cons x xs ih =>
    have hrest := ih fun y hy => h y (List.mem_cons_of_mem x hy)
    rw [List.mapM_cons, List.mapM_cons, h x List.mem_cons_self, hrest]

/-- What a computation on the entries of a list returns beside each result is known
beforehand. -/
theorem mapM_beside {ε α β γ : Type} (f : α → Except ε β) (g : α → γ) (xs : List α) :
    (xs.mapM fun x => (f x).map fun y => (g x, y)) =
      (xs.mapM f).map fun ys => (xs.map g).zip ys := by
  induction xs with
  | nil => rfl
  | cons x xs ih =>
    rw [List.mapM_cons, List.mapM_cons, ih]
    cases f x with
    | error e => rfl
    | ok y =>
      cases xs.mapM f with
      | error e => rfl
      | ok ys => rfl

theorem length_of_mapM_eq_ok {ε α β : Type} {f : α → Except ε β} {xs : List α} {ys : List β}
    (h : xs.mapM f = .ok ys) : ys.length = xs.length := by
  induction xs generalizing ys with
  | nil =>
    obtain rfl := Except.ok.inj h
    rfl
  | cons x xs ih =>
    rw [List.mapM_cons] at h
    obtain ⟨y, -, h⟩ := bind_eq_ok_iff.mp h
    obtain ⟨ys', hrest, h⟩ := bind_eq_ok_iff.mp h
    obtain rfl := Except.ok.inj h
    rw [List.length_cons, List.length_cons, ih hrest]

theorem ok_ne_error {ε α : Type} {a : α} {e : ε} : (Except.ok a : Except ε α) ≠ .error e := nofun

theorem error_ne_error {ε α : Type} {e e' : ε} (h : e' ≠ e) :
    (Except.error e' : Except ε α) ≠ .error e := fun heq => h (Except.error.inj heq)

/-- A sequence of two computations raises only what one of them raises. -/
theorem bind_ne_error {ε α β : Type} {x : Except ε α} {f : α → Except ε β} {e : ε}
    (hx : x ≠ .error e) (hf : ∀ a, x = .ok a → f a ≠ .error e) : x >>= f ≠ .error e := by
  cases x with
  | error e' => exact fun h => hx (congrArg Except.error (Except.error.inj h))
  | ok a => exact hf a rfl

/-- A choice of two computations raises only what one of them raises. -/
theorem ite_ne_error {ε α : Type} {c : Prop} [Decidable c] {x y : Except ε α} {e : ε}
    (hx : x ≠ .error e) (hy : y ≠ .error e) : (if c then x else y) ≠ .error e := by
  split_ifs
  · exact hx
  · exact hy

/-- Two computations that fail alike can be done in either order. -/
theorem bind_comm_of_error {ε α β γ : Type} {x : Except ε α} {y : Except ε β} {e : ε}
    (hx : ∀ e', x = .error e' → e' = e) (hy : ∀ e', y = .error e' → e' = e)
    (f : α → β → Except ε γ) :
    (x >>= fun a => y >>= fun b => f a b) = y >>= fun b => x >>= fun a => f a b := by
  cases x with
  | error e' =>
    cases y with
    | error e'' => rw [hx e' rfl, hy e'' rfl]; rfl
    | ok b => rfl
  | ok a =>
    cases y with
    | error e'' => rfl
    | ok b => rfl

/-- A loop with a guard, a round that may raise, and a test at the end of the
round that may raise as well. -/
structure Loop (ε σ : Type*) where
  cond : σ → Bool
  step : σ → Except ε σ
  check : σ → Option ε

namespace Loop

variable {ε σ : Type*}

/-- Run the loop for at most `fuel` rounds. -/
def run (p : Loop ε σ) (timeout : ε) : ℕ → σ → Except ε σ
  | 0, s => if p.cond s then .error timeout else .ok s
  | fuel + 1, s =>
    if p.cond s then
      match p.step s with
      | .error e => .error e
      | .ok s' =>
        match p.check s' with
        | some e => .error e
        | none => run p timeout fuel s'
    else .ok s

/-- The states a run of at most `fuel` rounds goes through, each with whether the
condition is evaluated there. -/
def trace (p : Loop ε σ) : ℕ → σ → List (σ × Bool)
  | 0, s => [(s, true)]
  | fuel + 1, s =>
    if p.cond s then
      match p.step s with
      | .error _ => [(s, true)]
      | .ok s' =>
        match p.check s' with
        | some _ => [(s, true), (s', false)]
        | none => (s, true) :: trace p fuel s'
    else [(s, true)]

/-- A round that neither ends the loop nor raises. -/
def Round (p : Loop ε σ) (s s' : σ) : Prop :=
  p.cond s = true ∧ p.step s = .ok s' ∧ p.check s' = none

variable {p q : Loop ε σ} {timeout : ε} {s s' : σ}

theorem run_done (h : p.cond s = false) (fuel : ℕ) : p.run timeout fuel s = .ok s := by
  cases fuel <;> simp [run, h]

theorem run_round (h : p.Round s s') (fuel : ℕ) :
    p.run timeout (fuel + 1) s = p.run timeout fuel s' := by
  obtain ⟨hcond, hstep, hcheck⟩ := h
  simp [run, hcond, hstep, hcheck]

theorem trace_done (h : p.cond s = false) (fuel : ℕ) : p.trace fuel s = [(s, true)] := by
  cases fuel <;> simp [trace, h]

theorem trace_round (h : p.Round s s') (fuel : ℕ) :
    p.trace (fuel + 1) s = (s, true) :: p.trace fuel s' := by
  obtain ⟨hcond, hstep, hcheck⟩ := h
  simp [trace, hcond, hstep, hcheck]

/-- A round whose final test raises ends the run. -/
theorem run_raise {e : ε} (hcond : p.cond s = true) (hstep : p.step s = .ok s')
    (hcheck : p.check s' = some e) (fuel : ℕ) :
    p.run timeout (fuel + 1) s = .error e := by
  simp [run, hcond, hstep, hcheck]

/-- A run raises only what a round, a test or the bound on the rounds raises. -/
theorem run_ne_error {e : ε} (htimeout : timeout ≠ e) (hstep : ∀ s, p.step s ≠ .error e)
    (hcheck : ∀ s, p.check s ≠ some e) (fuel : ℕ) (s : σ) : p.run timeout fuel s ≠ .error e := by
  induction fuel generalizing s with
  | zero =>
    rw [run]
    split_ifs
    · exact fun h => htimeout (Except.error.inj h)
    · nofun
  | succ fuel ih =>
    rw [run]
    split_ifs
    · cases hs : p.step s with
      | error e' => exact fun h => hstep s (hs.trans h)
      | ok s' =>
        dsimp only
        cases hc : p.check s' with
        | some e' => exact fun h => hcheck s' (hc.trans (congrArg some (Except.error.inj h)))
        | none => exact ih s'
    · nofun

/-- A run starts by evaluating the condition. -/
theorem mem_trace_self (p : Loop ε σ) (fuel : ℕ) (s : σ) : (s, true) ∈ p.trace fuel s := by
  cases fuel with
  | zero => simp [trace]
  | succ fuel =>
    rw [trace]
    split_ifs
    · split
      · simp
      · split <;> simp
    · simp

/-- A run follows every sequence of uneventful rounds. -/
theorem run_path (f : ℕ → σ) (n : ℕ) (hround : ∀ i < n, p.Round (f i) (f (i + 1)))
    (fuel : ℕ) : p.run timeout (n + fuel) (f 0) = p.run timeout fuel (f n) := by
  induction n generalizing f with
  | zero => rw [Nat.zero_add]
  | succ n ih =>
    rw [Nat.add_right_comm, run_round (hround 0 (Nat.succ_pos n))]
    exact ih (fun i => f (i + 1)) fun i hi => hround (i + 1) (Nat.succ_lt_succ hi)

/-- The trace reaches the end of every sequence of uneventful rounds. -/
theorem mem_trace_path (f : ℕ → σ) (n : ℕ) (hround : ∀ i < n, p.Round (f i) (f (i + 1)))
    {fuel : ℕ} (hfuel : n ≤ fuel) : (f n, true) ∈ p.trace fuel (f 0) := by
  induction n generalizing f fuel with
  | zero => exact mem_trace_self p fuel (f 0)
  | succ n ih =>
    obtain ⟨fuel, rfl⟩ : ∃ m, fuel = m + 1 := ⟨fuel - 1, by omega⟩
    rw [trace_round (hround 0 (Nat.succ_pos n))]
    refine List.mem_cons_of_mem _ ?_
    exact ih (fun i => f (i + 1)) (fun i hi => hround (i + 1) (Nat.succ_lt_succ hi)) (by omega)

/-- A run that returns has either left the loop at once or made an uneventful round
and returned from there. -/
theorem run_eq_ok {fuel : ℕ} {s t : σ} (hrun : p.run timeout fuel s = .ok t) :
    (p.cond s = false ∧ s = t) ∨
      ∃ n s', fuel = n + 1 ∧ p.Round s s' ∧ p.run timeout n s' = .ok t := by
  cases hcond : p.cond s with
  | false =>
    rw [run_done hcond, Except.ok.injEq] at hrun
    exact Or.inl ⟨rfl, hrun⟩
  | true =>
    cases fuel with
    | zero => simp [run, hcond] at hrun
    | succ n =>
      cases hstep : p.step s with
      | error e => simp [run, hcond, hstep] at hrun
      | ok s' =>
        cases hcheck : p.check s' with
        | some e => simp [run, hcond, hstep, hcheck] at hrun
        | none =>
          have hround : p.Round s s' := ⟨hcond, hstep, hcheck⟩
          rw [run_round hround] at hrun
          exact Or.inr ⟨n, s', rfl, hround, hrun⟩

/-- The trace reaches the state in which the loop is left. -/
theorem mem_trace_of_run (fuel : ℕ) {s t : σ} (hrun : p.run timeout fuel s = .ok t) :
    (t, true) ∈ p.trace fuel s := by
  induction fuel generalizing s with
  | zero =>
    rcases run_eq_ok hrun with ⟨-, rfl⟩ | ⟨n, s', hfuel, -, -⟩
    · exact mem_trace_self p 0 s
    · omega
  | succ fuel ih =>
    rcases run_eq_ok hrun with ⟨-, rfl⟩ | ⟨n, s', hfuel, hround, hrest⟩
    · exact mem_trace_self p (fuel + 1) s
    · obtain rfl : fuel = n := Nat.succ.inj hfuel
      rw [trace_round hround]
      exact List.mem_cons_of_mem _ (ih hrest)

/-- The invariant rule: what every uneventful round preserves holds when the
loop is left, and the guard is then false. -/
theorem run_inv (Inv : σ → Prop) (hround : ∀ s s', Inv s → p.Round s s' → Inv s')
    (fuel : ℕ) {s t : σ} (hs : Inv s) (hrun : p.run timeout fuel s = .ok t) :
    Inv t ∧ p.cond t = false := by
  induction fuel generalizing s with
  | zero =>
    rcases run_eq_ok hrun with ⟨hcond, rfl⟩ | ⟨n, s', hfuel, -, -⟩
    · exact ⟨hs, hcond⟩
    · omega
  | succ fuel ih =>
    rcases run_eq_ok hrun with ⟨hcond, rfl⟩ | ⟨n, s', hfuel, hr, hrest⟩
    · exact ⟨hs, hcond⟩
    · obtain rfl : fuel = n := Nat.succ.inj hfuel
      exact ih (hround s s' hs hr) hrest

/-- What every uneventful round preserves holds wherever the condition is evaluated. -/
theorem trace_inv (Inv : σ → Prop) (hround : ∀ s s', Inv s → p.Round s s' → Inv s')
    (fuel : ℕ) {s t : σ} (hs : Inv s) (ht : (t, true) ∈ p.trace fuel s) : Inv t := by
  induction fuel generalizing s with
  | zero =>
    simp only [trace, List.mem_singleton, Prod.mk.injEq, and_true] at ht
    exact ht ▸ hs
  | succ fuel ih =>
    cases hcond : p.cond s with
    | false =>
      simp only [trace_done hcond, List.mem_singleton, Prod.mk.injEq, and_true] at ht
      exact ht ▸ hs
    | true =>
      cases hstep : p.step s with
      | error e =>
        simp only [trace, hcond, ↓reduceIte, hstep, List.mem_singleton, Prod.mk.injEq,
          and_true] at ht
        exact ht ▸ hs
      | ok s' =>
        cases hcheck : p.check s' with
        | some e =>
          simp only [trace, hcond, ↓reduceIte, hstep, hcheck, List.mem_cons, Prod.mk.injEq,
            and_true, Bool.true_eq_false, and_false, List.not_mem_nil, or_self, or_false] at ht
          exact ht ▸ hs
        | none =>
          have hr : p.Round s s' := ⟨hcond, hstep, hcheck⟩
          rw [trace_round hr, List.mem_cons, Prod.mk.injEq] at ht
          rcases ht with ⟨rfl, -⟩ | ht
          · exact hs
          · exact ih (hround s s' hs hr) ht

/-- A quantity that no round decreases is greatest in the state in which the loop is
left. -/
theorem le_of_mem_trace (f : σ → ℕ) (hround : ∀ s s', p.Round s s' → f s ≤ f s') (fuel : ℕ)
    {s t r : σ} (hrun : p.run timeout fuel s = .ok t) (hr : (r, true) ∈ p.trace fuel s) :
    f r ≤ f t := by
  induction fuel generalizing s r with
  | zero =>
    rcases run_eq_ok hrun with ⟨hcond, rfl⟩ | ⟨n, s', hfuel, -, -⟩
    · rw [trace_done hcond, List.mem_singleton, Prod.mk.injEq] at hr
      rw [hr.1]
    · omega
  | succ fuel ih =>
    rcases run_eq_ok hrun with ⟨hcond, rfl⟩ | ⟨n, s', hfuel, hr', hrest⟩
    · rw [trace_done hcond, List.mem_singleton, Prod.mk.injEq] at hr
      rw [hr.1]
    · obtain rfl : fuel = n := Nat.succ.inj hfuel
      -- the first state is below the next one, which the rest of the trace starts with
      have hnext : f s' ≤ f t := ih hrest (mem_trace_self p fuel s')
      rw [trace_round hr', List.mem_cons, Prod.mk.injEq] at hr
      rcases hr with ⟨rfl, -⟩ | hr
      · exact le_trans (hround r s' hr') hnext
      · exact ih hrest hr

/-- Two loops that agree on the states of an invariant run alike from such a
state, and go through the same states. -/
theorem run_congr (Inv : σ → Prop)
    (hcond : ∀ s, Inv s → p.cond s = q.cond s)
    (hstep : ∀ s, Inv s → p.cond s = true → p.step s = q.step s)
    (hcheck : ∀ s s', Inv s → p.cond s = true → p.step s = .ok s' → p.check s' = q.check s')
    (hround : ∀ s s', Inv s → p.Round s s' → Inv s')
    (fuel : ℕ) {s : σ} (hs : Inv s) :
    p.run timeout fuel s = q.run timeout fuel s ∧ p.trace fuel s = q.trace fuel s := by
  induction fuel generalizing s with
  | zero => simp [run, trace, hcond s hs]
  | succ fuel ih =>
    cases hc : p.cond s with
    | false =>
      have hc' : q.cond s = false := by rw [← hcond s hs, hc]
      simp [run, trace, hc, hc']
    | true =>
      have hc' : q.cond s = true := by rw [← hcond s hs, hc]
      cases hp : p.step s with
      | error e =>
        have hq : q.step s = .error e := by rw [← hstep s hs hc, hp]
        simp [run, trace, hc, hc', hp, hq]
      | ok s' =>
        have hq : q.step s = .ok s' := by rw [← hstep s hs hc, hp]
        have hck := hcheck s s' hs hc hp
        cases hpc : p.check s' with
        | some e => simp [run, trace, hc, hc', hp, hq, ← hck, hpc]
        | none =>
          have hr : p.Round s s' := ⟨hc, hp, hpc⟩
          have hr' : q.Round s s' := ⟨hc', hq, hck ▸ hpc⟩
          rw [run_round hr, run_round hr', trace_round hr, trace_round hr']
          obtain ⟨hrun, htrace⟩ := ih (hround s s' hs hr)
          exact ⟨hrun, by rw [htrace]⟩

/-- The loop `q` does to renamed states what `p` does to the states. -/
structure Renames {τ : Type*} (g : σ → τ) (p : Loop ε σ) (q : Loop ε τ) : Prop where
  cond : ∀ s, q.cond (g s) = p.cond s
  step : ∀ s, q.step (g s) = (p.step s).map g
  check : ∀ s, q.check (g s) = p.check s

/-- Renaming the states renames the result. -/
theorem Renames.run {τ : Type*} {g : σ → τ} {p : Loop ε σ} {q : Loop ε τ}
    (h : Renames g p q) (timeout : ε) (fuel : ℕ) (s : σ) :
    q.run timeout fuel (g s) = (p.run timeout fuel s).map g := by
  obtain ⟨hcond, hstep, hcheck⟩ := h
  induction fuel generalizing s with
  | zero => cases hc : p.cond s <;> simp [Loop.run, hcond, hc, Except.map]
  | succ fuel ih =>
    cases hc : p.cond s with
    | false => simp [Loop.run, hcond, hc, Except.map]
    | true =>
      cases hp : p.step s with
      | error e => simp [Loop.run, hcond, hc, hstep, hp, Except.map]
      | ok s' =>
        cases hk : p.check s' with
        | some e => simp [Loop.run, hcond, hc, hstep, hp, hcheck, hk, Except.map]
        | none => simp [Loop.run, hcond, hc, hstep, hp, hcheck, hk, ih, Except.map]

/-- Renaming the states renames the trace. -/
theorem Renames.trace {τ : Type*} {g : σ → τ} {p : Loop ε σ} {q : Loop ε τ}
    (h : Renames g p q) (fuel : ℕ) (s : σ) :
    q.trace fuel (g s) = (p.trace fuel s).map (Prod.map g id) := by
  obtain ⟨hcond, hstep, hcheck⟩ := h
  induction fuel generalizing s with
  | zero => simp [Loop.trace]
  | succ fuel ih =>
    cases hc : p.cond s with
    | false => simp [Loop.trace, hcond, hc]
    | true =>
      cases hp : p.step s with
      | error e => simp [Loop.trace, hcond, hc, hstep, hp, Except.map]
      | ok s' =>
        cases hk : p.check s' with
        | some e => simp [Loop.trace, hcond, hc, hstep, hp, hcheck, hk, Except.map]
        | none => simp [Loop.trace, hcond, hc, hstep, hp, hcheck, hk, ih, Except.map]

/-- The rule of total correctness: from every state of the invariant that does not end the
loop, a round leads to such a state again and brings a measure down. -/
theorem run_reaches (Inv : σ → Prop) (measure : σ → ℕ)
    (hround : ∀ s, Inv s → p.cond s = true →
      ∃ s', p.Round s s' ∧ Inv s' ∧ measure s' < measure s)
    {fuel : ℕ} (hs : Inv s) (hfuel : measure s ≤ fuel) :
    ∃ t, p.run timeout fuel s = .ok t ∧ Inv t ∧ p.cond t = false := by
  induction fuel generalizing s with
  | zero =>
    cases hcond : p.cond s with
    | false => exact ⟨s, run_done hcond 0, hs, hcond⟩
    | true =>
      obtain ⟨s', -, -, hlt⟩ := hround s hs hcond
      omega
  | succ fuel ih =>
    cases hcond : p.cond s with
    | false => exact ⟨s, run_done hcond _, hs, hcond⟩
    | true =>
      obtain ⟨s', hr, hs', hlt⟩ := hround s hs hcond
      rw [run_round hr]
      exact ih hs' (by omega)

/-- A loop whose rounds never raise and bring a measure down ends. -/
theorem run_total (measure : σ → ℕ) (hstep : ∀ s, p.cond s = true → ∃ s', p.step s = .ok s' ∧
    p.check s' = none ∧ measure s' < measure s) {fuel : ℕ} (hfuel : measure s ≤ fuel) :
    ∃ t, p.run timeout fuel s = .ok t := by
  obtain ⟨t, hrun, -⟩ := run_reaches (fun _ => True) measure
    (fun s _ hcond => by
      obtain ⟨s', hs', hcheck, hlt⟩ := hstep s hcond
      exact ⟨s', ⟨hcond, hs', hcheck⟩, trivial, hlt⟩) trivial hfuel
  exact ⟨t, hrun⟩

/-- A loop that does not raise the timeout itself, and whose rounds bring a measure down,
does not time out. -/
theorem run_ne_timeout (measure : σ → ℕ) (hstep : ∀ s, p.step s ≠ .error timeout)
    (hcheck : ∀ s, p.check s ≠ some timeout) (hround : ∀ s s', p.Round s s' → measure s' < measure s)
    {fuel : ℕ} (hfuel : measure s < fuel) : p.run timeout fuel s ≠ .error timeout := by
  induction fuel generalizing s with
  | zero => omega
  | succ fuel ih =>
    cases hcond : p.cond s with
    | false =>
      rw [run_done hcond]
      nofun
    | true =>
      cases hs : p.step s with
      | error e =>
        have hne := hstep s
        rw [hs] at hne
        simpa [run, hcond, hs] using hne
      | ok s' =>
        cases hc : p.check s' with
        | some e =>
          have hne := hcheck s'
          rw [hc] at hne
          simpa [run, hcond, hs, hc] using hne
        | none =>
          have hr : p.Round s s' := ⟨hcond, hs, hc⟩
          have := hround s s' hr
          rw [run_round hr]
          exact ih (by omega)

/-! ### Scanning a sorted array -/

/-- The entries that pass a test which no later entry passes without the earlier
ones are the first ones. -/
theorem lt_count_iff {test : ℕ → Prop} [DecidablePred test] {n : ℕ}
    (hdown : ∀ i j, i ≤ j → j < n → test j → test i) {k : ℕ} :
    k < Nat.count test n ↔ k < n ∧ test k := by
  induction n with
  | zero => simp
  | succ n ih =>
    have hdown' : ∀ i j, i ≤ j → j < n → test j → test i :=
      fun i j hij hj => hdown i j hij (Nat.lt_succ_of_lt hj)
    rw [Nat.count_succ]
    by_cases hn : test n
    · have hall : ∀ i ≤ n, test i := fun i hi => hdown i n hi (Nat.lt_succ_self n) hn
      have hcount : Nat.count test n = n :=
        Nat.count_iff_forall.mpr fun i hi => hall i (Nat.le_of_lt hi)
      rw [if_pos hn, hcount]
      exact ⟨fun hk => ⟨hk, hall k (Nat.le_of_lt_succ hk)⟩, fun hk => hk.1⟩
    · rw [if_neg hn, Nat.add_zero, ih hdown']
      constructor
      · rintro ⟨hk, htest⟩
        exact ⟨Nat.lt_succ_of_lt hk, htest⟩
      · rintro ⟨hk, htest⟩
        refine ⟨Nat.lt_of_le_of_ne (Nat.le_of_lt_succ hk) ?_, htest⟩
        rintro rfl
        exact hn htest

/-- A loop that moves an index from `start` over `n` sorted entries while a test
holds stops behind the last entry that passes. -/
theorem run_scan (f : ℕ → σ) (test : ℕ → Prop) [DecidablePred test] {n start : ℕ}
    (hdown : ∀ i j, i ≤ j → j < n → test j → test i)
    (hcond : ∀ k, start ≤ k → p.cond (f k) = (decide (test k) && decide (k < n)))
    (hstep : ∀ k, start ≤ k → p.step (f k) = .ok (f (k + 1)))
    (hcheck : ∀ s, p.check s = none)
    (hstart : start ≤ Nat.count test n) {fuel : ℕ} (hfuel : n ≤ start + fuel) :
    p.run timeout fuel (f start) = .ok (f (Nat.count test n)) := by
  have hle : Nat.count test n ≤ n := Nat.count_le test
  obtain ⟨m, hm⟩ := Nat.exists_eq_add_of_le hstart
  obtain ⟨rest, rfl⟩ : ∃ rest, fuel = m + rest := ⟨fuel - m, by omega⟩
  have hround : ∀ i < m, p.Round (f (start + i)) (f (start + (i + 1))) := by
    intro i hi
    have hk : start + i < Nat.count test n := by omega
    obtain ⟨hlt, htest⟩ := (lt_count_iff hdown).mp hk
    refine ⟨?_, hstep _ (by omega), hcheck _⟩
    rw [hcond _ (by omega), decide_eq_true htest, decide_eq_true hlt]
    rfl
  have hpath : p.run timeout (m + rest) (f (start + 0)) = p.run timeout rest (f (start + m)) :=
    run_path (fun i => f (start + i)) m hround rest
  rw [Nat.add_zero, ← hm] at hpath
  rw [hpath]
  refine run_done ?_ rest
  rw [hcond _ hstart]
  by_contra hne
  rw [Bool.not_eq_false, Bool.and_eq_true, decide_eq_true_eq, decide_eq_true_eq] at hne
  exact absurd ((lt_count_iff hdown).mpr ⟨hne.2, hne.1⟩) (Nat.lt_irrefl _)

/-- A loop that repeats one move while the target is `far`, and raises at move `n`.
It stops in reach of the target unless that is still far at the last move. -/
theorem run_advance (f : ℕ → σ) (far : ℕ → Prop) [DecidablePred far] {n : ℕ} {e : ε}
    (hn : 0 < n) (hdown : ∀ i j, i ≤ j → j < n → far j → far i)
    (hcond : ∀ i < n, (∀ j < i, far j) → p.cond (f i) = decide (far i))
    (hstep : ∀ i < n, far i → p.step (f i) = .ok (f (i + 1)))
    (hcheck : ∀ i, 0 < i → i < n → p.check (f i) = none) (hraise : p.check (f n) = some e)
    {fuel : ℕ} (hfuel : n ≤ fuel) :
    p.run timeout fuel (f 0) =
      if far (n - 1) then .error e else .ok (f (Nat.count far n)) := by
  have hreach : ∀ i, i ≤ Nat.count far n → ∀ j < i, far j := by
    intro i hi j hj
    exact ((lt_count_iff hdown).mp (Nat.lt_of_lt_of_le hj hi)).2
  have hround : ∀ i, i < Nat.count far n → i + 1 < n → p.Round (f i) (f (i + 1)) := by
    intro i hi hlt
    have hfar := ((lt_count_iff hdown).mp hi).2
    refine ⟨?_, hstep i (by omega) hfar, hcheck (i + 1) (by omega) hlt⟩
    rw [hcond i (by omega) (hreach i (Nat.le_of_lt hi)), decide_eq_true hfar]
  by_cases hlast : far (n - 1)
  · -- all moves are made, and the last one raises
    rw [if_pos hlast]
    have hall : Nat.count far n = n := by
      refine Nat.count_iff_forall.mpr fun i hi => ?_
      exact hdown i (n - 1) (by omega) (by omega) hlast
    obtain ⟨rest, rfl⟩ : ∃ rest, fuel = (n - 1) + (rest + 1) := ⟨fuel - n, by omega⟩
    rw [run_path f (n - 1) (fun i hi => hround i (by omega) (by omega))]
    have hmove := hstep (n - 1) (by omega) hlast
    rw [Nat.sub_add_cancel hn] at hmove
    refine run_raise ?_ hmove hraise rest
    rw [hcond _ (by omega) (hreach _ (by omega)), decide_eq_true hlast]
  · -- the target comes into reach before the last move
    rw [if_neg hlast]
    have hlt : Nat.count far n < n := by
      by_contra hge
      have hcount : n - 1 < Nat.count far n := by omega
      exact hlast ((lt_count_iff hdown).mp hcount).2
    obtain ⟨rest, rfl⟩ : ∃ rest, fuel = Nat.count far n + rest :=
      ⟨fuel - Nat.count far n, by omega⟩
    rw [run_path f _ (fun i hi => hround i hi (by omega))]
    refine run_done ?_ rest
    rw [hcond _ hlt (hreach _ le_rfl), decide_eq_false_iff_not]
    intro hfar
    exact Nat.lt_irrefl _ ((lt_count_iff hdown).mpr ⟨hlt, hfar⟩)

end Loop

/-! ### An index that is moved in several rounds -/

/-- An index that in round `i` is moved on over the entries that the round reaches. -/
structure IsCursor (reach : ℕ → ℕ → Prop) (n : ℕ) (cursor : ℕ → ℕ) : Prop where
  zero : cursor 0 = 0
  le_succ : ∀ i, cursor i ≤ cursor (i + 1)
  le : ∀ i, cursor i ≤ n
  passed : ∀ i k, cursor i ≤ k → k < cursor (i + 1) → reach k i
  stops : ∀ i, cursor (i + 1) < n → ¬ reach (cursor (i + 1)) i

/-- The first `k` entries can be reached one after the other in the rounds before `i`. -/
def Passes (reach : ℕ → ℕ → Prop) (k i : ℕ) : Prop :=
  ∃ round : ℕ → ℕ, (∀ j j', j ≤ j' → j' < k → round j ≤ round j') ∧
    ∀ j < k, round j < i ∧ reach j (round j)

namespace IsCursor

variable {reach : ℕ → ℕ → Prop} {n : ℕ} {cursor : ℕ → ℕ}

theorem mono (h : IsCursor reach n cursor) {i j : ℕ} (hij : i ≤ j) : cursor i ≤ cursor j :=
  monotone_nat_of_le_succ h.le_succ hij

/-- Moving on as far as possible in each round gets the index as far as any choice of
rounds for the entries. -/
theorem le_iff (h : IsCursor reach n cursor) {k i : ℕ} (hk : k ≤ n) :
    k ≤ cursor i ↔ Passes reach k i := by
  constructor
  · intro hle
    clear hk
    induction i generalizing k with
    | zero =>
      rw [h.zero] at hle
      exact ⟨id, fun _ _ hjj _ => hjj, fun j hj => absurd hj (by omega)⟩
    | succ i ih =>
      -- the entries that were passed before, and those that are passed in round `i`
      obtain ⟨round, hmono, hround⟩ := ih (le_refl (cursor i))
      refine ⟨fun j => if j < cursor i then round j else i, fun j j' hjj hj' => ?_, fun j hj => ?_⟩
      · dsimp only
        split_ifs with hlt hlt'
        · exact hmono j j' hjj hlt'
        · exact (hround j hlt).1.le
        · omega
        · exact le_rfl
      · dsimp only
        split_ifs with hlt
        · exact ⟨(hround j hlt).1.trans (Nat.lt_succ_self i), (hround j hlt).2⟩
        · exact ⟨Nat.lt_succ_self i, h.passed i j (not_lt.mp hlt) (hj.trans_le hle)⟩
  · rintro ⟨round, hmono, hround⟩
    -- an entry is behind the index after its round: the index cannot stop before it
    have hbehind : ∀ j < k, j < cursor (round j + 1) := by
      intro j
      induction j using Nat.strong_induction_on with
      | _ j ih =>
        intro hj
        by_contra hle
        rcases (not_lt.mp hle).eq_or_lt with heq | hlt
        · refine h.stops (round j) (by omega) ?_
          rw [heq]
          exact (hround j hj).2
        · have hpassed := ih _ hlt (by omega)
          have hround' := hmono (cursor (round j + 1)) j hlt.le hj
          have := h.mono (Nat.add_le_add_right hround' 1)
          omega
    rcases Nat.eq_zero_or_pos k with rfl | hpos
    · exact Nat.zero_le _
    · have hlast := hbehind (k - 1) (by omega)
      have hround' : round (k - 1) + 1 ≤ i := (hround (k - 1) (by omega)).1
      have := h.mono hround'
      omega

end IsCursor

end PgRange.Math
