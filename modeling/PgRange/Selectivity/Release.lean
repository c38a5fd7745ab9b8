import PgRange.Selectivity.Join

/-!
# References to statistics

`rangerestsel` and `rangeoverlapsjoinsel` hold references while they read statistics: a
`VariableStatData` that has been filled pins a row of `pg_statistic`, and a slot that has been
obtained holds a copy of its values. `ReleaseVariableStats` and `free_attstatsslot` give them
back. An error gives back everything, but a function that returns has to do it itself.

The two functions are modelled once more, now with the list of the references they take and
give back. Without the list they are the functions of `Restriction` and `Join`.

Both return without giving anything back when the user may not see the statistics of a column.
`rangeoverlapsjoinsel` does so for every operator that it does not estimate, too.

## Main results

* `rangerestselTraced_run`, `rangeoverlapsjoinselTraced_run` — the results are those of the
  functions without the list
* `releasesAll_iff` — when every reference is given back exactly once
-/

set_option autoImplicit false

namespace PgRange.Selectivity

open Math Stats

/-! ### Events -/

/-- The local variables of type `VariableStatData`. -/
inductive StatVar
  | vardata1
  | vardata2
  deriving DecidableEq, Repr

/-- The local variables of type `AttStatsSlot`. -/
inductive StatSlot
  | sslot1
  | sslot2
  | freqSslot1
  | freqSslot2
  deriving DecidableEq, Repr

/-- What happens to a reference: it is filled by `get_restriction_variable` or
`get_join_variables` or obtained by `get_attstatsslot`, or it is given back. -/
inductive StatsEvent
  | filled (vardata : StatVar)
  | obtained (slot : StatSlot)
  | releaseVariableStats (vardata : StatVar)
  | freeAttstatsslot (slot : StatSlot)
  deriving DecidableEq, Repr

/-- The event that gives back what an event has taken. -/
def StatsEvent.undo : StatsEvent → Option StatsEvent
  | filled vardata => some (releaseVariableStats vardata)
  | obtained slot => some (freeAttstatsslot slot)
  | releaseVariableStats _ | freeAttstatsslot _ => none

/-- Whatever has been taken has been given back exactly once. -/
def Released (events : List StatsEvent) : Prop :=
  ∀ event ∈ events, ∀ undo ∈ event.undo, events.count undo = 1

instance (events : List StatsEvent) : Decidable (Released events) :=
  inferInstanceAs (Decidable (∀ _ ∈ events, _))

/-! ### The functions of the source -/

/-- Computations with the list of events so far. -/
abbrev Traced := StateT (List StatsEvent) (Except Fault)

/-- Some events happen. -/
def emit (events : List StatsEvent) : Traced Unit := modify (· ++ events)

/-- `get_attstatsslot`, for a slot that the row has or does not have. -/
def getAttstatsslot {β : Type} (slot : StatSlot) (values : Option β) : Traced (Option β) := do
  if values.isSome then emit [.obtained slot]
  return values

/-- `rangerestsel`, with its events. -/
def rangerestselTraced (A : CInt) (R : CFloat) (clause : RestrictionClause) : Traced FloatQ :=
  if clause.operator ≠ .left ∧ clause.operator ≠ .overlap then return .fin defaultSelec
  else
    match clause.restrictionVariable with
    | none => return .fin (defaultRangeSelectivity clause.operator)
    | some (other, varonleft) => do
      emit [.filled .vardata1]
      match other with
      | .notConst =>
        emit [.releaseVariableStats .vardata1]
        return .fin (defaultRangeSelectivity .left)
      | .const constisnull sameType constrange =>
        if constisnull || !varonleft then
          emit [.releaseVariableStats .vardata1]
          return .fin (defaultRangeSelectivity .left)
        else if !sameType then
          emit [.releaseVariableStats .vardata1]
          return .fin (defaultRangeSelectivity .left)
        else if rangeIsEmpty constrange then
          emit [.releaseVariableStats .vardata1]
          return .fin 0
        -- this return leaves `vardata1` as it is
        else if !clause.securityCheck then return .fin defaultSelec
        else
          let free : List StatsEvent := [.releaseVariableStats .vardata1,
            .freeAttstatsslot .sslot1, .freeAttstatsslot .freqSslot1]
          match clause.statsTuple with
          | none => emit free; return .fin defaultSelec
          | some stats =>
            match ← getAttstatsslot .sslot1 stats.bounds with
            | none => emit free; return .fin defaultSelec
            | some hist =>
              match ← getAttstatsslot .freqSslot1 stats.frequencies with
              | none => emit free; return .fin defaultSelec
              | some freqValues =>
                let selec ← rangerestselHist A R clause.operator constrange hist freqValues
                emit free
                return selec

/-- The end of `rangeoverlapsjoinsel`, with all histograms at hand. -/
def rangeoverlapsjoinselHist (A : CInt) (R : CFloat) (hist1 hist2 : List (RangeType Datum))
    (freqValues1 freqValues2 : List FloatQ) : Except Fault FloatQ := do
  let (min1, max1) ← restSpan A hist1
  let (min2, max2) ← restSpan A hist2
  let selec ←
    if isInRange min1 max1 min2 max2 then
      rangeoverlapsjoinselInner A R freqValues1 freqValues2 hist1.length hist2.length
        min1 min2 max1 max2
    else .ok (.fin defaultSelec)
  return clampFloat selec

/-- `rangeoverlapsjoinsel`, with its events. -/
def rangeoverlapsjoinselTraced (A : CInt) (R : CFloat) (clause : JoinClause) : Traced FloatQ := do
  emit [.filled .vardata1, .filled .vardata2]
  -- these returns leave `vardata1` and `vardata2` as they are
  if clause.operator ≠ .overlap then return .fin defaultSelec
  else if !clause.securityCheck1 then return .fin defaultSelec
  else if !clause.securityCheck2 then return .fin defaultSelec
  else
    let free : List StatsEvent := [.releaseVariableStats .vardata1, .releaseVariableStats .vardata2,
      .freeAttstatsslot .sslot1, .freeAttstatsslot .sslot2, .freeAttstatsslot .freqSslot1,
      .freeAttstatsslot .freqSslot2]
    match clause.statsTuple1, clause.statsTuple2 with
    | some stats1, some stats2 =>
      match ← getAttstatsslot .sslot1 stats1.bounds with
      | none => emit free; return .fin defaultSelec
      | some hist1 =>
        match ← getAttstatsslot .sslot2 stats2.bounds with
        | none => emit free; return .fin defaultSelec
        | some hist2 =>
          match ← getAttstatsslot .freqSslot1 stats1.frequencies with
          | none => emit free; return .fin defaultSelec
          | some freqValues1 =>
            match ← getAttstatsslot .freqSslot2 stats2.frequencies with
            | none => emit free; return .fin defaultSelec
            | some freqValues2 =>
              let selec ← rangeoverlapsjoinselHist A R hist1 hist2 freqValues1 freqValues2
              emit free
              return selec
    | _, _ => emit free; return .fin defaultSelec

/-! ### What a call ends with -/

/-- The result of a function, together with the events of the call. -/
def withEvents (x : Except Fault FloatQ) (events : List StatsEvent) :
    Except Fault (FloatQ × List StatsEvent) := x.map fun selec => (selec, events)

/-- An estimate takes and gives back nothing itself. -/
theorem estimate_emit (x : Except Fault FloatQ) (before free : List StatsEvent) :
    (do let selec ← (x : Traced FloatQ); emit free; return selec : Traced FloatQ) before =
      withEvents x (before ++ free) := by
  cases x <;> rfl

/-- A call with events does what a call without them does. The events are in balance under a
condition, and without it the call returns normally. -/
def Outcome (traced : Traced FloatQ) (x : Except Fault FloatQ) (condition : Prop) : Prop :=
  ∃ events, traced [] = withEvents x events ∧ (Released events ↔ condition) ∧
    (¬ condition → ∃ selec, x = .ok selec)

section Outcome

variable {traced : Traced FloatQ} {x : Except Fault FloatQ} {condition : Prop}

theorem outcome_of_released
    (h : ∃ events, traced [] = withEvents x events ∧ Released events) (hcondition : condition) :
    Outcome traced x condition := by
  obtain ⟨events, hrun, hreleased⟩ := h
  exact ⟨events, hrun, iff_of_true hreleased hcondition, fun h => absurd hcondition h⟩

theorem outcome_of_leak {events : List StatsEvent} {selec : FloatQ} (hx : x = .ok selec)
    (hrun : traced [] = .ok (selec, events)) (hleak : ¬ Released events)
    (hcondition : ¬ condition) : Outcome traced x condition := by
  subst hx
  exact ⟨events, hrun, iff_of_false hleak hcondition, fun _ => ⟨selec, rfl⟩⟩

theorem Outcome.run_eq (h : Outcome traced x condition) : StateT.run' traced [] = x := by
  obtain ⟨events, hrun, -, -⟩ := h
  change Prod.fst <$> traced [] = x
  rw [hrun]
  cases x <;> rfl

/-- Every normal return has its events in balance if and only if the condition holds. -/
theorem Outcome.released_iff (h : Outcome traced x condition) :
    (∀ selec events, traced [] = .ok (selec, events) → Released events) ↔ condition := by
  obtain ⟨events, hrun, hiff, hok⟩ := h
  rw [hrun]
  constructor
  · intro hall
    by_contra hnot
    obtain ⟨selec, rfl⟩ := hok hnot
    exact hnot (hiff.mp (hall selec events rfl))
  · intro hcondition selec events' heq
    cases x with
    | error e => exact absurd heq nofun
    | ok selec' =>
      obtain ⟨-, rfl⟩ := Prod.mk.inj (Except.ok.inj heq)
      exact hiff.mpr hcondition

end Outcome

/-- The call gets as far as the security check: the operator is estimated, and the clause
compares a column on the left with a constant of its type that is neither null nor empty. -/
def RestrictionClause.ReachesCheck (clause : RestrictionClause) : Prop :=
  (clause.operator = .left ∨ clause.operator = .overlap) ∧
    ∃ constrange, clause.restrictionVariable = some (.const false true constrange, true) ∧
      rangeIsEmpty constrange = false

section Restriction

variable (A : CInt) (R : CFloat) {clause : RestrictionClause}

theorem RestrictionClause.ReachesCheck.estimated (h : clause.ReachesCheck) :
    ¬ (clause.operator ≠ .left ∧ clause.operator ≠ .overlap) := by
  rw [not_and_or, not_not, not_not]
  exact h.1

/-- The returns before the check give back what has been filled. -/
theorem rangerestselTraced_of_not_reachesCheck (hnot : ¬ clause.ReachesCheck) :
    ∃ events, rangerestselTraced A R clause [] = withEvents (rangerestsel A R clause) events ∧
      Released events := by
  unfold rangerestselTraced rangerestsel
  by_cases hop : clause.operator ≠ .left ∧ clause.operator ≠ .overlap
  · rw [if_pos hop, if_pos hop]
    exact ⟨[], rfl, by decide⟩
  rw [if_neg hop, if_neg hop]
  cases hvar : clause.restrictionVariable with
  | none => exact ⟨[], rfl, by decide⟩
  | some pair =>
    obtain ⟨other, varonleft⟩ := pair
    refine ⟨[.filled .vardata1, .releaseVariableStats .vardata1], ?_, by decide⟩
    cases other with
    | notConst => rfl
    | const constisnull sameType constrange =>
      have hbefore : constisnull = true ∨ varonleft = false ∨ sameType = false ∨
          rangeIsEmpty constrange = true := by
        by_contra hall
        simp only [not_or, Bool.not_eq_true, Bool.not_eq_false] at hall
        obtain ⟨rfl, rfl, rfl, hne⟩ := hall
        exact hnot ⟨by simpa only [not_and_or, not_not] using hop, constrange, hvar, hne⟩
      rcases hbefore with rfl | rfl | rfl | hempty
      · rfl
      · cases constisnull <;> rfl
      · cases constisnull <;> cases varonleft <;> rfl
      · dsimp only
        rw [hempty]
        cases constisnull <;> cases varonleft <;> cases sameType <;> rfl

/-- The check ends the call with `vardata1` filled. -/
theorem rangerestselTraced_of_check_fails (hreaches : clause.ReachesCheck)
    (hcheck : clause.securityCheck = false) :
    rangerestsel A R clause = .ok (.fin defaultSelec) ∧
      rangerestselTraced A R clause [] = .ok (.fin defaultSelec, [.filled .vardata1]) := by
  unfold rangerestselTraced rangerestsel
  rw [if_neg hreaches.estimated, if_neg hreaches.estimated]
  obtain ⟨-, constrange, hvar, hne⟩ := hreaches
  rw [hvar]
  dsimp only
  rw [hne, hcheck]
  exact ⟨rfl, rfl⟩

/-- With the check passed, all slots that are obtained are freed with the rest. -/
theorem rangerestselTraced_of_check (hreaches : clause.ReachesCheck)
    (hcheck : clause.securityCheck = true) :
    ∃ events, rangerestselTraced A R clause [] = withEvents (rangerestsel A R clause) events ∧
      Released events := by
  unfold rangerestselTraced rangerestsel
  rw [if_neg hreaches.estimated, if_neg hreaches.estimated]
  obtain ⟨-, constrange, hvar, hne⟩ := hreaches
  rw [hvar]
  dsimp only
  rw [hne, hcheck]
  cases clause.statsTuple with
  | none => exact ⟨_, rfl, by decide⟩
  | some stats =>
    dsimp only
    cases stats.bounds with
    | none => exact ⟨_, rfl, by decide⟩
    | some hist =>
      cases stats.frequencies with
      | none => exact ⟨_, rfl, by decide⟩
      | some freqValues =>
        exact ⟨_, estimate_emit _ [.filled .vardata1, .obtained .sslot1, .obtained .freqSslot1] _,
          by decide⟩

theorem rangerestselTraced_outcome (clause : RestrictionClause) :
    Outcome (rangerestselTraced A R clause) (rangerestsel A R clause)
      (clause.ReachesCheck → clause.securityCheck = true) := by
  by_cases hreaches : clause.ReachesCheck
  · cases hcheck : clause.securityCheck with
    | false =>
      obtain ⟨hresult, hrun⟩ := rangerestselTraced_of_check_fails A R hreaches hcheck
      exact outcome_of_leak hresult hrun (by decide) fun h => Bool.false_ne_true (h hreaches)
    | true =>
      exact outcome_of_released (rangerestselTraced_of_check A R hreaches hcheck) fun _ => rfl
  · exact outcome_of_released (rangerestselTraced_of_not_reachesCheck A R hreaches)
      fun h => absurd h hreaches

end Restriction

section Join

variable (A : CInt) (R : CFloat) {clause : JoinClause}

/-- With both checks passed, all slots that are obtained are freed with the rest. -/
theorem rangeoverlapsjoinselTraced_of_checks (hop : clause.operator = .overlap)
    (hcheck1 : clause.securityCheck1 = true) (hcheck2 : clause.securityCheck2 = true) :
    ∃ events, rangeoverlapsjoinselTraced A R clause [] =
        withEvents (rangeoverlapsjoinsel A R clause) events ∧ Released events := by
  unfold rangeoverlapsjoinselTraced rangeoverlapsjoinsel JoinClause.slots
  rw [hop, hcheck1, hcheck2]
  cases clause.statsTuple1 with
  | none => exact ⟨_, rfl, by decide⟩
  | some stats1 =>
    cases clause.statsTuple2 with
    | none => exact ⟨_, rfl, by decide⟩
    | some stats2 =>
      dsimp only [Option.bind_eq_bind, Option.bind]
      cases stats1.bounds with
      | none => exact ⟨_, rfl, by decide⟩
      | some hist1 =>
        cases stats2.bounds with
        | none => exact ⟨_, rfl, by decide⟩
        | some hist2 =>
          cases stats1.frequencies with
          | none => exact ⟨_, rfl, by decide⟩
          | some freqValues1 =>
            cases stats2.frequencies with
            | none => exact ⟨_, rfl, by decide⟩
            | some freqValues2 =>
              exact ⟨_, estimate_emit
                (rangeoverlapsjoinselHist A R hist1 hist2 freqValues1 freqValues2)
                [.filled .vardata1, .filled .vardata2, .obtained .sslot1, .obtained .sslot2,
                  .obtained .freqSslot1, .obtained .freqSslot2] _, by decide⟩

/-- The three early returns give the default and give back nothing. -/
theorem rangeoverlapsjoinselTraced_of_check_fails (hfails : ¬ (clause.operator = .overlap ∧
      clause.securityCheck1 = true ∧ clause.securityCheck2 = true)) :
    rangeoverlapsjoinsel A R clause = .ok (.fin defaultSelec) ∧
      rangeoverlapsjoinselTraced A R clause [] =
        .ok (.fin defaultSelec, [.filled .vardata1, .filled .vardata2]) := by
  unfold rangeoverlapsjoinsel rangeoverlapsjoinselTraced
  by_cases hop : clause.operator = .overlap
  · rw [hop]
    cases hcheck1 : clause.securityCheck1 with
    | false => exact ⟨rfl, rfl⟩
    | true =>
      cases hcheck2 : clause.securityCheck2 with
      | false => exact ⟨rfl, rfl⟩
      | true => exact absurd ⟨hop, hcheck1, hcheck2⟩ hfails
  · rw [if_pos hop]
    refine ⟨rfl, ?_⟩
    simp only [if_pos hop]
    rfl

theorem rangeoverlapsjoinselTraced_outcome (clause : JoinClause) :
    Outcome (rangeoverlapsjoinselTraced A R clause) (rangeoverlapsjoinsel A R clause)
      (clause.operator = .overlap ∧ clause.securityCheck1 = true ∧
        clause.securityCheck2 = true) := by
  by_cases hpass : clause.operator = .overlap ∧ clause.securityCheck1 = true ∧
      clause.securityCheck2 = true
  · exact outcome_of_released
      (rangeoverlapsjoinselTraced_of_checks A R hpass.1 hpass.2.1 hpass.2.2) hpass
  · obtain ⟨hresult, hrun⟩ := rangeoverlapsjoinselTraced_of_check_fails A R hpass
    exact outcome_of_leak hresult hrun (by decide) hpass

end Join

theorem rangerestselTraced_run (A : CInt) (R : CFloat) (clause : RestrictionClause) :
    (rangerestselTraced A R clause).run' [] = rangerestsel A R clause :=
  (rangerestselTraced_outcome A R clause).run_eq

theorem rangeoverlapsjoinselTraced_run (A : CInt) (R : CFloat) (clause : JoinClause) :
    (rangeoverlapsjoinselTraced A R clause).run' [] = rangeoverlapsjoinsel A R clause :=
  (rangeoverlapsjoinselTraced_outcome A R clause).run_eq

/-! ### Both functions -/

/-- A call of one of the two functions. -/
inductive EstimatorCall
  | rangerestsel (clause : RestrictionClause)
  | rangeoverlapsjoinsel (clause : JoinClause)

namespace EstimatorCall

/-- The call, with its events. -/
def traced (A : CInt) (R : CFloat) : EstimatorCall → Traced FloatQ
  | rangerestsel clause => rangerestselTraced A R clause
  | rangeoverlapsjoinsel clause => rangeoverlapsjoinselTraced A R clause

/-- If the call returns normally, it has given back every reference exactly once. -/
def ReleasesAll (A : CInt) (R : CFloat) (call : EstimatorCall) : Prop :=
  ∀ selec events, call.traced A R [] = .ok (selec, events) → Released events

/-- `rangerestsel` passes its security check if it gets there. `rangeoverlapsjoinsel` takes its
references first of all, so it has to be called for `&&` and to pass both of its checks. -/
def PassesChecks : EstimatorCall → Prop
  | rangerestsel clause => clause.ReachesCheck → clause.securityCheck = true
  | rangeoverlapsjoinsel clause =>
    clause.operator = .overlap ∧ clause.securityCheck1 = true ∧ clause.securityCheck2 = true

end EstimatorCall

/-- A call that returns has given back every reference exactly once, if and only if it passes
the checks. -/
theorem releasesAll_iff (A : CInt) (R : CFloat) (call : EstimatorCall) :
    call.ReleasesAll A R ↔ call.PassesChecks := by
  cases call with
  | rangerestsel clause => exact (rangerestselTraced_outcome A R clause).released_iff
  | rangeoverlapsjoinsel clause =>
    exact (rangeoverlapsjoinselTraced_outcome A R clause).released_iff

/-- The constant `[1,5)`, and a user who may not see the statistics of the column: `vardata1` is
never released. -/
theorem rangerestselTraced_no_privilege :
    rangerestselTraced .int32 .float8
        { operator := .left
          restrictionVariable :=
            some (.const false true ⟨{ lbInc := true }, 1, 5⟩, true)
          securityCheck := false
          statsTuple := some ⟨⟨0, none⟩, none, none⟩ } [] =
        .ok (.fin defaultSelec, [.filled .vardata1]) ∧
      ¬ Released [.filled .vardata1] :=
  ⟨rfl, by decide⟩

end PgRange.Selectivity
