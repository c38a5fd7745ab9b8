import PgRange.Gist.Columns
import PgRange.Math.LexLeast

/-!
# Choosing a subtree for an insertion

`gistchoose` looks for the tuple of an internal page into whose subtree a new tuple should go. The
penalties of the columns are compared in their order. Among tuples that are equally good it decides
at random whether to stay with the first one, and once a tuple without any penalty is found and is
to be kept, the rest of the page is not looked at.

Whatever the random numbers are, and whatever is in the parts of `best_penalty` that are not
initialized, no tuple of the page is better than the chosen one.

## Main definitions

* `gistchoose`, with its loops `chooseColumns` and `chooseTuples`
* `Best` — what the loop over the tuples knows

## Main results

* `Best.chooseTuple` — one tuple
* `exists_gistchoose` — the chosen tuple is a best one
-/

set_option autoImplicit false

namespace PgRange.Gist

open Math

variable {n : ℕ}

/-! ### The function of the source -/

/-- The variables of `gistchoose`: the offset of the best tuple, its penalties, where `-1` stands
for one that is not known, the decision to keep it (none stands for `-1`), and how often `random`
has been called. -/
structure ChooseState where
  result : ℕ
  bestPenalty : ℕ → FloatQ
  keepCurrentBest : Option Bool
  draws : ℕ

/-- A new best penalty in column `j`, with the tuple at offset `i`; the next penalty, and with it
those of all later columns, is not known. -/
def ChooseState.newBest (natts i j : ℕ) (usize : FloatQ) (st : ChooseState) : ChooseState where
  result := i
  bestPenalty :=
    let bestPenalty := Function.update st.bestPenalty j usize
    if j < natts - 1 then Function.update bestPenalty (j + 1) (.fin (-1)) else bestPenalty
  keepCurrentBest := none
  draws := st.draws

/-- The loop over the columns, for the tuple at offset `i`. Returned are the variables,
`zero_penalty`, and whether the loop went past the last column. -/
def chooseColumns (i : ℕ) (usize : Fin n → FloatQ) :
    List (Fin n) → Bool → ChooseState → ChooseState × Bool × Bool
  | [], zeroPenalty, st => (st, zeroPenalty, true)
  | j :: cols, zeroPenalty, st =>
    let zeroPenalty := if (FloatQ.fin 0).lt (usize j) then false else zeroPenalty
    if (st.bestPenalty j).lt (.fin 0) || (usize j).lt (st.bestPenalty j) then
      chooseColumns i usize cols zeroPenalty (st.newBest n i j (usize j))
    else if (st.bestPenalty j).isEq (usize j) then chooseColumns i usize cols zeroPenalty st
    else (st, false, false)

/-- Decide whether to keep the best tuple, unless that is decided. -/
def ChooseState.decideKeep (random : ℕ → Bool) (st : ChooseState) : ChooseState :=
  match st.keepCurrentBest with
  | none => { st with keepCurrentBest := some (random st.draws), draws := st.draws + 1 }
  | some _ => st

/-- A tuple that is as good as the best one takes its place if that is decided. -/
def ChooseState.takeEqual (random : ℕ → Bool) (i : ℕ) (st : ChooseState) : ChooseState :=
  let st := st.decideKeep random
  if st.keepCurrentBest = some false then { st with result := i, keepCurrentBest := none } else st

/-- One tuple of the loop over the page, and whether the loop is left. -/
def chooseTuple (random : ℕ → Bool) (i : ℕ) (usize : Fin n → FloatQ) (st : ChooseState) :
    ChooseState × Bool :=
  let (st, zeroPenalty, pastLast) := chooseColumns i usize (List.finRange n) true st
  let st := if pastLast && st.result != i then st.takeEqual random i else st
  if zeroPenalty then
    let st := st.decideKeep random
    (st, st.keepCurrentBest == some true)
  else (st, false)

/-- The loop over the tuples from offset `i` on. -/
def chooseTuples (random : ℕ → Bool) : ℕ → List (Fin n → FloatQ) → ChooseState → ChooseState
  | _, [], st => st
  | i, usize :: rest, st =>
    let (st, leave) := chooseTuple random i usize st
    if leave then st else chooseTuples random (i + 1) rest st

/-- The penalties of an insertion below a tuple. -/
def penalties {κ : Fin n → Type} (giststate : GistState κ) (it itup : IndexTuple κ) :
    Fin n → FloatQ :=
  fun j => gistpenalty giststate j (itup.keys j) (it.keys j)

/-- `gistchoose`. The array `best_penalty` holds anything in the beginning but in its first
place. -/
def gistchoose {κ : Fin n → Type} (giststate : GistState κ) (random : ℕ → Bool)
    (uninitialized : ℕ → FloatQ) (p : List (IndexTuple κ)) (it : IndexTuple κ) : ℕ :=
  (chooseTuples random 1 (p.map (penalties giststate it))
    ⟨1, Function.update uninitialized 0 (.fin (-1)), none, 0⟩).result

/-! ### The loop over the columns -/

section ColumnsLoop

variable {i : ℕ} {usize : Fin n → FloatQ} {st : ChooseState}

/-- The columns from `m` on. -/
theorem drop_finRange {m : ℕ} (hm : m < n) :
    (List.finRange n).drop m = ⟨m, hm⟩ :: (List.finRange n).drop (m + 1) := by
  rw [List.drop_eq_getElem_cons (by simpa using hm)]
  simp

theorem drop_finRange_self : (List.finRange n).drop n = [] :=
  List.drop_eq_nil_of_le (by simp)

@[simp] theorem newBest_bestPenalty_self (st : ChooseState) (natts j : ℕ) (x : FloatQ) :
    (st.newBest natts i j x).bestPenalty j = x := by
  unfold ChooseState.newBest
  dsimp only
  split_ifs <;> simp [Function.update]

theorem newBest_bestPenalty_next {natts j : ℕ} (hj : j + 1 < natts) (st : ChooseState) (x : FloatQ) :
    (st.newBest natts i j x).bestPenalty (j + 1) = .fin (-1) := by
  unfold ChooseState.newBest
  dsimp only
  rw [if_pos (by omega)]
  simp

theorem newBest_bestPenalty_of_lt {j k : ℕ} (hk : k < j) (st : ChooseState) (natts : ℕ) (x : FloatQ) :
    (st.newBest natts i j x).bestPenalty k = st.bestPenalty k := by
  unfold ChooseState.newBest
  dsimp only
  split_ifs <;> simp [Function.update, show k ≠ j by omega, show k ≠ j + 1 by omega]

/-- If `zero_penalty` is left, then no column had a penalty. -/
theorem chooseColumns_zero (cols : List (Fin n)) {zeroPenalty : Bool}
    (h : (chooseColumns i usize cols zeroPenalty st).2.1 = true) :
    zeroPenalty = true ∧ ∀ j ∈ cols, (FloatQ.fin 0).lt (usize j) = false := by
  induction cols generalizing zeroPenalty st with
  | nil => exact ⟨h, by simp⟩
  | cons j cols ih =>
    have hstep : (if (FloatQ.fin 0).lt (usize j) then false else zeroPenalty) = true ∧
        ∀ j ∈ cols, (FloatQ.fin 0).lt (usize j) = false := by
      rw [chooseColumns] at h
      generalize (if (FloatQ.fin 0).lt (usize j) then false else zeroPenalty) = zero at h ⊢
      split_ifs at h
      · exact ih h
      · exact ih h
    obtain ⟨hzero, hcols⟩ := hstep
    cases hlt : (FloatQ.fin 0).lt (usize j) with
    | true => simp [hlt] at hzero
    | false => exact ⟨by simpa [hlt] using hzero, by simpa [hlt] using hcols⟩

variable (i usize st) in
/-- Once a column has a new best penalty, the tuple is adopted with all the later columns. -/
theorem chooseColumns_adopt {m : ℕ} (hm : m ≤ n) (zeroPenalty : Bool)
    (hbest : m < n → st.bestPenalty m = .fin (-1)) :
    ∃ st' zero', chooseColumns i usize ((List.finRange n).drop m) zeroPenalty st =
        (st', zero', true) ∧
      st'.result = (if m < n then i else st.result) ∧
      (∀ j : Fin n, m ≤ j → st'.bestPenalty j = usize j) ∧
      ∀ k < m, st'.bestPenalty k = st.bestPenalty k := by
  induction hd : n - m generalizing m zeroPenalty st with
  | zero =>
    obtain rfl : m = n := by omega
    rw [drop_finRange_self, chooseColumns]
    refine ⟨st, zeroPenalty, rfl, by simp, fun j hj => ?_, fun _ _ => rfl⟩
    exact absurd j.isLt (by omega)
  | succ d ih =>
    have hlt : m < n := by omega
    rw [drop_finRange hlt, chooseColumns]
    have hunknown : (st.bestPenalty m).lt (.fin 0) = true := by
      rw [hbest hlt]
      decide
    simp only [hunknown, Bool.true_or, if_true]
    obtain ⟨st', zero', hrun, hresult, hlater, hearlier⟩ :=
      ih (st.newBest n i m (usize ⟨m, hlt⟩)) (m := m + 1) (by omega)
        (if (FloatQ.fin 0).lt (usize ⟨m, hlt⟩) then false else zeroPenalty)
        (fun hnext => newBest_bestPenalty_next hnext st _) (by omega)
    refine ⟨st', zero', hrun, ?_, ?_, ?_⟩
    · rw [hresult, if_pos hlt]
      exact ite_self i
    · intro j hj
      rcases Nat.eq_or_lt_of_le hj with rfl | hgt
      · rw [hearlier j (by omega), newBest_bestPenalty_self]
      · exact hlater j hgt
    · intro k hk
      rw [hearlier k (by omega), newBest_bestPenalty_of_lt hk]

/-- The three ways a tuple can compare with the best one. -/
theorem chooseColumns_compare {best : Fin n → FloatQ} {m : ℕ} (hm : m ≤ n) (zeroPenalty : Bool)
    (hcost : ∀ j, (usize j).IsCost) (hbcost : ∀ j, (best j).IsCost)
    (hbest : ∀ j : Fin n, st.bestPenalty j = best j)
    (hequal : ∀ k : Fin n, k < m → usize k = best k) :
    let run := chooseColumns i usize ((List.finRange n).drop m) zeroPenalty st
    (usize = best ∧ run.1 = st ∧ run.2.2 = true) ∨
      ((∃ j, (∀ k < j, usize k = best k) ∧ (usize j).lt (best j) = true) ∧
        run.1.result = i ∧ ∀ j : Fin n, run.1.bestPenalty j = usize j) ∨
      ((∃ j, (∀ k < j, usize k = best k) ∧ (best j).lt (usize j) = true) ∧
        run = (st, false, false)) := by
  induction hd : n - m generalizing m zeroPenalty with
  | zero =>
    obtain rfl : m = n := by omega
    rw [drop_finRange_self, chooseColumns]
    exact Or.inl ⟨funext fun j => hequal j j.isLt, rfl, rfl⟩
  | succ d ih =>
    have hlt : m < n := by omega
    have hbm := hbest ⟨m, hlt⟩
    dsimp only at hbm
    rw [drop_finRange hlt, chooseColumns]
    have hknown : (best ⟨m, hlt⟩).lt (.fin 0) = false := (hbcost _).not_neg
    have hfirst : ∀ k < (⟨m, hlt⟩ : Fin n), usize k = best k := fun k hk => hequal k hk
    dsimp only
    rw [hbm, hknown, Bool.false_or]
    rcases (hcost ⟨m, hlt⟩).trichotomy (hbcost ⟨m, hlt⟩) with hless | heq | hgreater
    · -- better in this column
      right
      left
      rw [if_pos hless]
      obtain ⟨st', zero', hrun, hresult, hlater, hearlier⟩ :=
        chooseColumns_adopt i usize (st.newBest n i m (usize ⟨m, hlt⟩)) (m := m + 1) (by omega)
          (if (FloatQ.fin 0).lt (usize ⟨m, hlt⟩) then false else zeroPenalty)
          (fun hnext => newBest_bestPenalty_next hnext st _)
      rw [hrun]
      refine ⟨⟨⟨m, hlt⟩, hfirst, hless⟩, ?_, fun j => ?_⟩
      · rw [hresult]
        exact ite_self i
      · rcases lt_trichotomy (j : ℕ) m with hj | rfl | hj
        · rw [hearlier j (by omega), newBest_bestPenalty_of_lt hj, hbest, hequal j hj]
        · rw [hearlier j (by omega), newBest_bestPenalty_self]
        · exact hlater j hj
    · -- equal so far
      rw [← heq, FloatQ.lt_irrefl, if_neg (by simp), if_pos (hcost _).isEq_self]
      apply ih (by omega) _ _ (by omega)
      intro k hk
      rcases Nat.lt_succ_iff_lt_or_eq.mp hk with hk | hk
      · exact hequal k hk
      · rw [show k = ⟨m, hlt⟩ from Fin.ext hk, heq]
    · right
      right
      have hnot : (usize ⟨m, hlt⟩).lt (best ⟨m, hlt⟩) = false := by
        by_contra hlt'
        have := FloatQ.lt_trans hgreater (Bool.not_eq_false _ ▸ hlt')
        simp [FloatQ.lt_irrefl] at this
      rw [hnot, if_neg (by simp), FloatQ.isEq_of_ne (FloatQ.ne_of_lt hgreater), if_neg (by simp)]
      exact ⟨⟨⟨m, hlt⟩, hfirst, hgreater⟩, rfl⟩

end ColumnsLoop

/-! ### The loop over the tuples -/

section TuplesLoop

variable {random : ℕ → Bool} {seen : List (Fin n → FloatQ)} {best usize : Fin n → FloatQ}
  {st : ChooseState}

@[simp] theorem decideKeep_result (st : ChooseState) :
    (st.decideKeep random).result = st.result := by
  unfold ChooseState.decideKeep
  split <;> rfl

@[simp] theorem decideKeep_bestPenalty (st : ChooseState) :
    (st.decideKeep random).bestPenalty = st.bestPenalty := by
  unfold ChooseState.decideKeep
  split <;> rfl

/-- The tuples that were looked at: `best` are the penalties of the one that is chosen so far, they
are known in every column, and no tuple has less. -/
structure Best (seen : List (Fin n → FloatQ)) (best : Fin n → FloatQ) (st : ChooseState) :
    Prop where
  pos : 1 ≤ st.result
  chosen : seen[st.result - 1]? = some best
  known : ∀ j : Fin n, st.bestPenalty j = best j
  least : ∀ row ∈ seen, LexLe best row

theorem Best.decideKeep (h : Best seen best st) : Best seen best (st.decideKeep random) where
  pos := by simpa using h.pos
  chosen := by simpa using h.chosen
  known := by simpa using h.known
  least := h.least

/-- A tuple that is not better does not matter, -/
theorem Best.worse (h : Best seen best st) (hle : LexLe best usize) :
    Best (seen ++ [usize]) best st where
  pos := h.pos
  chosen := by
    have hlt := (List.getElem?_eq_some_iff.mp h.chosen).1
    rw [List.getElem?_append_left hlt, h.chosen]
  known := h.known
  least row hrow := by
    rcases List.mem_append.mp hrow with hrow | hrow
    · exact h.least row hrow
    · exact List.mem_singleton.mp hrow ▸ hle

/-- one that is better or just as good can be taken. -/
theorem Best.take (h : Best seen best st) (hle : LexLe usize best) {st' : ChooseState}
    (hresult : st'.result = seen.length + 1) (hknown : ∀ j : Fin n, st'.bestPenalty j = usize j) :
    Best (seen ++ [usize]) usize st' where
  pos := by omega
  chosen := by simp [hresult]
  known := hknown
  least row hrow := by
    rcases List.mem_append.mp hrow with hrow | hrow
    · exact hle.trans (h.least row hrow)
    · exact List.mem_singleton.mp hrow ▸ LexLe.refl usize

/-- What is left to do after the loop over the columns does not affect the choice. -/
theorem chooseTuple_eq {i : ℕ} {st' : ChooseState} {zeroPenalty pastLast : Bool}
    (hrun : chooseColumns i usize (List.finRange n) true st = (st', zeroPenalty, pastLast)) :
    chooseTuple random i usize st =
      let st'' := if pastLast && st'.result != i then st'.takeEqual random i else st'
      if zeroPenalty then
        (st''.decideKeep random, (st''.decideKeep random).keepCurrentBest == some true)
      else (st'', false) := by
  rw [chooseTuple, hrun]

/-- The columns of a tuple without a penalty. -/
theorem eq_zero_of_zeroPenalty (hcost : ∀ j, (usize j).IsCost) {i : ℕ} (st : ChooseState)
    (hzero : (chooseColumns i usize (List.finRange n) true st).2.1 = true) :
    usize = fun _ => .fin 0 :=
  funext fun j => (hcost j).eq_zero ((chooseColumns_zero _ hzero).2 j (List.mem_finRange j))

variable (random) in
/-- One tuple after others. If the loop is left, then with a tuple that costs nothing. -/
theorem Best.chooseTuple (h : Best seen best st) (hbcost : ∀ j, (best j).IsCost)
    (hcost : ∀ j, (usize j).IsCost) :
    ∃ best', (best' = best ∨ best' = usize) ∧
      Best (seen ++ [usize]) best' (chooseTuple random (seen.length + 1) usize st).1 ∧
      ((Gist.chooseTuple random (seen.length + 1) usize st).2 = true → best' = fun _ => .fin 0) := by
  rcases hrun : chooseColumns (seen.length + 1) usize (List.finRange n) true st with
    ⟨st', zeroPenalty, pastLast⟩
  -- the choice after the loop over the columns
  have hchoice : ∃ best', (best' = best ∨ best' = usize) ∧ Best (seen ++ [usize]) best'
      (if pastLast && st'.result != seen.length + 1 then
        st'.takeEqual random (seen.length + 1) else st') := by
    have hcompare := chooseColumns_compare (i := seen.length + 1) (m := 0) (Nat.zero_le n) true
      hcost hbcost h.known (fun k hk => absurd hk (Nat.not_lt_zero k))
    rw [List.drop_zero, hrun] at hcompare
    rcases hcompare with ⟨rfl, hst, hpast⟩ | ⟨⟨j, hj, hlt⟩, hresult, hknown⟩ | ⟨⟨j, hj, hlt⟩, heq⟩
    · -- just as good: one of the two is kept
      dsimp only at hst hpast
      subst hst hpast
      refine ⟨usize, Or.inl rfl, ?_⟩
      split_ifs
      · unfold ChooseState.takeEqual
        dsimp only
        split_ifs
        · exact h.take (LexLe.refl usize) rfl (by simpa using h.known)
        · exact h.decideKeep.worse (LexLe.refl usize)
      · exact h.worse (LexLe.refl usize)
    · -- better
      dsimp only at hresult hknown
      refine ⟨usize, Or.inr rfl, ?_⟩
      rw [if_neg (by simp [hresult])]
      exact h.take (Or.inr ⟨j, hj, hlt⟩) hresult hknown
    · -- worse
      simp only [Prod.mk.injEq] at heq
      obtain ⟨rfl, -, rfl⟩ := heq
      refine ⟨best, Or.inl rfl, ?_⟩
      exact h.worse (Or.inr ⟨j, fun k hk => (hj k hk).symm, hlt⟩)
  obtain ⟨best', hbest', hchosen⟩ := hchoice
  rw [chooseTuple_eq hrun]
  dsimp only
  refine ⟨best', hbest', ?_, ?_⟩
  · cases zeroPenalty with
    | false => exact hchosen
    | true => exact hchosen.decideKeep
  · intro hleave
    cases zeroPenalty with
    | false => simp at hleave
    | true =>
      have hzero := eq_zero_of_zeroPenalty hcost (i := seen.length + 1) st (by rw [hrun])
      apply LexLe.eq_zero
      · rcases hbest' with rfl | rfl
        · exact hbcost
        · exact hcost
      · exact hzero ▸ hchosen.least usize (by simp)

variable (random) in
/-- The first tuple is adopted. -/
theorem best_first (hcost : ∀ j, (usize j).IsCost) (uninitialized : ℕ → FloatQ) :
    Best [usize] usize (Gist.chooseTuple random 1 usize
        ⟨1, Function.update uninitialized 0 (.fin (-1)), none, 0⟩).1 ∧
      ((Gist.chooseTuple random 1 usize
        ⟨1, Function.update uninitialized 0 (.fin (-1)), none, 0⟩).2 = true →
        usize = fun _ => .fin 0) := by
  obtain ⟨st', zero', hrun, hresult, hknown, -⟩ := chooseColumns_adopt 1 usize
    ⟨1, Function.update uninitialized 0 (.fin (-1)), none, 0⟩ (Nat.zero_le n) true
    (fun _ => by simp)
  rw [List.drop_zero] at hrun
  have hone : st'.result = 1 := by
    rw [hresult]
    exact ite_self 1
  have hbest : Best [usize] usize st' := by
    refine ⟨hone.ge, by simp [hone], fun j => hknown j (Nat.zero_le _), fun row hrow => ?_⟩
    exact List.mem_singleton.mp hrow ▸ LexLe.refl usize
  rw [chooseTuple_eq hrun]
  simp only [hone, bne_self_eq_false, Bool.and_false, Bool.false_eq_true, if_false]
  cases zero' with
  | false => exact ⟨hbest, by simp⟩
  | true => exact ⟨hbest.decideKeep, fun _ => eq_zero_of_zeroPenalty hcost _ (by rw [hrun])⟩

/-- Nothing is better than no penalty, so the rest need not be seen. -/
theorem Best.of_zero (h : Best seen (fun _ => .fin 0) st) {rest : List (Fin n → FloatQ)}
    (hcost : ∀ row ∈ rest, ∀ j, (row j).IsCost) :
    Best (seen ++ rest) (fun _ => .fin 0) st where
  pos := h.pos
  chosen := by
    have hlt := (List.getElem?_eq_some_iff.mp h.chosen).1
    rw [List.getElem?_append_left hlt, h.chosen]
  known := h.known
  least row hrow := by
    rcases List.mem_append.mp hrow with hrow | hrow
    · exact h.least row hrow
    · exact zero_lexLe (hcost row hrow)

/-- The rest of the loop. -/
theorem Best.chooseTuples (h : Best seen best st) (hbcost : ∀ j, (best j).IsCost)
    (rest : List (Fin n → FloatQ)) (hcost : ∀ row ∈ rest, ∀ j, (row j).IsCost) :
    ∃ best', Best (seen ++ rest) best' (chooseTuples random (seen.length + 1) rest st) := by
  induction rest generalizing seen best st with
  | nil => exact ⟨best, by simpa [Gist.chooseTuples] using h⟩
  | cons usize rest ih =>
    have hrow := hcost usize List.mem_cons_self
    have hrest : ∀ row ∈ rest, ∀ j, (row j).IsCost := fun row hr =>
      hcost row (List.mem_cons_of_mem usize hr)
    obtain ⟨best', hbest', hnext, hleave⟩ := h.chooseTuple random hbcost hrow
    rw [Gist.chooseTuples]
    rcases hstep : Gist.chooseTuple random (seen.length + 1) usize st with ⟨st', leave⟩
    rw [hstep] at hnext hleave
    dsimp only at hnext hleave ⊢
    cases leave with
    | true =>
      obtain rfl := hleave rfl
      rw [List.append_cons]
      exact ⟨_, hnext.of_zero hrest⟩
    | false =>
      have hcost' : ∀ j, (best' j).IsCost := by
        rcases hbest' with rfl | rfl
        · exact hbcost
        · exact hrow
      have := ih hnext hcost' hrest
      simpa using this

end TuplesLoop

/-! ### The choice -/

section Choice

variable {κ : Fin n → Type}

/-- A penalty is never negative, nor no number. -/
theorem gistpenalty_isCost (giststate : GistState κ) (j : Fin n) (orig add : Option (κ j)) :
    (gistpenalty giststate j orig add).IsCost := by
  match orig, add with
  | none, none => exact FloatQ.isCost_zero
  | some _, none => exact Or.inl rfl
  | none, some _ => exact Or.inl rfl
  | some o, some a =>
    rw [gistpenalty]
    cases (giststate.column j).penaltyFn o a with
    | nan => exact FloatQ.isCost_zero
    | negInf => exact FloatQ.isCost_zero
    | posInf => exact Or.inl rfl
    | fin q =>
      by_cases hq : q < 0
      · simp [FloatQ.isNan, FloatQ.lt, hq, FloatQ.isCost_zero]
      · simp only [FloatQ.isNan, FloatQ.lt, hq]
        exact Or.inr ⟨q, not_lt.mp hq, rfl⟩

/-- The chosen tuple is on the page, and none of the page is better. -/
theorem exists_gistchoose (giststate : GistState κ) (random : ℕ → Bool)
    (uninitialized : ℕ → FloatQ) {p : List (IndexTuple κ)} (hp : p ≠ []) (it : IndexTuple κ) :
    ∃ itup, 1 ≤ gistchoose giststate random uninitialized p it ∧
      p[gistchoose giststate random uninitialized p it - 1]? = some itup ∧
      ∀ other ∈ p, LexLe (penalties giststate it itup) (penalties giststate it other) := by
  cases p with
  | nil => exact absurd rfl hp
  | cons first rest =>
    have hcost : ∀ itup : IndexTuple κ, ∀ j, (penalties giststate it itup j).IsCost :=
      fun itup j => gistpenalty_isCost giststate j _ _
    have hrest : ∀ row ∈ rest.map (penalties giststate it), ∀ j, (row j).IsCost := by
      intro row hrow
      obtain ⟨itup, -, rfl⟩ := List.mem_map.mp hrow
      exact hcost itup
    have hloop : ∃ best, Best ((first :: rest).map (penalties giststate it)) best
        (chooseTuples random 1 ((first :: rest).map (penalties giststate it))
          ⟨1, Function.update uninitialized 0 (.fin (-1)), none, 0⟩) := by
      obtain ⟨hfirst, hleave⟩ := best_first random (hcost first) uninitialized
      rw [List.map_cons, chooseTuples]
      rcases hstep : chooseTuple random 1 (penalties giststate it first)
        ⟨1, Function.update uninitialized 0 (.fin (-1)), none, 0⟩ with ⟨st, leave⟩
      rw [hstep] at hfirst hleave
      dsimp only at hfirst hleave ⊢
      cases leave with
      | true =>
        have hzero := hleave rfl
        rw [hzero] at hfirst ⊢
        exact ⟨_, hfirst.of_zero hrest⟩
      | false => exact hfirst.chooseTuples (hcost first) _ hrest
    obtain ⟨best, hbest⟩ := hloop
    have hchosen := hbest.chosen
    rw [List.getElem?_map, Option.map_eq_some_iff] at hchosen
    obtain ⟨itup, hitup, rfl⟩ := hchosen
    exact ⟨itup, hbest.pos, hitup, fun other hother =>
      hbest.least _ (List.mem_map_of_mem hother)⟩

end Choice

end PgRange.Gist
