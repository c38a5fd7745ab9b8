import Mathlib.Algebra.BigOperators.Intervals
import Mathlib.Algebra.BigOperators.Fin
import Mathlib.Algebra.Order.BigOperators.Group.Finset
import Mathlib.Data.List.GetD

/-!
# Sums that stop early

A loop over an array that adds entries while a test holds and breaks at the first
failure sums an initial segment. One that skips entries until the test holds, and
breaks when it fails again, sums the first run of successes. Both are given here by the
entries that they include, and by the number of rounds that they make, the round that
breaks included.
-/

set_option autoImplicit false

namespace PgRange.Math

/-! ### The entries that are summed -/

section Entries

variable {β : Type*}

/-- The entries before the first position that fails the test. -/
def initialRun : (ℕ → Bool) → List β → List β
  | _, [] => []
  | test, x :: xs => if test 0 then x :: initialRun (fun k => test (k + 1)) xs else []

/-- The entries of the first run of positions that pass the test. -/
def firstRun : (ℕ → Bool) → List β → List β
  | _, [] => []
  | test, x :: xs =>
    if test 0 then x :: initialRun (fun k => test (k + 1)) xs
    else firstRun (fun k => test (k + 1)) xs

/-- Which entries are taken depends on their positions only. -/
theorem initialRun_map {γ : Type*} (f : β → γ) (test : ℕ → Bool) (xs : List β) :
    initialRun test (xs.map f) = (initialRun test xs).map f := by
  induction xs generalizing test with
  | nil => rfl
  | cons x xs ih =>
    rw [List.map_cons, initialRun, initialRun, ih]
    split_ifs <;> rfl

@[inherit_doc initialRun_map]
theorem firstRun_map {γ : Type*} (f : β → γ) (test : ℕ → Bool) (xs : List β) :
    firstRun test (xs.map f) = (firstRun test xs).map f := by
  induction xs generalizing test with
  | nil => rfl
  | cons x xs ih =>
    rw [List.map_cons, firstRun, firstRun, ih, initialRun_map]
    split_ifs <;> rfl

/-- Of the tests, only those matter that are reached. -/
theorem initialRun_congr {test : ℕ → Bool} (test' : ℕ → Bool) {xs : List β}
    (h : ∀ k < xs.length, (∀ j < k, test' j = true) → test k = test' k) :
    initialRun test xs = initialRun test' xs := by
  induction xs generalizing test test' with
  | nil => rfl
  | cons x xs ih =>
    have h0 := h 0 (Nat.succ_pos _) (by simp)
    rw [initialRun, initialRun, h0]
    by_cases hpass : test' 0 = true
    · rw [if_pos hpass, if_pos hpass, ih _ fun k hk hbefore => ?_]
      refine h (k + 1) (Nat.succ_lt_succ hk) fun j hj => ?_
      cases j with
      | zero => exact hpass
      | succ j => exact hbefore j (by omega)
    · rw [if_neg hpass, if_neg hpass]

/-- The entries before the first failure are the first ones. -/
theorem exists_initialRun_eq_take (test : ℕ → Bool) (xs : List β) :
    ∃ n ≤ xs.length, initialRun test xs = xs.take n ∧ (∀ k < n, test k = true) ∧
      (n < xs.length → test n = false) := by
  induction xs generalizing test with
  | nil => exact ⟨0, le_rfl, rfl, by simp, by simp⟩
  | cons x xs ih =>
    rw [initialRun]
    cases h0 : test 0 with
    | false => exact ⟨0, Nat.zero_le _, by simp, by simp, fun _ => h0⟩
    | true =>
      obtain ⟨n, hn, htake, hbefore, hnext⟩ := ih fun k => test (k + 1)
      refine ⟨n + 1, Nat.succ_le_succ hn, by simp [htake], fun k hk => ?_, fun hlt => ?_⟩
      · cases k with
        | zero => exact h0
        | succ k => exact hbefore k (by omega)
      · exact hnext (by simpa using hlt)

theorem initialRun_sublist (test : ℕ → Bool) (xs : List β) : (initialRun test xs).Sublist xs := by
  obtain ⟨n, -, htake, -⟩ := exists_initialRun_eq_take test xs
  rw [htake]
  exact List.take_sublist n xs

theorem firstRun_sublist (test : ℕ → Bool) (xs : List β) : (firstRun test xs).Sublist xs := by
  induction xs generalizing test with
  | nil => exact List.Sublist.slnil
  | cons x xs ih =>
    rw [firstRun]
    split_ifs
    · exact (initialRun_sublist _ xs).cons_cons x
    · exact (ih _).cons x

/-- What comes before the first success, and the run that starts there, have no entry in
common. -/
theorem initialRun_append_firstRun_sublist (test : ℕ → Bool) (xs : List β) :
    (initialRun (fun k => !test k) xs ++ firstRun test xs).Sublist xs := by
  induction xs generalizing test with
  | nil => exact List.Sublist.slnil
  | cons x xs ih =>
    rw [initialRun, firstRun]
    cases h0 : test 0 with
    | true => simpa using initialRun_sublist (fun k => test (k + 1)) xs
    | false => simpa using ih fun k => test (k + 1)

/-- If no success is behind a failure, stopping at the first failure loses none. -/
theorem initialRun_range {test : ℕ → Bool} {n : ℕ}
    (h : ∀ j k, j ≤ k → k < n → test k = true → test j = true) :
    initialRun test (List.range n) = (List.range n).filter test := by
  induction n generalizing test with
  | zero => rfl
  | succ n ih =>
    rw [List.range_succ_eq_map, initialRun, List.filter_cons, initialRun_map, List.filter_map]
    split_ifs with h0
    · rw [ih fun j k hjk hk => h (j + 1) (k + 1) (Nat.succ_le_succ hjk) (Nat.succ_lt_succ hk)]
      rfl
    · rw [eq_comm, List.map_eq_nil_iff, List.filter_eq_nil_iff]
      intro k hk hsucc
      exact h0 (h 0 (k + 1) (Nat.zero_le _) (Nat.succ_lt_succ (List.mem_range.mp hk)) hsucc)

/-- If the successes are in a row, the first run has them all. -/
theorem firstRun_range {test : ℕ → Bool} {n : ℕ}
    (h : ∀ i j k, i ≤ j → j ≤ k → k < n → test i = true → test k = true → test j = true) :
    firstRun test (List.range n) = (List.range n).filter test := by
  induction n generalizing test with
  | zero => rfl
  | succ n ih =>
    have hshift : ∀ i j k, i ≤ j → j ≤ k → k < n → test (i + 1) = true → test (k + 1) = true →
        test (j + 1) = true := fun i j k hij hjk hk =>
      h (i + 1) (j + 1) (k + 1) (Nat.succ_le_succ hij) (Nat.succ_le_succ hjk) (Nat.succ_lt_succ hk)
    rw [List.range_succ_eq_map, firstRun, List.filter_cons, firstRun_map, initialRun_map,
      List.filter_map]
    split_ifs with h0
    · rw [initialRun_range fun j k hjk hk => h 0 (j + 1) (k + 1) (Nat.zero_le _)
        (Nat.succ_le_succ hjk) (Nat.succ_lt_succ hk) h0]
      rfl
    · rw [ih hshift]
      rfl

theorem mem_initialRun_range {test : ℕ → Bool} {n i : ℕ} :
    i ∈ initialRun test (List.range n) ↔ i < n ∧ ∀ k ≤ i, test k = true := by
  obtain ⟨m, hm, htake, hbefore, hnext⟩ := exists_initialRun_eq_take test (List.range n)
  rw [List.length_range] at hm hnext
  rw [htake, List.take_range, Nat.min_eq_left hm, List.mem_range]
  constructor
  · intro hi
    exact ⟨hi.trans_le hm, fun k hk => hbefore k (hk.trans_lt hi)⟩
  · rintro ⟨hi, hall⟩
    by_contra hge
    have hfails := hnext (by omega)
    rw [hall m (not_lt.mp hge)] at hfails
    cases hfails

/-- An entry of the first run is a success, and behind a success before it there is no
failure. -/
theorem mem_firstRun_range {test : ℕ → Bool} {n i : ℕ} :
    i ∈ firstRun test (List.range n) ↔
      i < n ∧ test i = true ∧ ∀ k < i, ∀ m < k, test m = true → test k = true := by
  induction n generalizing test i with
  | zero => simp [firstRun]
  | succ n ih =>
    rw [List.range_succ_eq_map, firstRun, initialRun_map, firstRun_map]
    by_cases h0 : test 0 = true
    · rw [if_pos h0]
      cases i with
      | zero => simp [h0]
      | succ i =>
        rw [List.mem_cons, or_iff_right (Nat.succ_ne_zero i),
          List.mem_map_of_injective Nat.succ_injective, mem_initialRun_range]
        constructor
        · rintro ⟨hi, hall⟩
          refine ⟨by omega, hall i le_rfl, fun k hk m hm _ => ?_⟩
          obtain ⟨k, rfl⟩ : ∃ j, k = j + 1 := ⟨k - 1, by omega⟩
          exact hall k (by omega)
        · rintro ⟨hi, htest, hrun⟩
          refine ⟨by omega, fun k hk => ?_⟩
          rcases Nat.lt_or_eq_of_le hk with hlt | rfl
          · exact hrun (k + 1) (by omega) 0 (by omega) h0
          · exact htest
    · rw [if_neg h0]
      cases i with
      | zero => simp [h0]
      | succ i =>
        rw [List.mem_map_of_injective Nat.succ_injective, ih]
        refine and_congr (by omega) (and_congr_right' ⟨fun hrun k hk m hm hm' => ?_, ?_⟩)
        · -- position zero fails, so an earlier success is behind it
          cases m with
          | zero => exact absurd hm' h0
          | succ m =>
            obtain ⟨k, rfl⟩ : ∃ j, k = j + 1 := ⟨k - 1, by omega⟩
            exact hrun k (by omega) m (by omega) hm'
        · intro hrun k hk m hm hm'
          exact hrun (k + 1) (by omega) (m + 1) (by omega) hm'

/-- If there is a success, the first one is in the first run. -/
theorem exists_mem_firstRun_range {test : ℕ → Bool} {n i : ℕ} (hi : i < n) (htest : test i = true) :
    ∃ j, j ∈ firstRun test (List.range n) := by
  have hsome : ∃ j, test j = true := ⟨i, htest⟩
  exact ⟨Nat.find hsome, mem_firstRun_range.mpr ⟨(Nat.find_min' hsome htest).trans_lt hi,
    Nat.find_spec hsome, fun k hk m hm hm' => absurd hm' (Nat.find_min hsome (hm.trans hk))⟩⟩

theorem map_getD_range (xs : List β) (d : β) :
    ((List.range xs.length).map fun k => xs.getD k d) = xs := by
  refine List.ext_getElem (by simp) fun k _ hk => ?_
  rw [List.getElem_map, List.getElem_range, List.getD_eq_getElem _ _ hk]

/-- The entries at the positions of the initial segment. -/
theorem initialRun_eq_map_getD (test : ℕ → Bool) (xs : List β) (d : β) :
    initialRun test xs = (initialRun test (List.range xs.length)).map fun k => xs.getD k d := by
  rw [← initialRun_map, map_getD_range]

@[inherit_doc initialRun_eq_map_getD]
theorem firstRun_eq_map_getD (test : ℕ → Bool) (xs : List β) (d : β) :
    firstRun test xs = (firstRun test (List.range xs.length)).map fun k => xs.getD k d := by
  rw [← firstRun_map, map_getD_range]

end Entries

/-! ### The number of rounds -/

/-- The rounds, of at most `n`, of a loop that breaks at the first failure. -/
def initialRounds : (ℕ → Bool) → ℕ → ℕ
  | _, 0 => 0
  | test, n + 1 => if test 0 then initialRounds (fun k => test (k + 1)) n + 1 else 1

/-- The rounds, of at most `n`, of a loop that breaks behind the first run of
successes. -/
def firstRunRounds : (ℕ → Bool) → ℕ → ℕ
  | _, 0 => 0
  | test, n + 1 =>
    if test 0 then initialRounds (fun k => test (k + 1)) n + 1
    else firstRunRounds (fun k => test (k + 1)) n + 1

theorem initialRounds_le (test : ℕ → Bool) (n : ℕ) : initialRounds test n ≤ n := by
  induction n generalizing test with
  | zero => exact le_rfl
  | succ n ih =>
    have := ih fun k => test (k + 1)
    rw [initialRounds]
    split_ifs <;> omega

theorem firstRunRounds_le (test : ℕ → Bool) (n : ℕ) : firstRunRounds test n ≤ n := by
  induction n generalizing test with
  | zero => exact le_rfl
  | succ n ih =>
    have := ih fun k => test (k + 1)
    have := initialRounds_le (fun k => test (k + 1)) n
    rw [firstRunRounds]
    split_ifs <;> omega

/-- All rounds are made unless one before the last fails. -/
theorem initialRounds_eq_iff (test : ℕ → Bool) (n : ℕ) :
    initialRounds test (n + 1) = n + 1 ↔ ∀ k < n, test k = true := by
  induction n generalizing test with
  | zero => cases h : test 0 <;> simp [initialRounds, h]
  | succ n ih =>
    rw [initialRounds]
    by_cases h0 : test 0 = true
    · rw [if_pos h0, Nat.add_right_cancel_iff, ih]
      constructor
      · intro h k hk
        cases k with
        | zero => exact h0
        | succ k => exact h k (by omega)
      · intro h k hk
        exact h (k + 1) (by omega)
    · rw [if_neg h0]
      refine iff_of_false (by omega) fun h => ?_
      exact h0 (h 0 (by omega))

/-- All rounds are made unless one before the last fails behind a success. -/
theorem firstRunRounds_eq_iff (test : ℕ → Bool) (n : ℕ) :
    firstRunRounds test (n + 1) = n + 1 ↔
      ∀ j k, j < k → k < n → test j = true → test k = true := by
  induction n generalizing test with
  | zero => cases h : test 0 <;> simp [firstRunRounds, initialRounds, h]
  | succ n ih =>
    rw [firstRunRounds]
    by_cases h0 : test 0 = true
    · rw [if_pos h0, Nat.add_right_cancel_iff, initialRounds_eq_iff]
      constructor
      · intro h j k hjk hk _
        obtain ⟨k, rfl⟩ : ∃ m, k = m + 1 := ⟨k - 1, by omega⟩
        exact h k (by omega)
      · intro h k hk
        exact h 0 (k + 1) (by omega) (by omega) h0
    · rw [if_neg h0, Nat.add_right_cancel_iff, ih]
      constructor
      · intro h j k hjk hk hj
        -- position zero fails, so the success is behind it
        cases j with
        | zero => exact absurd hj h0
        | succ j =>
          obtain ⟨k, rfl⟩ : ∃ m, k = m + 1 := ⟨k - 1, by omega⟩
          exact h j k (by omega) (by omega) hj
      · intro h j k hjk hk hj
        exact h (j + 1) (k + 1) (by omega) (by omega) hj

/-! ### Parts of a sum -/

section Order

variable {M : Type*} [AddCommMonoid M]

theorem sum_range_getD (xs : List M) : ∑ j ∈ Finset.range xs.length, xs.getD j 0 = xs.sum := by
  rw [Finset.sum_range, ← Fin.sum_univ_getElem xs]
  exact Finset.sum_congr rfl fun j _ => List.getD_eq_getElem _ _ j.2

variable [PartialOrder M] [IsOrderedAddMonoid M] {xs : List M}

omit [IsOrderedAddMonoid M] in
theorem getD_nonneg (hxs : ∀ x ∈ xs, 0 ≤ x) (j : ℕ) : 0 ≤ xs.getD j 0 := by
  rcases lt_or_ge j xs.length with hj | hj
  · rw [List.getD_eq_getElem _ _ hj]
    exact hxs _ (List.getElem_mem hj)
  · rw [List.getD_eq_default _ _ hj]

/-- The sum of the first entries is part of the whole. -/
theorem sum_range_le_sum {n : ℕ} (hn : n ≤ xs.length) (hxs : ∀ x ∈ xs, 0 ≤ x) :
    0 ≤ ∑ j ∈ Finset.range n, xs.getD j 0 ∧ ∑ j ∈ Finset.range n, xs.getD j 0 ≤ xs.sum := by
  refine ⟨Finset.sum_nonneg fun j _ => getD_nonneg hxs j, ?_⟩
  calc ∑ j ∈ Finset.range n, xs.getD j 0
      ≤ ∑ j ∈ Finset.range xs.length, xs.getD j 0 :=
        Finset.sum_le_sum_of_subset_of_nonneg (Finset.range_subset_range.mpr hn)
          fun j _ _ => getD_nonneg hxs j
    _ = xs.sum := sum_range_getD xs

end Order

end PgRange.Math
