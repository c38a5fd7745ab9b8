import PgRange.Selectivity.Merge
import PgRange.Selectivity.Share

/-!
# What a restriction estimate adds up

`rangerestsel_inner` adds up the frequencies of the buckets before the constant, for
`<<`, or of those that meet it, for `&&`. Before the constant means before the first
bucket that meets it; if none does, that is all buckets, even when the constant lies
wholly before the column. And a sum below one is replaced by the first frequency times
the lower bound of the constant, in units of the interval length, wherever the column
starts.

## Main results

* `rangerestselInner_exclusive_iff` — when the estimates of the two operators, which
  exclude each other, do not exceed certainty
* `rangerestselInner_left_monotone_iff` — when the estimate for `<<` grows with the lower
  bound of the constant
-/

set_option autoImplicit false

namespace PgRange.Selectivity

open Math Stats

theorem zero_le_of_mem_map_fin {qs : List ℚ} (hq : ∀ q ∈ qs, 0 ≤ q) :
    ∀ f ∈ qs.map FloatQ.fin, (FloatQ.fin 0).le f = true := by
  intro f hf
  obtain ⟨q, hmem, rfl⟩ := List.mem_map.mp hf
  exact decide_eq_true (hq q hmem)

/-! ### Operators that exclude each other -/

section Exclusive

variable (A : CInt) (R : CFloat)

/-- The estimates of `<<` and `&&` are not negative, and add up to at most one. -/
def Exclusive (freqs : List FloatQ) (rows : ℕ) (min1 max1 : ℤ) (lower upper : RangeBound Datum) :
    Prop :=
  ∃ l o, rangerestselInner A R freqs rows min1 max1 lower upper .left = .ok l ∧
    rangerestselInner A R freqs rows min1 max1 lower upper .overlap = .ok o ∧
    (FloatQ.fin 0).le l = true ∧ (FloatQ.fin 0).le o = true ∧ (R.add l o).le (.fin 1) = true

/-- A value for `<<` leaves room for the buckets that meet the constant `[a,b)`. -/
def LeavesRoom (freqs : List FloatQ) (rows : ℕ) (min1 length a b : ℤ) (value : FloatQ) : Prop :=
  (R.add (R.div value (.fin rows))
    (R.div (overlapSum A R min1 length a b freqs) (.fin rows))).le (.fin 1) = true

instance (freqs : List FloatQ) (rows : ℕ) (min1 length a b : ℤ) (value : FloatQ) :
    Decidable (LeavesRoom A R freqs rows min1 length a b value) :=
  inferInstanceAs (Decidable (_ = _))

/-- Whatever is before the first bucket that meets the constant leaves room for the buckets
that do, unless the additions round. -/
theorem leavesRoom_leftSum {R : CFloat} {qs : List ℚ} {rows : ℕ} (hrows : 1 ≤ rows)
    (hsum : qs.sum ≤ rows) (hadds : R.Adds qs) (min1 length a b : ℤ) :
    LeavesRoom A R (qs.map .fin) rows min1 length a b
      (leftSum A R min1 length a b (qs.map .fin)) := by
  have hpos : (0 : ℚ) < rows := by exact_mod_cast hrows
  set before := initialRun (fun i => !restInRange A min1 length a b i) qs
  set meeting := firstRun (restInRange A min1 length a b) qs
  have hbefore : leftSum A R min1 length a b (qs.map .fin) = .fin before.sum := by
    rw [leftSum, initialRun_map]
    exact hadds.sum_eq (initialRun_sublist _ _)
  have hmeeting : overlapSum A R min1 length a b (qs.map .fin) = .fin meeting.sum := by
    rw [overlapSum, firstRun_map]
    exact hadds.sum_eq (firstRun_sublist _ _)
  have hparts : before.sum + meeting.sum ≤ rows := by
    rw [← List.sum_append]
    exact ((initialRun_append_firstRun_sublist _ qs).sum_le_sum hadds.nonneg).trans hsum
  have hnonneg : ∀ {ps : List ℚ}, ps.Sublist qs → 0 ≤ ps.sum := fun hsub =>
    List.sum_nonneg fun q hq => hadds.nonneg q (hsub.subset hq)
  rw [LeavesRoom, hbefore, hmeeting, CFloat.div, CFloat.div, FloatQ.fin_div_fin hpos.ne',
    FloatQ.fin_div_fin hpos.ne']
  refine CFloat.add_round_le_one (div_nonneg (hnonneg (initialRun_sublist _ _)) hpos.le)
    (div_nonneg (hnonneg (firstRun_sublist _ _)) hpos.le) ?_
  rw [← add_div]
  exact (div_le_one hpos).mpr hparts

end Exclusive

/-- Two rows `[100,108)`, in nine buckets of one integer: their frequencies as the
statistics hold them. -/
def eightQuarters : List ℚ := List.replicate 8 (1 / 4) ++ [0]

/-- A column on which the `int` arithmetic of `rangerestsel_inner` loses nothing. -/
structure RestColumn (A : CInt) (nb : ℕ) (min1 max1 : ℤ) : Prop where
  lt : min1 < max1
  keepsMin : A.wrap min1 = min1
  keepsDistance : A.wrap (max1 - min1) = max1 - min1
  keepsEnd : A.wrap (min1 + nb * restLength A nb min1 max1) =
    min1 + nb * restLength A nb min1 max1

/-- A bucket meets the constant, its ends included. -/
def MeetsConst (min1 length a b : ℤ) (i : ℕ) : Prop :=
  a ≤ bucketStart min1 length (i + 1) ∧ bucketStart min1 length i ≤ b

instance (min1 length a b : ℤ) : DecidablePred (MeetsConst min1 length a b) := fun _ =>
  inferInstanceAs (Decidable (_ ∧ _))

/-- The buckets that meet a constant are in a row. -/
theorem MeetsConst.between {min1 length a b : ℤ} {i j k : ℕ} (hlength : 0 < length)
    (hi : MeetsConst min1 length a b i) (hk : MeetsConst min1 length a b k) (hij : i ≤ j)
    (hjk : j ≤ k) : MeetsConst min1 length a b j := by
  have hmono := (bucketStart_strictMono min1 hlength).monotone
  exact ⟨hi.1.trans (hmono (Nat.succ_le_succ hij)), (hmono hjk).trans hk.2⟩

theorem restInRange_eq_true_iff {A : CInt} {min1 length a b : ℤ} {i : ℕ} :
    restInRange A min1 length a b i = true ↔
      a ≤ A.wrap (bucketStart min1 length (i + 1)) ∧
        A.wrap (bucketStart min1 length i) ≤ b := by
  rw [restInRange, restInterval, isInRange_eq_true_iff, A.wrap_add_wrap, A.wrap_add_wrap,
    bucketStart, bucketStart]
  push_cast
  rfl

namespace RestColumn

variable {A : CInt} {nb : ℕ} {min1 max1 : ℤ} (h : RestColumn A nb min1 max1)

include h

/-- The interval length is the distance of the ends, by the number of buckets. -/
theorem restLength_isCeil (hnb : 1 ≤ nb) :
    IsCeil (max1 - min1) nb (restLength A nb min1 max1) := by
  have hlt := h.lt
  obtain ⟨c, hrun, hceil⟩ := roundUpDivision_isCeil A (by omega : 0 ≤ max1 - min1)
    (by exact_mod_cast hnb : (0 : ℤ) < nb) h.keepsDistance
  have hlength := restIntervalLength_eq A min1 max1 (Nat.one_le_iff_ne_zero.mp hnb)
  rw [restIntervalLength, h.keepsDistance, hrun, Except.ok.injEq] at hlength
  rwa [← hlength]

theorem restLength_pos (hnb : 1 ≤ nb) : 0 < restLength A nb min1 max1 :=
  (h.restLength_isCeil hnb).pos (by exact_mod_cast hnb) (sub_pos.mpr h.lt)

theorem restLength_le (hnb : 1 ≤ nb) : restLength A nb min1 max1 ≤ max1 - min1 := by
  have hcast : (1 : ℤ) ≤ nb := by exact_mod_cast hnb
  exact (h.restLength_isCeil hnb).le_of_le (by omega)
    (le_mul_of_one_le_right (sub_pos.mpr h.lt).le hcast)

/-- The ends of the buckets are not lost. -/
theorem keeps_bucketStart {i : ℕ} (hi : i ≤ nb) :
    A.wrap (bucketStart min1 (restLength A nb min1 max1) i) =
      bucketStart min1 (restLength A nb min1 max1) i := by
  rcases nb.eq_zero_or_pos with rfl | hnb
  · obtain rfl : i = 0 := Nat.le_zero.mp hi
    rw [bucketStart_zero]
    exact h.keepsMin
  · have hmono := (bucketStart_strictMono min1 (h.restLength_pos hnb)).monotone
    have hge := hmono (Nat.zero_le i)
    rw [bucketStart_zero] at hge
    exact A.wrap_of_between h.keepsMin h.keepsEnd hge (hmono hi)

/-- The loops test the buckets themselves. -/
theorem restInRange_eq (a b : ℤ) {i : ℕ} (hi : i < nb) :
    restInRange A min1 (restLength A nb min1 max1) a b i =
      decide (MeetsConst min1 (restLength A nb min1 max1) a b i) := by
  rw [Bool.eq_iff_iff, restInRange_eq_true_iff, h.keeps_bucketStart hi.le,
    h.keeps_bucketStart (Nat.succ_le_of_lt hi), decide_eq_true_eq, MeetsConst]

end RestColumn

/-! ### Sums over the buckets -/

/-- The frequencies of some buckets, added up in their order. -/
def addFrequencies (R : CFloat) (freqs : List FloatQ) (buckets : List ℕ) : FloatQ :=
  R.sum (buckets.map fun i => freqs.getD i (.fin 0))

/-- The frequencies of the buckets that end below `a`. -/
def massBelow (R : CFloat) (freqs : List FloatQ) (min1 length a : ℤ) : FloatQ :=
  addFrequencies R freqs
    ((List.range freqs.length).filter fun i => bucketStart min1 length (i + 1) < a)

/-- The frequencies of the buckets that meet the constant. -/
def massMeeting (R : CFloat) (freqs : List FloatQ) (min1 length a b : ℤ) : FloatQ :=
  addFrequencies R freqs
    ((List.range freqs.length).filter fun i => MeetsConst min1 length a b i)

section Mass

variable {R : CFloat} {freqs : List FloatQ} {min1 length : ℤ}

theorem addFrequencies_range :
    addFrequencies R freqs (List.range freqs.length) = R.sum freqs := by
  rw [addFrequencies, map_getD_range]

theorem addFrequencies_le (hfreq : ∀ f ∈ freqs, (FloatQ.fin 0).le f = true) {l l' : List ℕ}
    (hsub : l.Sublist l') : (addFrequencies R freqs l).le (addFrequencies R freqs l') = true := by
  refine CFloat.sum_le_sum (hsub.map _) fun f hf => ?_
  obtain ⟨i, -, rfl⟩ := List.mem_map.mp hf
  rcases lt_or_ge i freqs.length with hi | hi
  · rw [List.getD_eq_getElem _ _ hi]
    exact hfreq _ (List.getElem_mem hi)
  · rw [List.getD_eq_default _ _ hi]
    rfl

theorem massBelow_mono (hfreq : ∀ f ∈ freqs, (FloatQ.fin 0).le f = true) {a a' : ℤ}
    (haa' : a ≤ a') :
    (massBelow R freqs min1 length a).le (massBelow R freqs min1 length a') = true :=
  addFrequencies_le hfreq <| List.monotone_filter_right _ fun i hi => by
    rw [decide_eq_true_eq] at hi ⊢
    exact hi.trans_le haa'

theorem massBelow_le_sum (hfreq : ∀ f ∈ freqs, (FloatQ.fin 0).le f = true) (a : ℤ) :
    (massBelow R freqs min1 length a).le (R.sum freqs) = true := by
  rw [← addFrequencies_range]
  exact addFrequencies_le hfreq List.filter_sublist

/-- No bucket ends below the column. -/
theorem massBelow_eq_zero (hlength : 0 < length) {a : ℤ} (ha : a ≤ min1) :
    massBelow R freqs min1 length a = .fin 0 := by
  have hnone : ((List.range freqs.length).filter fun i =>
      decide (bucketStart min1 length (i + 1) < a)) = [] := by
    rw [List.filter_eq_nil_iff]
    intro i _ hend
    have hmono := bucketStart_strictMono min1 hlength (Nat.succ_pos i)
    rw [bucketStart_zero] at hmono
    exact absurd ((decide_eq_true_eq.mp hend).trans_le ha) hmono.not_gt
  rw [massBelow, hnone]
  rfl

/-- If all buckets end below `a`, all frequencies do. -/
theorem massBelow_eq_sum {a : ℤ}
    (ha : ∀ i < freqs.length, bucketStart min1 length (i + 1) < a) :
    massBelow R freqs min1 length a = R.sum freqs := by
  rw [massBelow, List.filter_eq_self.mpr fun i hi =>
    decide_eq_true (ha i (List.mem_range.mp hi)), addFrequencies_range]

end Mass

namespace RestColumn

variable {A : CInt} {R : CFloat} {nb : ℕ} {min1 max1 : ℤ} (h : RestColumn A nb min1 max1)
  {freqs : List FloatQ} (hn : freqs.length = nb)

include h hn

/-- What is added up for `&&` are the buckets that meet the constant. -/
theorem overlapSum_eq (a b : ℤ) :
    overlapSum A R min1 (restLength A nb min1 max1) a b freqs =
      massMeeting R freqs min1 (restLength A nb min1 max1) a b := by
  subst hn
  rw [overlapSum, firstRun_eq_map_getD _ _ (.fin 0), firstRun_range, massMeeting, addFrequencies,
    List.filter_congr fun i hi => h.restInRange_eq a b (List.mem_range.mp hi)]
  intro i j k hij hjk hk hi hk'
  have hlength := h.restLength_pos (by omega)
  rw [h.restInRange_eq a b (by omega), decide_eq_true_eq] at hi hk' ⊢
  exact hi.between hlength hk' hij hjk

/-- What is added up for `<<` are the buckets that end below the constant, or all if none
meets it. -/
theorem leftSum_eq (a b : ℤ) :
    leftSum A R min1 (restLength A nb min1 max1) a b freqs =
      if ∃ i < nb, MeetsConst min1 (restLength A nb min1 max1) a b i then
        massBelow R freqs min1 (restLength A nb min1 max1) a
      else R.sum freqs := by
  subst hn
  set length := restLength A freqs.length min1 max1 with hlength
  split_ifs with hmeets
  · obtain ⟨i, hi, hmeets⟩ := hmeets
    have hmono := (bucketStart_strictMono min1
      (h.restLength_pos (Nat.one_le_of_lt hi))).monotone
    -- up to the first bucket that does not end below the constant, none meets it; that one does
    rw [leftSum, initialRun_congr fun i => decide (bucketStart min1 length (i + 1) < a),
      initialRun_eq_map_getD _ _ (.fin 0), initialRun_range, massBelow, addFrequencies]
    · intro j k hjk _ hk
      rw [decide_eq_true_eq] at hk ⊢
      exact (hmono (Nat.succ_le_succ hjk)).trans_lt hk
    · intro k hk hbefore
      rw [h.restInRange_eq a b hk, Bool.eq_iff_iff, Bool.not_eq_true', decide_eq_false_iff_not,
        decide_eq_true_eq]
      refine ⟨fun hnot => not_le.mp fun hge => hnot ⟨hge, ?_⟩,
        fun hlt hmeets => absurd hmeets.1 (not_le.mpr hlt)⟩
      have hki : k ≤ i := by
        by_contra hik
        exact absurd hmeets.1 (not_le.mpr (decide_eq_true_eq.mp (hbefore i (not_le.mp hik))))
      exact (hmono hki).trans hmeets.2
  · rw [leftSum, initialRun_congr fun _ => true, initialRun_eq_map_getD _ _ (.fin 0),
      initialRun_range fun _ _ _ _ _ => rfl, List.filter_true]
    · exact addFrequencies_range
    · intro k hk _
      rw [h.restInRange_eq a b hk, decide_eq_false fun hk' => hmeets ⟨k, hk, hk'⟩]
      rfl

/-- A constant before the column leaves all of it on the left. -/
theorem leftSum_of_lt {a b : ℤ} (hb : b < min1) :
    leftSum A R min1 (restLength A nb min1 max1) a b freqs = R.sum freqs := by
  rw [h.leftSum_eq hn, if_neg]
  rintro ⟨i, hi, -, hle⟩
  have hmono := (bucketStart_strictMono min1
    (h.restLength_pos (Nat.one_le_of_lt hi))).monotone (Nat.zero_le i)
  rw [bucketStart_zero] at hmono
  omega

/-- For a constant that ends in the column or behind it, what is on the left is below its
lower bound. -/
theorem leftSum_of_le {a b : ℤ} (hab : a ≤ b) (hb : min1 ≤ b) :
    leftSum A R min1 (restLength A nb min1 max1) a b freqs =
      massBelow R freqs min1 (restLength A nb min1 max1) a := by
  rw [h.leftSum_eq hn]
  split_ifs with hmeets
  · rfl
  · refine (massBelow_eq_sum fun i hi => ?_).symm
    rw [hn] at hi
    -- each bucket starts where the one before ends, which is below the constant
    induction i with
    | zero =>
      by_contra hge
      exact hmeets ⟨0, hi, not_lt.mp hge, by rwa [bucketStart_zero]⟩
    | succ i ih =>
      by_contra hge
      exact hmeets ⟨i + 1, hi, not_lt.mp hge, (ih (Nat.lt_of_succ_lt hi)).le.trans hab⟩

/-- Nothing is on the left of a constant around the start of the column. -/
theorem leftSum_eq_zero {a b : ℤ} (hlength : 0 < restLength A nb min1 max1) (ha : a ≤ min1)
    (hb : min1 ≤ b) : leftSum A R min1 (restLength A nb min1 max1) a b freqs = .fin 0 := by
  rw [h.leftSum_of_le hn (ha.trans hb) hb]
  exact massBelow_eq_zero hlength ha

end RestColumn

/-! ### Moving the constant to the right -/

theorem wrap_int4Lower (A : CInt) {v : ℤ} (hv : FitsInt32 v) :
    A.wrap (int4Lower v).val.toInt = v := by
  rw [int4Lower, toInt_int4Word hv, A.wrap_of_fits hv]

theorem wrap_int4Upper (A : CInt) {v : ℤ} (hv : FitsInt32 v) :
    A.wrap (int4Upper v).val.toInt = v := by
  rw [int4Upper, toInt_int4Word hv, A.wrap_of_fits hv]

section Monotone

/-- The estimate for `<<` with the constant `[a,b)`. -/
def leftEstimate (A : CInt) (R : CFloat) (qs : List ℚ) (rows : ℕ) (min1 max1 a b : ℤ) :
    Except Fault FloatQ :=
  rangerestselInner A R (qs.map .fin) rows min1 max1 (int4Lower a) (int4Upper b) .left

/-- The estimate never decreases when the lower bound of the constant grows, and it is
zero if that is at or below every lower bound of the column. -/
def LeftMonotone (A : CInt) (R : CFloat) (qs : List ℚ) (rows : ℕ) (min1 max1 : ℤ) : Prop :=
  (∀ a b a' b', FitsInt32 a → FitsInt32 b → a < b → FitsInt32 a' → FitsInt32 b' → a' < b' →
    a ≤ a' → ∃ e e', leftEstimate A R qs rows min1 max1 a b = .ok e ∧
      leftEstimate A R qs rows min1 max1 a' b' = .ok e' ∧ e.le e' = true) ∧
  ∀ a b, FitsInt32 a → FitsInt32 b → a < b → a ≤ min1 →
    leftEstimate A R qs rows min1 max1 a b = .ok (.fin 0)

/-- The value that replaces a small sum is zero even for the constant that is furthest from
zero. -/
def HeadVanishes (R : CFloat) (qs : List ℚ) (rows : ℕ) (length : ℤ) : Prop :=
  R.div (leftScaled R length int4Min (qs.map .fin)) (.fin rows) = .fin 0

variable {A : CInt} {R : CFloat} {qs : List ℚ} {min1 max1 length : ℤ} {rows : ℕ}

theorem leftScaled_of_head_eq_zero (hhead : qs.headD 0 = 0) (hlength : length ≠ 0) {v : ℤ}
    (hv : |v| ≤ 2147483648) : leftScaled R length v (qs.map .fin) = .fin 0 := by
  obtain ⟨p, hp⟩ := exists_round_div (R := R) hlength hv
  rw [leftScaled_of_round hlength hp, hhead, zero_mul, R.round_zero]

theorem headVanishes_of_head_eq_zero (hhead : qs.headD 0 = 0) (hlength : length ≠ 0)
    (hrows : 1 ≤ rows) : HeadVanishes R qs rows length := by
  have hne : (rows : ℚ) ≠ 0 := Nat.cast_ne_zero.mpr (Nat.one_le_iff_ne_zero.mp hrows)
  rw [HeadVanishes, leftScaled_of_head_eq_zero hhead hlength (by decide), CFloat.zero_div_fin hne]

/-- The same at the other side of zero. -/
theorem HeadVanishes.neg (hzero : HeadVanishes R qs rows length) (hlength : 0 < length)
    (hrows : 1 ≤ rows) :
    R.div (leftScaled R length (-int4Min) (qs.map .fin)) (.fin rows) = .fin 0 := by
  rw [leftScaled_neg hlength.ne' (by decide), CFloat.div_neg_fin (by exact_mod_cast hrows), hzero]
  rfl

/-- A first frequency that vanishes is tiny. -/
theorem HeadVanishes.head_lt (hzero : HeadVanishes R qs rows length) (hlength : 0 < length)
    (hle : length ≤ 4294967295) (hrows : 1 ≤ rows) (hrows' : rows ≤ 2147483647) :
    qs.headD 0 < 2 ^ (-64 : ℤ) := by
  by_contra hbig
  have hpos : (0 : ℚ) < rows := by exact_mod_cast hrows
  have hcast : (0 : ℚ) < length := by exact_mod_cast hlength
  have hcast' : (length : ℚ) ≤ 4294967295 := by exact_mod_cast hle
  have hrowsle : (rows : ℚ) ≤ 2147483647 := by exact_mod_cast hrows'
  -- the quotient is at least one half, so the product and its part of the rows are normal
  obtain ⟨p, hp⟩ := exists_round_div (R := R) hlength.ne' (v := -int4Min) (by decide)
  have hhalf : 2 ^ (-1 : ℤ) ≤ p := by
    have hquot : (2 : ℚ) ^ (-1 : ℤ) ≤ ((-int4Min : ℤ) : ℚ) / length := by
      rw [le_div_iff₀ hcast]
      norm_num [int4Min]
      linarith
    have hround := R.round_mono hquot
    rwa [R.round_two_zpow (by norm_num) (by norm_num), hp, FloatQ.fin_le_fin,
      decide_eq_true_eq] at hround
  have hprod : (2 : ℚ) ^ (-65 : ℤ) ≤ qs.headD 0 * p := by
    calc (2 : ℚ) ^ (-65 : ℤ) = 2 ^ (-64 : ℤ) * 2 ^ (-1 : ℤ) := by norm_num
      _ ≤ qs.headD 0 * p := mul_le_mul (not_lt.mp hbig) hhalf (by norm_num)
          ((two_zpow_pos _).le.trans (not_lt.mp hbig))
  have hpart : (2 : ℚ) ^ (-96 : ℤ) ≤ 2 ^ (-65 : ℤ) / rows := by
    rw [le_div_iff₀ hpos]
    calc (2 : ℚ) ^ (-96 : ℤ) * rows ≤ 2 ^ (-96 : ℤ) * 2147483648 :=
          mul_le_mul_of_nonneg_left (by linarith) (two_zpow_pos _).le
      _ = 2 ^ (-65 : ℤ) := by norm_num
  have hround := R.round_mono hprod
  rw [R.round_two_zpow (by norm_num) (by norm_num), ← leftScaled_of_round hlength.ne' hp] at hround
  have hdiv := CFloat.div_le_div (R := R) hround hpos
  rw [hzero.neg hlength hrows, CFloat.div, FloatQ.fin_div_fin hpos.ne'] at hdiv
  have hlast := R.round_mono hpart
  rw [R.round_two_zpow (by norm_num) (by norm_num)] at hlast
  have habsurd := FloatQ.le_trans hlast hdiv
  rw [FloatQ.fin_le_fin, decide_eq_true_eq] at habsurd
  exact absurd habsurd (not_le.mpr (two_zpow_pos _))

/-- For a constant that starts at zero it is zero. -/
theorem div_leftScaled_zero (hlength : length ≠ 0) (hrows : 1 ≤ rows) :
    R.div (leftScaled R length 0 (qs.map .fin)) (.fin rows) = .fin 0 := by
  have hne : (rows : ℚ) ≠ 0 := Nat.cast_ne_zero.mpr (Nat.one_le_iff_ne_zero.mp hrows)
  have hround : R.round (((0 : ℤ) : ℚ) / length) = .fin 0 := by
    rw [Int.cast_zero, zero_div, R.round_zero]
  rw [leftScaled_of_round hlength hround, mul_zero, R.round_zero, CFloat.zero_div_fin hne]

/-- The value that replaces a small sum grows with the lower bound of the constant. -/
theorem div_leftScaled_mono (hq : ∀ q ∈ qs, 0 ≤ q) (hlength : 0 < length) (hrows : 1 ≤ rows)
    {v w : ℤ} (hv : |v| ≤ 2147483648) (hw : |w| ≤ 2147483648) (hle : v ≤ w) :
    (R.div (leftScaled R length v (qs.map .fin)) (.fin rows)).le
      (R.div (leftScaled R length w (qs.map .fin)) (.fin rows)) = true := by
  have hcast : (0 : ℚ) < length := by exact_mod_cast hlength
  refine CFloat.div_le_div (leftScaled_mono hq hlength.ne' hv hw ?_) (by exact_mod_cast hrows)
  exact div_le_div_of_nonneg_right (by exact_mod_cast hle) hcast.le

/-- If it vanishes at the far end, it does for every constant. -/
theorem HeadVanishes.scaled_eq_zero (hzero : HeadVanishes R qs rows length)
    (hq : ∀ q ∈ qs, 0 ≤ q) (hlength : 0 < length) (hrows : 1 ≤ rows) {v : ℤ} (hv : FitsInt32 v) :
    R.div (leftScaled R length v (qs.map .fin)) (.fin rows) = .fin 0 := by
  have habs := abs_le_of_fits hv
  have hlow := div_leftScaled_mono (R := R) hq hlength hrows (v := int4Min) (by decide) habs hv.1
  have hhigh := div_leftScaled_mono (R := R) hq hlength hrows (w := -int4Min) habs (by decide)
    (abs_le.mp habs).2
  rw [hzero] at hlow
  rw [hzero.neg hlength hrows] at hhigh
  exact FloatQ.le_antisymm hhigh hlow

theorem leftEstimate_eq (hne : qs ≠ []) {a b : ℤ} (ha : FitsInt32 a)
    (hb : FitsInt32 b) :
    leftEstimate A R qs rows min1 max1 a b =
      .ok (R.div (leftValue R (restLength A qs.length min1 max1) a (qs.map .fin)
        (leftSum A R min1 (restLength A qs.length min1 max1) a b (qs.map .fin))) (.fin rows)) := by
  rw [leftEstimate, rangerestselInner_map_eq A R min1 max1 hne, wrap_int4Lower A ha,
    wrap_int4Upper A hb]
  rfl

/-- A sum that is at least one does not vanish. -/
theorem div_rows_ne_zero {m : FloatQ} (hm0 : (FloatQ.fin 0).le m = true)
    (hm : m.lt (.fin 1) = false) (hrows : 1 ≤ rows) (hrows' : rows ≤ 2147483647) :
    R.div m (.fin rows) ≠ .fin 0 := by
  have hpos : (0 : ℚ) < rows := by exact_mod_cast hrows
  have hrowsle : (rows : ℚ) ≤ 2147483647 := by exact_mod_cast hrows'
  obtain rfl | ⟨q, -, rfl⟩ := FloatQ.zero_le_iff.mp hm0
  · rw [CFloat.div, FloatQ.posInf_div_fin hpos.le]
    intro hzero
    cases hzero
  · rw [FloatQ.fin_lt_fin, decide_eq_false_iff_not, not_lt] at hm
    rw [CFloat.div, FloatQ.fin_div_fin hpos.ne']
    refine CFloat.round_ne_zero (k := -31) (by norm_num) (by norm_num) ?_
    rw [le_div_iff₀ hpos]
    calc (2 : ℚ) ^ (-31 : ℤ) * rows ≤ 2 ^ (-31 : ℤ) * 2147483648 :=
          mul_le_mul_of_nonneg_left (by linarith) (two_zpow_pos _).le
      _ = 1 := by norm_num
      _ ≤ q := hm

/-- An estimate that behaves like a distribution function has no mass in the first
bucket, nor for a constant before the column. -/
theorem LeftMonotone.headVanishes (hmono : LeftMonotone A R qs rows min1 max1)
    (hq : ∀ q ∈ qs, 0 ≤ q) (hrows : 1 ≤ rows) (hrows' : rows ≤ 2147483647)
    (hmin : FitsInt32 min1) (h : RestColumn A qs.length min1 max1) (hne : qs ≠ []) :
    HeadVanishes R qs rows (restLength A qs.length min1 max1) ∧
      ((R.sum (qs.map .fin)).lt (.fin 1) = true ∨ min1 < int4Min + 2) := by
  have hn : (qs.map FloatQ.fin).length = qs.length := List.length_map _
  have hlength := h.restLength_pos (List.length_pos_iff.mpr hne)
  have hlow : int4Min ≤ min1 := hmin.1
  have hhigh : min1 ≤ int4Max := hmin.2
  -- the constants that start at the least value are at or below the column
  have hzero : ∀ b, FitsInt32 b → int4Min < b →
      R.div (leftValue R (restLength A qs.length min1 max1) int4Min (qs.map .fin)
        (leftSum A R min1 (restLength A qs.length min1 max1) int4Min b (qs.map .fin)))
          (.fin rows) = .fin 0 := by
    intro b hb hlt
    have hestimate := hmono.2 int4Min b (by decide) hb hlt hlow
    rwa [leftEstimate_eq hne (by decide) hb, Except.ok.injEq] at hestimate
  constructor
  · have hwhole := hzero int4Max (by decide) (by decide)
    rw [h.leftSum_eq_zero hn hlength hlow hhigh] at hwhole
    exact hwhole
  · by_contra hnot
    rw [not_or, Bool.not_eq_true, not_lt] at hnot
    have hbefore := hzero (int4Min + 1) (by decide) (by decide)
    rw [h.leftSum_of_lt hn (by omega), leftValue, hnot.1] at hbefore
    exact div_rows_ne_zero (CFloat.zero_le_sum (zero_le_of_mem_map_fin hq)) hnot.1 hrows hrows'
      hbefore

/-- The estimate of a sum, if small sums count as zero, is in the order of the sums. -/
theorem leftValue_le {a a' : ℤ} {m m' : FloatQ} {freqs : List FloatQ} (hrows : 1 ≤ rows)
    (ha : R.div (leftScaled R length a freqs) (.fin rows) = .fin 0)
    (ha' : R.div (leftScaled R length a' freqs) (.fin rows) = .fin 0)
    (hm' : (FloatQ.fin 0).le m' = true) (hle : m.le m' = true) :
    (R.div (leftValue R length a freqs m) (.fin rows)).le
      (R.div (leftValue R length a' freqs m') (.fin rows)) = true := by
  have hpos : (0 : ℚ) < rows := by exact_mod_cast hrows
  unfold leftValue
  split_ifs with hsmall hsmall'
  · rw [ha, ha']
    rfl
  · rw [ha]
    exact CFloat.zero_le_div hpos hm'
  · exact absurd (FloatQ.lt_of_le_of_lt hle ‹_›) hsmall
  · exact CFloat.div_le_div hle hpos

/-- The sums of two constants are in the order of their lower bounds, unless one lies before
the column. -/
theorem RestColumn.leftSum_mono (h : RestColumn A qs.length min1 max1) (hq : ∀ q ∈ qs, 0 ≤ q)
    {a b a' b' : ℤ} (hb : min1 ≤ b) (hab : a < b) (hb' : min1 ≤ b') (hab' : a' < b')
    (haa' : a ≤ a') :
    (leftSum A R min1 (restLength A qs.length min1 max1) a b (qs.map .fin)).le
      (leftSum A R min1 (restLength A qs.length min1 max1) a' b' (qs.map .fin)) = true := by
  have hn : (qs.map FloatQ.fin).length = qs.length := List.length_map _
  rw [h.leftSum_of_le hn hab.le hb, h.leftSum_of_le hn hab'.le hb']
  exact massBelow_mono (zero_le_of_mem_map_fin hq) haa'

/-- If small sums count as zero, it is enough that the sums are in the order of the lower
bounds or never reach one. -/
theorem leftMonotone_of_headVanishes (hq : ∀ q ∈ qs, 0 ≤ q) (hrows : 1 ≤ rows)
    (h : RestColumn A qs.length min1 max1) (hne : qs ≠ [])
    (hhead : HeadVanishes R qs rows (restLength A qs.length min1 max1))
    (hroom : (R.sum (qs.map .fin)).lt (.fin 1) = true ∨ min1 < int4Min + 2) :
    LeftMonotone A R qs rows min1 max1 := by
  have hn : (qs.map FloatQ.fin).length = qs.length := List.length_map _
  have hlength := h.restLength_pos (List.length_pos_iff.mpr hne)
  have hfreq := zero_le_of_mem_map_fin hq
  have hscaled : ∀ {v : ℤ}, FitsInt32 v →
      R.div (leftScaled R (restLength A qs.length min1 max1) v (qs.map .fin)) (.fin rows) =
        .fin 0 := fun hv => hhead.scaled_eq_zero hq hlength hrows hv
  have hsub := fun a b => initialRun_sublist
    (fun i => !restInRange A min1 (restLength A qs.length min1 max1) a b i) (qs.map FloatQ.fin)
  rcases hroom with hsmall | hroom
  · have hestimate : ∀ a b, FitsInt32 a → FitsInt32 b →
        leftEstimate A R qs rows min1 max1 a b = .ok (.fin 0) := by
      intro a b ha hb
      have hlt := FloatQ.lt_of_le_of_lt (CFloat.sum_le_sum (R := R) (hsub a b) hfreq) hsmall
      rw [leftEstimate_eq hne ha hb, leftValue, leftSum, if_pos hlt, hscaled ha]
    refine ⟨fun a b a' b' ha hb _ ha' hb' _ _ => ?_, fun a b ha hb _ _ => hestimate a b ha hb⟩
    exact ⟨_, _, hestimate a b ha hb, hestimate a' b' ha' hb', rfl⟩
  · -- no constant ends before the column
    have hends : ∀ {a b : ℤ}, FitsInt32 a → a < b → min1 ≤ b := fun ha hab => by
      have hlow : int4Min ≤ _ := ha.1
      omega
    constructor
    · intro a b a' b' ha hb hab ha' hb' hab' haa'
      refine ⟨_, _, leftEstimate_eq hne ha hb, leftEstimate_eq hne ha' hb', ?_⟩
      refine leftValue_le hrows (hscaled ha) (hscaled ha') ?_
        (h.leftSum_mono hq (hends ha hab) hab (hends ha' hab') hab' haa')
      exact CFloat.zero_le_sum fun f hf => hfreq f ((hsub a' b').subset hf)
    · intro a b ha hb hab hle
      rw [leftEstimate_eq hne ha hb, h.leftSum_eq_zero hn hlength hle (hends ha hab)]
      exact congrArg Except.ok (hscaled ha)

/-- The estimate for `<<` behaves like a distribution function if and only if there is a
bucket, the first frequency is zero, or so small that it vanishes, and no estimate comes from
a constant before the column: either there is no room for one, or the frequencies add up to
less than one. -/
theorem rangerestselInner_left_monotone_iff (hq : ∀ q ∈ qs, 0 ≤ q) (hrows : 1 ≤ rows)
    (hrows' : rows ≤ 2147483647) (hmin : FitsInt32 min1) (hmax : FitsInt32 max1)
    (h : RestColumn A qs.length min1 max1) :
    (LeftMonotone A R qs rows min1 max1 ↔
      qs ≠ [] ∧ HeadVanishes R qs rows (restLength A qs.length min1 max1) ∧
        ((R.sum (qs.map .fin)).lt (.fin 1) = true ∨ min1 < int4Min + 2)) ∧
    (qs ≠ [] → (qs.headD 0 = 0 → HeadVanishes R qs rows (restLength A qs.length min1 max1)) ∧
      (HeadVanishes R qs rows (restLength A qs.length min1 max1) →
        qs.headD 0 < 2 ^ (-64 : ℤ))) := by
  rcases eq_or_ne qs [] with rfl | hne
  · -- without buckets there is no estimate
    refine ⟨iff_of_false (fun hmono => ?_) fun hcond => hcond.1 rfl, fun hne => absurd rfl hne⟩
    have hestimate := hmono.2 int4Min (int4Min + 1) (by decide) (by decide) (by decide) hmin.1
    cases hestimate
  have hlength := h.restLength_pos (List.length_pos_iff.mpr hne)
  refine ⟨⟨fun hmono => ⟨hne, hmono.headVanishes hq hrows hrows' hmin h hne⟩, ?_⟩, fun _ => ?_⟩
  · rintro ⟨-, hhead, hroom⟩
    exact leftMonotone_of_headVanishes hq hrows h hne hhead hroom
  · have hle := h.restLength_le (List.length_pos_iff.mpr hne)
    have hlow := hmin.1
    have hhigh := hmax.2
    exact ⟨fun hhead => headVanishes_of_head_eq_zero hhead hlength.ne' hrows,
      fun hzero => hzero.head_lt hlength (by omega) hrows hrows'⟩

end Monotone

instance (R : CFloat) (qs : List ℚ) (rows : ℕ) (length : ℤ) :
    Decidable (HeadVanishes R qs rows length) := inferInstanceAs (Decidable (_ = _))

/-- A column with half a row, in its second bucket. -/
theorem rangerestselInner_left_monotone_iff_half :
    LeftMonotone .int32 .float8 [0, 1 / 2] 1 0 10 :=
  (rangerestselInner_left_monotone_iff (by decide +kernel) le_rfl (by decide) (by decide)
    (by decide) ⟨by decide, by decide, by decide, by decide⟩).1.mpr
      ⟨by decide, by decide +kernel, Or.inl (by decide +kernel)⟩

/-- Two rows `[100,108)`. Both are estimated to be left of `[0,1)`, which lies before them,
and none to be left of `[0,200)`. -/
theorem leftEstimate_before_column :
    leftEstimate .int32 .float8 eightQuarters 2 100 108 0 1 = .ok (.fin 1) ∧
      leftEstimate .int32 .float8 eightQuarters 2 100 108 0 200 = .ok (.fin 0) := by
  decide +kernel

end PgRange.Selectivity
