import PgRange.Math.FloatQ
import PgRange.Math.KeyVector
import PgRange.Range.Basic

/-!
# Index tuples of several columns

The core of the GiST code works on tuples with one key for each column of the index, and calls
the support functions of the columns' operator classes for everything that depends on the type of
a key. A key may be NULL. The functions of `gistutil.c` lift the support functions to tuples: they
unite tuples, adjust a downlink for a new tuple, and find the penalty of an insertion.

The keys of a tuple are a vector that is ordered by how much it covers; a NULL key covers nothing
and is covered by every key. If the support functions do what they are for (`GistState.Lawful`),
then unions are least upper bounds in this order, and a downlink is adjusted exactly if it does
not cover the new tuple.

## Main definitions

* `GistColumn`, `GistState` — the support functions of a column and of an index
* `IndexTuple`, `gistFormTuple`
* `gistMakeUnionItVec`, `gistMakeUnionKey`, `gistgetadjusted`, `gistpenalty`
* `GistColumn.Lawful`, `GistState.Lawful` — what the support functions are for

## Main results

* `gistMakeUnionItVec_isLUB` — the union of tuples
* `gistgetadjusted_spec` — when and how a downlink is adjusted
-/

set_option autoImplicit false

namespace PgRange.Gist

open Math

/-! ### Support functions -/

/-- One side of a `GIST_SPLITVEC`: the offsets placed there and the union of their keys. The union is
the null pointer until something is placed. -/
structure SplitSide (κ : Type) where
  offsets : List ℕ
  datum : Option κ
  defined : datum.isSome = !offsets.isEmpty

/-- The support functions of a column with keys of type `κ`. There is no function that compresses
or decompresses keys, and the penalty function is strict. -/
structure GistColumn (κ : Type) where
  unionFn : List κ → Except Fault κ
  penaltyFn : κ → κ → FloatQ
  picksplitFn : List κ → Except Fault (SplitSide κ × SplitSide κ)
  equalFn : κ → κ → Bool

/-- `GISTSTATE`: the columns, and the size of a tuple that `index_form_tuple` builds for an internal
page. -/
structure GistState {n : ℕ} (κ : Fin n → Type) where
  column : (j : Fin n) → GistColumn (κ j)
  formSize : KeyVector κ → ℕ

/-- The errors of the core. -/
inductive GistError
  | fault (fault : Fault)
  | indexRowRequires (size : ℕ)
  | indexRowSize (size : ℕ)
  | stackDepth
  | incompleteSplit
  | tooManySplitPages (npage : ℕ)
  | failedToAddItem
  | failedToRefindParent (blkno : ℕ)
  | invalidInnerTuple
  | invalidLeafTuple
  | invalidOffset
  | serializationFailure
  deriving DecidableEq, Repr

/-- An error of a support function is one of the core. -/
def callSupport {β : Type} (result : Except Fault β) : Except GistError β :=
  result.mapError .fault

/-- `ItemPointerData`: a row of the table, or on an internal page the block below. -/
structure ItemPointer where
  block : ℕ
  offset : ℕ
  deriving DecidableEq, Repr

/-- `IndexTupleData`: the keys, the pointer and the size in bytes. -/
structure IndexTuple {n : ℕ} (κ : Fin n → Type) where
  keys : KeyVector κ
  tid : ItemPointer
  size : ℕ

variable {n : ℕ} {κ : Fin n → Type}

/-- `INDEX_SIZE_MASK`. -/
def indexSizeMask : ℕ := 0x1FFF

/-- `gistFormTuple` for an internal page. The offset is set for historical reasons only. -/
def gistFormTuple (giststate : GistState κ) (attdata : KeyVector κ) :
    Except GistError (IndexTuple κ) :=
  let size := giststate.formSize attdata
  if size ≤ indexSizeMask then .ok ⟨attdata, ⟨0, 0xffff⟩, size⟩ else .error (.indexRowRequires size)

/-! ### Unions and penalties -/

/-- The keys that are not NULL in a column. -/
def columnKeys (itvec : List (IndexTuple κ)) (j : Fin n) : List (κ j) :=
  itvec.filterMap fun it => it.keys j

/-- `gistMakeUnionItVec`. -/
def gistMakeUnionItVec (giststate : GistState κ) (itvec : List (IndexTuple κ)) :
    Except Fault (KeyVector κ) :=
  sequence fun j =>
    match columnKeys itvec j with
    | [] => .ok none
    -- the union function may expect at least two keys
    | [key] => some <$> (giststate.column j).unionFn [key, key]
    | keys => some <$> (giststate.column j).unionFn keys

/-- `gistMakeUnionKey`. -/
def gistMakeUnionKey (giststate : GistState κ) (j : Fin n) :
    Option (κ j) → Option (κ j) → Except Fault (Option (κ j))
  | none, none => .ok none
  | some entry1, some entry2 => some <$> (giststate.column j).unionFn [entry1, entry2]
  | some entry1, none => some <$> (giststate.column j).unionFn [entry1, entry1]
  | none, some entry2 => some <$> (giststate.column j).unionFn [entry2, entry2]

/-- The condition under which a column sets `neednew`: the new key is not NULL, and the old one
is or differs from the union. -/
def needNew (giststate : GistState κ) (j : Fin n) : Option (κ j) → Option (κ j) →
    Option (κ j) → Bool
  | _, none, _ => false
  | _, some _, none => false
  | none, some _, some _ => true
  | some old, some _, some attr => !(giststate.column j).equalFn old attr

/-- `gistgetadjusted`: the union of the old tuple and the new one, unless it is the old one. -/
def gistgetadjusted (giststate : GistState κ) (oldtup addtup : IndexTuple κ) :
    Except GistError (Option (IndexTuple κ)) := do
  let attr ← callSupport <| sequence fun j =>
    gistMakeUnionKey giststate j (oldtup.keys j) (addtup.keys j)
  if (List.finRange n).any fun j => needNew giststate j (oldtup.keys j) (addtup.keys j) (attr j)
  then
    let newtup ← gistFormTuple giststate attr
    return some { newtup with tid := oldtup.tid }
  else
    return none

/-- `gistpenalty`. -/
def gistpenalty (giststate : GistState κ) (j : Fin n) : Option (κ j) → Option (κ j) → FloatQ
  | some orig, some add =>
    let penalty := (giststate.column j).penaltyFn orig add
    -- a negative penalty is not allowed, nor one that is no number
    if penalty.isNan || penalty.lt (.fin 0) then .fin 0 else penalty
  | none, none => .fin 0
  -- null and other keys should not be mixed
  | _, _ => .posInf

/-! ### What support functions are for -/

/-- The datum of a side is the union of the keys at its offsets. -/
def SplitSide.IsUnion {κ : Type} [Preorder κ] (valid : κ → Prop) (keys : List κ)
    (side : SplitSide κ) : Prop :=
  ∀ u, side.datum = some u → valid u ∧ IsLUB {x | ∃ off ∈ side.offsets, keys[off - 1]? = some x} u

/-- The support functions of a column do what they are for on the keys of the index: the union is
a least upper bound, equal keys cover each other, and a split places each key once. It may fail to
put keys on both sides. -/
structure GistColumn.Lawful {κ : Type} [Preorder κ] (column : GistColumn κ) (valid : κ → Prop) :
    Prop where
  union : ∀ keys ≠ [], (∀ k ∈ keys, valid k) →
    ∃ u, column.unionFn keys = .ok u ∧ valid u ∧ IsLUB {k | k ∈ keys} u
  equal : ∀ a b, valid a → valid b → (column.equalFn a b = true ↔ a ≤ b ∧ b ≤ a)
  picksplit : ∀ keys, 2 ≤ keys.length → keys.length < 65535 → (∀ k ∈ keys, valid k) →
    ∃ left right, column.picksplitFn keys = .ok (left, right) ∧
      (left.offsets ++ right.offsets).Perm (List.range' 1 keys.length) ∧
      left.IsUnion valid keys ∧ right.IsUnion valid keys

variable [∀ j, Preorder (κ j)]

/-- The support functions of all columns do. -/
def GistState.Lawful (giststate : GistState κ) (valid : (j : Fin n) → κ j → Prop) : Prop :=
  ∀ j, (giststate.column j).Lawful (valid j)

omit [∀ j, Preorder (κ j)] in
/-- Keys of the index, or none. -/
def ValidKeys (valid : (j : Fin n) → κ j → Prop) (keys : KeyVector κ) : Prop :=
  ∀ j k, keys j = some k → valid j k

/-- The vector is the least one that covers the keys of all these tuples. -/
def Unites (itvec : List (IndexTuple κ)) (keys : KeyVector κ) : Prop :=
  IsLUB {k | ∃ it ∈ itvec, it.keys = k} keys

/-! ### Unions are least upper bounds -/

section Union

variable {giststate : GistState κ} {valid : (j : Fin n) → κ j → Prop}

omit [∀ j, Preorder (κ j)] in
theorem mem_columnKeys {itvec : List (IndexTuple κ)} {j : Fin n} {k : κ j} :
    k ∈ columnKeys itvec j ↔ ∃ it ∈ itvec, it.keys j = some k := by
  simp [columnKeys, List.mem_filterMap]

/-- The union of one column. -/
theorem unionColumn_isLUB (h : giststate.Lawful valid) (j : Fin n) {keys : List (κ j)}
    (hne : keys ≠ []) (hkeys : ∀ k ∈ keys, valid j k) :
    ∃ u, (match keys with
        | [] => .ok none
        | [key] => some <$> (giststate.column j).unionFn [key, key]
        | keys => some <$> (giststate.column j).unionFn keys) = Except.ok (some u) ∧
      valid j u ∧ IsLUB {k | k ∈ keys} u := by
  match keys, hne, hkeys with
  | [key], _, hkeys =>
    obtain ⟨u, hu, hvalid, hlub⟩ := (h j).union [key, key] (by simp) (by simpa using hkeys)
    refine ⟨u, by simp [hu], hvalid, ?_⟩
    simpa using hlub
  | key :: key' :: keys, hne, hkeys =>
    obtain ⟨u, hu, hvalid, hlub⟩ := (h j).union (key :: key' :: keys) hne hkeys
    exact ⟨u, by simp [hu], hvalid, hlub⟩

/-- The union of tuples is the least vector that covers them. -/
theorem gistMakeUnionItVec_isLUB (h : giststate.Lawful valid) {itvec : List (IndexTuple κ)}
    (hvalid : ∀ it ∈ itvec, ValidKeys valid it.keys) :
    ∃ attr, gistMakeUnionItVec giststate itvec = .ok attr ∧ ValidKeys valid attr ∧
      Unites itvec attr := by
  -- the result in each column
  have hcolumn : ∀ j, ∃ a : Option (κ j), (match columnKeys itvec j with
        | [] => .ok none
        | [key] => some <$> (giststate.column j).unionFn [key, key]
        | keys => some <$> (giststate.column j).unionFn keys) = Except.ok a ∧
      (a = none → columnKeys itvec j = []) ∧
      ∀ k, a = some k → columnKeys itvec j ≠ [] ∧ valid j k ∧
        IsLUB {x | x ∈ columnKeys itvec j} k := by
    intro j
    have hkeys : ∀ k ∈ columnKeys itvec j, valid j k := by
      intro k hk
      obtain ⟨it, hit, hk⟩ := mem_columnKeys.mp hk
      exact hvalid it hit j k hk
    by_cases hne : columnKeys itvec j = []
    · exact ⟨none, by rw [hne], fun _ => hne, by simp⟩
    · obtain ⟨u, hu, hval, hlub⟩ := unionColumn_isLUB h j hne hkeys
      refine ⟨some u, hu, by simp, ?_⟩
      rintro k ⟨⟩
      exact ⟨hne, hval, hlub⟩
  choose attr hattr hnone hsome using hcolumn
  refine ⟨attr, sequence_eq_ok_iff.mpr hattr, fun j k hk => (hsome j k hk).2.1, ?_⟩
  apply KeyVector.isLUB_of_columns
  · rintro j hj _ ⟨it, hit, rfl⟩
    by_contra hne
    obtain ⟨k, hk⟩ := Option.ne_none_iff_exists'.mp hne
    have hmem := mem_columnKeys.mpr ⟨it, hit, hk⟩
    simp [hnone j hj] at hmem
  · intro j k hk
    obtain ⟨hne, -, hlub⟩ := hsome j k hk
    constructor
    · obtain ⟨x, hx⟩ := List.exists_mem_of_ne_nil _ hne
      obtain ⟨it, hit, hx⟩ := mem_columnKeys.mp hx
      exact ⟨it.keys, ⟨it, hit, rfl⟩, by simp [hx]⟩
    · have hset : {x | ∃ a ∈ {k | ∃ it ∈ itvec, it.keys = k}, a j = some x} =
          {x | x ∈ columnKeys itvec j} := by
        ext x
        simp [mem_columnKeys]
      rwa [hset]

/-- The union of two keys of a column: there is one unless both are NULL, it covers both, and it
is covered by what covers both. -/
theorem gistMakeUnionKey_spec (h : giststate.Lawful valid) (j : Fin n) {a b : Option (κ j)}
    (ha : ∀ k, a = some k → valid j k) (hb : ∀ k, b = some k → valid j k) :
    ∃ u, gistMakeUnionKey giststate j a b = .ok u ∧ (u = none ↔ a = none ∧ b = none) ∧
      ∀ k, u = some k → valid j k ∧ IsLUB {x | a = some x ∨ b = some x} k := by
  -- in each case the union function is called with two keys, which are all there are
  have hcall : ∀ x y, valid j x → valid j y → {z | a = some z ∨ b = some z} = {x, y} →
      gistMakeUnionKey giststate j a b = some <$> (giststate.column j).unionFn [x, y] →
      ∃ u, gistMakeUnionKey giststate j a b = .ok (some u) ∧ valid j u ∧
        IsLUB {z | a = some z ∨ b = some z} u := by
    intro x y hx hy hset hdef
    obtain ⟨u, hu, hvalid, hlub⟩ := (h j).union [x, y] (by simp) (by simp [hx, hy])
    refine ⟨u, by simp [hdef, hu], hvalid, ?_⟩
    have hpair : {k | k ∈ [x, y]} = ({x, y} : Set (κ j)) := by
      ext z
      simp
    rwa [hset, ← hpair]
  by_cases hnull : a = none ∧ b = none
  · obtain ⟨rfl, rfl⟩ := hnull
    exact ⟨none, rfl, by simp, by simp⟩
  · have hsome : ∃ u, gistMakeUnionKey giststate j a b = .ok (some u) ∧ valid j u ∧
        IsLUB {z | a = some z ∨ b = some z} u := by
      match a, b, hnull with
      | some x, some y, _ =>
        exact hcall x y (ha x rfl) (hb y rfl) (by ext z; simp [eq_comm]) rfl
      | some x, none, _ => exact hcall x x (ha x rfl) (ha x rfl) (by ext z; simp [eq_comm]) rfl
      | none, some y, _ => exact hcall y y (hb y rfl) (hb y rfl) (by ext z; simp [eq_comm]) rfl
      | none, none, hnull => exact absurd ⟨rfl, rfl⟩ hnull
    obtain ⟨u, hu, hvalid, hlub⟩ := hsome
    refine ⟨some u, hu, by simp [hnull], ?_⟩
    rintro k ⟨⟩
    exact ⟨hvalid, hlub⟩

/-- A column asks for a new tuple exactly if the old key does not cover the new one. -/
theorem needNew_iff (h : giststate.Lawful valid) (j : Fin n) {a b u : Option (κ j)}
    (ha : ∀ k, a = some k → valid j k) (hnone : u = none ↔ a = none ∧ b = none)
    (hsome : ∀ k, u = some k → valid j k ∧ IsLUB {x | a = some x ∨ b = some x} k) :
    needNew giststate j a b u = false ↔ ∀ k, b = some k → ∃ k', a = some k' ∧ k ≤ k' := by
  match a, b, u with
  | a, none, u => cases a <;> simp [needNew]
  | a, some x, none => simp at hnone
  | none, some x, some v => simp [needNew]
  | some o, some x, some v =>
    obtain ⟨hvalid, hlub⟩ := hsome v rfl
    have hov : o ≤ v := hlub.1 (Or.inl rfl)
    have heq := (h j).equal o v (ha o rfl) hvalid
    simp only [needNew, Bool.not_eq_false', heq, Option.some.injEq, exists_eq_left',
      forall_eq']
    constructor
    · rintro ⟨-, hvo⟩
      exact (hlub.1 (Or.inr rfl)).trans hvo
    · intro hxo
      refine ⟨hov, hlub.2 ?_⟩
      rintro z (hz | hz)
      · exact (Option.some.inj hz).ge
      · exact (Option.some.inj hz).symm.le.trans hxo

/-- A downlink is left alone exactly if it covers the new tuple. Otherwise it keeps its pointer and
gets the least keys that cover both. -/
theorem gistgetadjusted_spec (h : giststate.Lawful valid) {oldtup addtup : IndexTuple κ}
    (hold : ValidKeys valid oldtup.keys) (hadd : ValidKeys valid addtup.keys) :
    ∃ attr, ValidKeys valid attr ∧ IsLUB {oldtup.keys, addtup.keys} attr ∧
      (addtup.keys ≤ oldtup.keys → gistgetadjusted giststate oldtup addtup = .ok none) ∧
      (¬ addtup.keys ≤ oldtup.keys → gistgetadjusted giststate oldtup addtup =
        (gistFormTuple giststate attr).map fun newtup => some { newtup with tid := oldtup.tid }) := by
  have hcolumn := fun j => gistMakeUnionKey_spec h j (hold j) (hadd j)
  choose attr hattr hnone hsome using hcolumn
  have hunion : (sequence fun j =>
      gistMakeUnionKey giststate j (oldtup.keys j) (addtup.keys j)) = .ok attr :=
    sequence_eq_ok_iff.mpr hattr
  refine ⟨attr, fun j k hk => (hsome j k hk).1, ?_, ?_⟩
  · apply KeyVector.isLUB_of_columns
    · rintro j hj a (rfl | rfl)
      · exact ((hnone j).mp hj).1
      · exact ((hnone j).mp hj).2
    · intro j k hk
      constructor
      · by_contra hall
        have : attr j = none := (hnone j).mpr (by simpa using hall)
        simp [this] at hk
      · have hset : {x | ∃ a ∈ ({oldtup.keys, addtup.keys} : Set (KeyVector κ)), a j = some x} =
            {x | oldtup.keys j = some x ∨ addtup.keys j = some x} := by
          ext x
          simp
        rw [hset]
        exact (hsome j k hk).2
  · -- the columns ask for a new tuple exactly if one of them is not covered
    have hneed : (List.finRange n).any (fun j =>
        needNew giststate j (oldtup.keys j) (addtup.keys j) (attr j)) = false ↔
        addtup.keys ≤ oldtup.keys := by
      rw [List.any_eq_false, KeyVector.le_iff]
      simp only [List.mem_finRange, forall_const, Bool.not_eq_true]
      exact forall_congr' fun j => needNew_iff h j (hold j) (hnone j) (hsome j)
    constructor
    · intro hle
      simp [gistgetadjusted, callSupport, hunion, Except.mapError, hneed.mpr hle, bind,
        Except.bind, pure, Except.pure]
    · intro hnot
      rw [← hneed, Bool.not_eq_false] at hnot
      simp only [gistgetadjusted, callSupport, hunion, Except.mapError, hnot, bind, Except.bind]
      cases gistFormTuple giststate attr <;> rfl

end Union

end PgRange.Gist
