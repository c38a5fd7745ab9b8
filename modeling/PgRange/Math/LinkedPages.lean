import Mathlib.Algebra.BigOperators.Intervals
import Mathlib.Algebra.Order.BigOperators.Group.Finset
import Mathlib.Data.List.Nodup

/-!
# Search trees with linked pages

The pages of a search tree in which the pages of a level are linked to the right. The entries of an
inner page lead to the pages below and have keys that cover what is there; the entries of a leaf are
the rows. When a page is split, its right half has no entry above for a while. Then the page is
*pending*, its entry covers both halves, and a search goes on to the right.

The changes that an insertion makes keep this shape: entries grow, a page is split, the halves of a
split get their entries, and the root gets a new level below it.

## Main definitions

* `LinkedPages`, `LinkedPages.Sound` — the pages, and their shape
* `rewrite`, `clear`, `splitOff`, `growRoot` — the changes
* `Adds` — which rows a change adds

## Main results

* `Sound.visits` — a search comes to all pages with something above what it searches for
* `Sound.rewrite`, `Sound.link`, `Sound.splitOff`, `Sound.growRoot` — the changes keep the shape
-/

set_option autoImplicit false

namespace PgRange.Math

/-- A page: its entries, whether it is a leaf, the page to the right, and whether this one has no
entry above. -/
structure LinkedPage (ε : Type*) where
  entries : List ε
  leaf : Bool
  next : Option ℕ
  pending : Bool

namespace LinkedPage

variable {ε : Type*} {p : LinkedPage ε}

/-- A page that is not in use. -/
def blank : LinkedPage ε := ⟨[], true, none, false⟩

/-- The entries that lead to pages below. -/
def downs (p : LinkedPage ε) : List ε :=
  if p.leaf then [] else p.entries

/-- How many entries lead to page `c`. -/
def ups (child : ε → ℕ) (c : ℕ) (p : LinkedPage ε) : ℕ := (p.downs.map child).count c

/-- Whether page `c` is to the right. -/
def lefts (c : ℕ) (p : LinkedPage ε) : ℕ := if p.next = some c then 1 else 0

theorem mem_downs {t : ε} : t ∈ p.downs ↔ p.leaf = false ∧ t ∈ p.entries := by
  unfold downs
  cases p.leaf <;> simp

theorem downs_of_inner (hleaf : p.leaf = false) : p.downs = p.entries := by
  simp [downs, hleaf]

theorem ups_of_inner {child : ε → ℕ} (hleaf : p.leaf = false) (c : ℕ) :
    p.ups child c = (p.entries.map child).count c := by
  rw [ups, downs_of_inner hleaf]

theorem ups_pos {child : ε → ℕ} {t : ε} (ht : t ∈ p.downs) : 0 < p.ups child (child t) :=
  List.count_pos_iff.mpr (List.mem_map_of_mem ht)

end LinkedPage

open LinkedPage (mem_downs downs_of_inner ups_of_inner ups_pos ups lefts)

/-- The pages in use have the numbers below `size`, and the root has the number zero. -/
structure LinkedPages (ε : Type*) where
  page : ℕ → LinkedPage ε
  size : ℕ

namespace LinkedPages

variable {ε K : Type*} {P P' P'' : LinkedPages ε}

/-! ### Changes of pages -/

/-- Page `b` is replaced. -/
def set (P : LinkedPages ε) (b : ℕ) (p : LinkedPage ε) : LinkedPages ε :=
  { P with page := Function.update P.page b p }

@[simp] theorem set_page_self {b : ℕ} {p : LinkedPage ε} : (P.set b p).page b = p :=
  Function.update_self ..

theorem set_page_of_ne {b x : ℕ} {p : LinkedPage ε} (hx : x ≠ b) :
    (P.set b p).page x = P.page x :=
  Function.update_of_ne hx ..

theorem set_congr {β : Type*} {b : ℕ} {p : LinkedPage ε} (g : LinkedPage ε → β)
    (hp : g p = g (P.page b)) (x : ℕ) : g ((P.set b p).page x) = g (P.page x) := by
  by_cases hx : x = b
  · rw [hx, set_page_self, hp]
  · rw [set_page_of_ne hx]

/-- A page with the next number is added. -/
def push (P : LinkedPages ε) (p : LinkedPage ε) : LinkedPages ε where
  page := Function.update P.page P.size p
  size := P.size + 1

/-- The sum of a count over the pages. -/
def total (P : LinkedPages ε) (f : LinkedPage ε → ℕ) : ℕ :=
  ∑ b ∈ Finset.range P.size, f (P.page b)

section Total

variable {f : LinkedPage ε → ℕ} {p : LinkedPage ε} {b b' : ℕ}

theorem total_set (hb : b < P.size) : (P.set b p).total f + f (P.page b) = P.total f + f p := by
  have hmem := Finset.mem_range.mpr hb
  have hrest : ∀ x ∈ (Finset.range P.size).erase b, f ((P.set b p).page x) = f (P.page x) :=
    fun x hx => congrArg f (set_page_of_ne (Finset.ne_of_mem_erase hx))
  have hold : _ = P.total f := Finset.add_sum_erase _ (fun x => f (P.page x)) hmem
  have hnew : _ = (P.set b p).total f :=
    Finset.add_sum_erase (Finset.range P.size) (fun x => f ((P.set b p).page x)) hmem
  rw [Finset.sum_congr rfl hrest, set_page_self] at hnew
  omega

theorem total_push : (P.push p).total f = P.total f + f p := by
  have hrest : ∀ x ∈ Finset.range P.size, f ((P.push p).page x) = f (P.page x) :=
    fun x hx => congrArg f (Function.update_of_ne (Finset.mem_range.mp hx).ne ..)
  refine (Finset.sum_range_succ ..).trans ?_
  rw [Finset.sum_congr rfl hrest]
  exact congrArg _ (congrArg f (Function.update_self ..))

theorem le_total (hb : b < P.size) : f (P.page b) ≤ P.total f :=
  Finset.single_le_sum (f := fun b => f (P.page b)) (fun _ _ => Nat.zero_le _)
    (Finset.mem_range.mpr hb)

theorem eq_of_total_le_one (hf : P.total f ≤ 1) (hb : b < P.size) (hb' : b' < P.size)
    (h : 0 < f (P.page b)) (h' : 0 < f (P.page b')) : b = b' := by
  by_contra hne
  have hsum : ∑ x ∈ {b, b'}, f (P.page x) ≤ P.total f := by
    refine Finset.sum_le_sum_of_subset fun x hx => ?_
    rcases Finset.mem_insert.mp hx with rfl | hx
    · exact Finset.mem_range.mpr hb
    · exact Finset.mem_singleton.mp hx ▸ Finset.mem_range.mpr hb'
  rw [Finset.sum_pair hne] at hsum
  omega

end Total

/-! ### The rows -/

/-- The rows on the leaves. -/
def Row (P : LinkedPages ε) (e : ε) : Prop :=
  ∃ b, (P.page b).leaf = true ∧ e ∈ (P.page b).entries

/-- The rows of `P'` are those of `P` and the ones in the list. -/
def Adds (P P' : LinkedPages ε) (added : List ε) : Prop :=
  ∀ e, P'.Row e ↔ P.Row e ∨ e ∈ added

theorem Adds.trans {added added' : List ε} (h : Adds P P' added) (h' : Adds P' P'' added') :
    Adds P P'' (added ++ added') := by
  intro e
  rw [h' e, h e, List.mem_append, or_assoc]

/-- Only the inner pages change. -/
theorem Adds.of_leaves (hleaf : ∀ b, (P'.page b).leaf = (P.page b).leaf)
    (hentries : ∀ b, (P.page b).leaf = true → (P'.page b).entries = (P.page b).entries) :
    Adds P P' [] := by
  intro e
  rw [List.mem_nil_iff, or_false]
  refine exists_congr fun b => ?_
  rw [hleaf b]
  exact and_congr_right fun hb => by rw [hentries b hb]

/-! ### The shape -/

section Covers

variable [Preorder K]

/-- An entry for page `b` is above `k`. -/
def Above (key : ε → K) (child : ε → ℕ) (P : LinkedPages ε) (k : K) (b : ℕ) : Prop :=
  ∃ a, ∃ t ∈ (P.page a).downs, child t = b ∧ k ≤ key t

/-- The entry for page `b` is above `k`, or the one for its left neighbour while this is pending. -/
def Covers (key : ε → K) (child : ε → ℕ) (P : LinkedPages ε) (k : K) (b : ℕ) : Prop :=
  Above key child P k b ∨ ∃ l, (P.page l).pending = true ∧ (P.page l).next = some b ∧
    Above key child P k l

/-- The pages are a tree whose leaves are on level zero. Each page has at most one entry above and
one page to its left, and what is on it is covered. The links of a level are in the order of the
ranks. -/
structure Sound (key : ε → K) (child : ε → ℕ) (P : LinkedPages ε) (level rank : ℕ → ℕ) :
    Prop where
  size_pos : 0 < P.size
  blank : ∀ {b}, P.size ≤ b → P.page b = .blank
  root_next : (P.page 0).next = none
  leaf_iff : ∀ b, (P.page b).leaf = true ↔ level b = 0
  down : ∀ {b t}, t ∈ (P.page b).downs →
    0 < child t ∧ child t < P.size ∧ level (child t) + 1 = level b
  once : ∀ c, P.total (ups child c) ≤ 1
  right : ∀ {b c}, (P.page b).next = some c →
    0 < c ∧ c < P.size ∧ level c = level b ∧ rank c < rank b
  right_once : ∀ c, P.total (lefts c) ≤ 1
  pending : ∀ {b}, (P.page b).pending = true → ∃ c, (P.page b).next = some c ∧
    (P.page c).pending = false ∧ P.total (ups child c) = 0
  covered : ∀ {b s}, b ≠ 0 → s ∈ (P.page b).entries → Covers key child P (key s) b

variable {key : ε → K} {child : ε → ℕ} {level rank : ℕ → ℕ}

theorem Covers.mono {k k' : K} {b : ℕ} (h : Covers key child P k b) (hle : k' ≤ k) :
    Covers key child P k' b := by
  rcases h with ⟨a, t, ht, hb, hk⟩ | ⟨l, hpending, hnext, a, t, ht, hb, hk⟩
  · exact .inl ⟨a, t, ht, hb, hle.trans hk⟩
  · exact .inr ⟨l, hpending, hnext, a, t, ht, hb, hle.trans hk⟩

/-- The entries above stay or grow, and pages stay pending. -/
theorem Covers.of_above {k : K} {b : ℕ} (h : Covers key child P k b)
    (habove : ∀ {c}, c = b ∨ (P.page c).next = some b → Above key child P k c →
      Above key child P' k c)
    (hpending : ∀ {l}, (P.page l).pending = true → (P.page l).next = some b →
      (P'.page l).pending = true ∧ (P'.page l).next = some b) : Covers key child P' k b := by
  rcases h with h | ⟨l, hl, hnext, h⟩
  · exact .inl (habove (.inl rfl) h)
  · exact .inr ⟨l, (hpending hl hnext).1, (hpending hl hnext).2, habove (.inr hnext) h⟩

section Lemmas

variable (h : P.Sound key child level rank)

include h

theorem Sound.total_ups_size : P.total (ups child P.size) = 0 := by
  refine Finset.sum_eq_zero fun b _ => List.count_eq_zero.mpr fun hmem => ?_
  obtain ⟨t, ht, heq⟩ := List.mem_map.mp hmem
  exact (h.down ht).2.1.ne heq

theorem Sound.total_lefts_size : P.total (lefts P.size) = 0 :=
  Finset.sum_eq_zero fun _ _ => if_neg fun hnext => (h.right hnext).2.1.ne rfl

theorem Sound.lt_size {b : ℕ} (hb : P.page b ≠ .blank) : b < P.size :=
  not_le.mp fun hge => hb (h.blank hge)

theorem Sound.lt_size_of_mem {b : ℕ} {s : ε} (hs : s ∈ (P.page b).entries) : b < P.size :=
  h.lt_size fun heq => by simp [heq, LinkedPage.blank] at hs

theorem Sound.lt_size_of_leaf {b : ℕ} (hleaf : (P.page b).leaf = false) : b < P.size :=
  h.lt_size fun heq => by simp [heq, LinkedPage.blank] at hleaf

theorem Sound.lt_size_of_next {b c : ℕ} (hnext : (P.page b).next = some c) : b < P.size :=
  h.lt_size fun heq => by simp [heq, LinkedPage.blank] at hnext

theorem Sound.root_pending : (P.page 0).pending = false := by
  by_contra hpending
  rw [Bool.not_eq_false] at hpending
  obtain ⟨c, hnext, -⟩ := h.pending hpending
  rw [h.root_next] at hnext
  cases hnext

theorem Sound.down_ne {b : ℕ} {t : ε} (ht : t ∈ (P.page b).downs) : child t ≠ b := by
  intro heq
  have := (h.down ht).2.2
  rw [heq] at this
  omega

theorem Sound.ups_le {b c : ℕ} (hb : b < P.size) : (P.page b).ups child c ≤ 1 :=
  (le_total hb).trans (h.once c)

/-- A page has only one entry above. -/
theorem Sound.down_inj {a a' : ℕ} {t t' : ε} (ht : t ∈ (P.page a).downs)
    (ht' : t' ∈ (P.page a').downs) (heq : child t = child t') : a = a' ∧ t = t' := by
  have ha := h.lt_size_of_mem (mem_downs.mp ht).2
  obtain rfl := eq_of_total_le_one (h.once (child t)) ha
    (h.lt_size_of_leaf (mem_downs.mp ht').1) (ups_pos ht) (heq ▸ ups_pos ht')
  have hnodup : ((P.page a).downs.map child).Nodup :=
    List.nodup_iff_count_le_one.mpr fun c => h.ups_le ha
  exact ⟨rfl, List.inj_on_of_nodup_map hnodup ht ht' heq⟩

theorem Sound.child_ne {b c : ℕ} {t : ε} (hfree : P.total (ups child c) = 0)
    (ht : t ∈ (P.page b).downs) : child t ≠ c := by
  rintro rfl
  have hle := le_total (f := ups child (child t)) (h.lt_size_of_mem (mem_downs.mp ht).2)
  have hpos : 0 < (P.page b).ups child (child t) := ups_pos ht
  omega

theorem Sound.right_inj {b b' c : ℕ} (hb : (P.page b).next = some c)
    (hb' : (P.page b').next = some c) : b = b' := by
  refine eq_of_total_le_one (h.right_once c) (h.lt_size_of_next hb) (h.lt_size_of_next hb') ?_ ?_
  · simp [lefts, hb]
  · simp [lefts, hb']

/-- The right half of a pending page has no entry. -/
theorem Sound.pending_right {l c : ℕ} (hl : (P.page l).pending = true)
    (hnext : (P.page l).next = some c) :
    (P.page c).pending = false ∧ P.total (ups child c) = 0 := by
  obtain ⟨c', hc, hfree⟩ := h.pending hl
  obtain rfl := Option.some.inj (hnext.symm.trans hc)
  exact hfree

/-- The entry for a page covers what is on it. -/
theorem Sound.le_above {a : ℕ} {s t : ε} (ht : t ∈ (P.page a).downs)
    (hs : s ∈ (P.page (child t)).entries) : key s ≤ key t := by
  rcases h.covered (h.down ht).1.ne' hs with ⟨a', t', ht', heq, hle⟩ | ⟨l, hl, hnext, -⟩
  · rwa [(h.down_inj ht ht' heq.symm).2]
  · exact absurd rfl (h.child_ne (h.pending_right hl hnext).2 ht)

/-- New entries are covered if what bounds the others and `k` bounds them. -/
theorem Sound.above_of_le {k : K} {b : ℕ} (hb : Above key child P k b) {s : ε}
    (hs : ∀ k', k ≤ k' → (∀ s' ∈ (P.page b).entries, key s' ≤ k') → key s ≤ k') :
    Above key child P (key s) b := by
  obtain ⟨a, t, ht, rfl, hle⟩ := hb
  exact ⟨a, t, ht, rfl, hs _ hle fun s' hs' => h.le_above ht hs'⟩

/-- It covers what is on the right half of the page too. -/
theorem Sound.le_above_right {a c : ℕ} {s t : ε} (ht : t ∈ (P.page a).downs)
    (hpending : (P.page (child t)).pending = true) (hnext : (P.page (child t)).next = some c)
    (hs : s ∈ (P.page c).entries) : key s ≤ key t := by
  rcases h.covered (h.right hnext).1.ne' hs with ⟨a', t', ht', heq, -⟩ |
    ⟨l, -, hl, a', t', ht', heq, hle⟩
  · exact absurd heq (h.child_ne (h.pending_right hpending hnext).2 ht')
  · rwa [(h.down_inj ht ht' ((h.right_inj hnext hl).trans heq.symm)).2]

/-- A search goes from the root through entries above what it searches for, and through links of
pending pages. So it comes to all pages that have such entries. -/
theorem Sound.visits (visited : ℕ → Prop) {k : K} (hroot : visited 0)
    (hdown : ∀ {a t}, visited a → t ∈ (P.page a).downs → k ≤ key t → visited (child t))
    (hright : ∀ {a c}, visited a → (P.page a).pending = true → (P.page a).next = some c → visited c)
    {b : ℕ} {s : ε} (hs : s ∈ (P.page b).entries) (hle : k ≤ key s) : visited b := by
  obtain ⟨top, htop⟩ : ∃ top, ∀ b < P.size, level b ≤ top :=
    ⟨(Finset.range P.size).sup level, fun b hb => Finset.le_sup (Finset.mem_range.mpr hb)⟩
  -- from the top level down
  induction hd : top - level b using Nat.strong_induction_on generalizing b s with
  | _ d ih =>
    by_cases hb : b = 0
    · rwa [hb]
    · have habove : ∀ {c}, level c = level b → Above key child P (key s) c → visited c := by
        rintro c hc ⟨a, t, ht, rfl, hst⟩
        have hlevel := (h.down ht).2.2
        have htop := htop a (h.lt_size_of_mem (mem_downs.mp ht).2)
        have hkt := hle.trans hst
        exact hdown (ih (top - level a) (by omega) (mem_downs.mp ht).2 hkt rfl) ht hkt
      rcases h.covered hb hs with hup | ⟨l, hpending, hnext, hup⟩
      · exact habove rfl hup
      · exact hright (habove (h.right hnext).2.2.1.symm hup) hpending hnext

end Lemmas

/-! ### Other entries on a page -/

/-- The page gets other entries. -/
def rewrite (P : LinkedPages ε) (p : ℕ) (es : List ε) : LinkedPages ε :=
  P.set p { P.page p with entries := es }

section Rewrite

variable {p : ℕ} {es : List ε}

@[simp] theorem rewrite_page_self :
    (P.rewrite p es).page p = { P.page p with entries := es } :=
  set_page_self

theorem rewrite_page_of_ne {b : ℕ} (hb : b ≠ p) : (P.rewrite p es).page b = P.page b :=
  set_page_of_ne hb

@[simp] theorem rewrite_leaf (b : ℕ) : ((P.rewrite p es).page b).leaf = (P.page b).leaf :=
  set_congr LinkedPage.leaf (by rfl) b

@[simp] theorem rewrite_next (b : ℕ) : ((P.rewrite p es).page b).next = (P.page b).next :=
  set_congr LinkedPage.next (by rfl) b

@[simp] theorem rewrite_pending (b : ℕ) :
    ((P.rewrite p es).page b).pending = (P.page b).pending :=
  set_congr LinkedPage.pending (by rfl) b

@[simp] theorem total_rewrite_lefts {c : ℕ} :
    (P.rewrite p es).total (lefts c) = P.total (lefts c) :=
  Finset.sum_congr rfl fun b _ => set_congr (lefts c) (by rfl) b

/-- The new entries lead to the same pages and only grow, and those above cover them. -/
theorem Sound.rewrite (h : P.Sound key child level rank) (hp : p < P.size)
    (hsame : (((P.rewrite p es).page p).downs.map child).Perm ((P.page p).downs.map child))
    (hgrow : ∀ t ∈ (P.page p).downs,
      ∃ t' ∈ ((P.rewrite p es).page p).downs, child t' = child t ∧ key t ≤ key t')
    (habove : p ≠ 0 → ∀ s ∈ es, Above key child P (key s) p) :
    (P.rewrite p es).Sound key child level rank := by
  have htotal : ∀ c, (P.rewrite p es).total (ups child c) = P.total (ups child c) := by
    intro c
    have hset := total_set (f := ups child c) (p := { P.page p with entries := es }) hp
    have hcount := hsame.count_eq c
    rw [rewrite_page_self] at hcount
    exact Nat.add_right_cancel (hset.trans (congrArg _ hcount))
  have hup : ∀ {k c}, Above key child P k c → Above key child (P.rewrite p es) k c := by
    rintro k c ⟨a, t, ht, rfl, hle⟩
    by_cases ha : a = p
    · subst ha
      obtain ⟨t', ht', hchild, hgrow⟩ := hgrow t ht
      exact ⟨a, t', ht', hchild, hle.trans hgrow⟩
    · exact ⟨a, t, by rwa [rewrite_page_of_ne ha], rfl, hle⟩
  constructor
  case size_pos => exact h.size_pos
  case blank =>
    intro b hb
    rw [rewrite_page_of_ne (hp.trans_le hb).ne']
    exact h.blank hb
  case root_next => simpa using h.root_next
  case leaf_iff => simpa using h.leaf_iff
  case down =>
    intro b t ht
    by_cases hb : b = p
    · subst hb
      obtain ⟨t', ht', heq⟩ := List.mem_map.mp (hsame.mem_iff.mp (List.mem_map_of_mem ht))
      exact heq ▸ h.down ht'
    · exact h.down (by rwa [rewrite_page_of_ne hb] at ht)
  case once => exact fun c => (htotal c).trans_le (h.once c)
  case right => exact fun hnext => h.right (by simpa using hnext)
  case right_once => simpa using h.right_once
  case pending => exact fun hb => by simpa [htotal] using h.pending (by simpa using hb)
  case covered =>
    intro b s hb hs
    by_cases hbp : b = p
    · subst hbp
      rw [rewrite_page_self] at hs
      exact .inl (hup (habove hb s hs))
    · rw [rewrite_page_of_ne hbp] at hs
      exact (h.covered hb hs).of_above (fun _ => hup) (fun hl hnext => by simp [hl, hnext])

/-- Rows are added to a leaf. -/
theorem adds_rewrite {added : List ε} (hleaf : (P.page p).leaf = true)
    (hes : es.Perm (added ++ (P.page p).entries)) : Adds P (P.rewrite p es) added := by
  have hself : ∀ {e}, e ∈ ((P.rewrite p es).page p).entries ↔
      e ∈ added ∨ e ∈ (P.page p).entries := by
    intro e
    rw [rewrite_page_self, hes.mem_iff, List.mem_append]
  intro e
  constructor
  · rintro ⟨b, hb, he⟩
    rw [rewrite_leaf] at hb
    by_cases hbp : b = p
    · subst hbp
      exact (hself.mp he).symm.imp (fun he => ⟨b, hb, he⟩) id
    · exact .inl ⟨b, hb, by rwa [rewrite_page_of_ne hbp] at he⟩
  · rintro (⟨b, hb, he⟩ | he)
    · refine ⟨b, by rwa [rewrite_leaf], ?_⟩
      by_cases hbp : b = p
      · subst hbp
        exact hself.mpr (.inr he)
      · rwa [rewrite_page_of_ne hbp]
    · exact ⟨p, by rwa [rewrite_leaf], hself.mpr (.inl he)⟩

theorem rewrite_entries_of_leaf (hleaf : (P.page p).leaf = false) {b : ℕ}
    (hb : (P.page b).leaf = true) : ((P.rewrite p es).page b).entries = (P.page b).entries := by
  rw [rewrite_page_of_ne]
  rintro rfl
  simp [hleaf] at hb

theorem adds_rewrite_inner (hleaf : (P.page p).leaf = false) : Adds P (P.rewrite p es) [] :=
  Adds.of_leaves rewrite_leaf fun _ => rewrite_entries_of_leaf hleaf

end Rewrite

/-! ### The halves of a split get their entries -/

/-- The page is not pending any more. -/
def clear (P : LinkedPages ε) (e : ℕ) : LinkedPages ε :=
  P.set e { P.page e with pending := false }

section Link

variable {p e r : ℕ} {t d d' : ε} {es rest : List ε}

@[simp] theorem clear_page_self : (P.clear e).page e = { P.page e with pending := false } :=
  set_page_self

theorem clear_page_of_ne {b : ℕ} (hb : b ≠ e) : (P.clear e).page b = P.page b :=
  set_page_of_ne hb

@[simp] theorem clear_leaf (b : ℕ) : ((P.clear e).page b).leaf = (P.page b).leaf :=
  set_congr LinkedPage.leaf (by rfl) b

@[simp] theorem clear_next (b : ℕ) : ((P.clear e).page b).next = (P.page b).next :=
  set_congr LinkedPage.next (by rfl) b

@[simp] theorem clear_entries (b : ℕ) : ((P.clear e).page b).entries = (P.page b).entries :=
  set_congr LinkedPage.entries (by rfl) b

@[simp] theorem clear_downs (b : ℕ) : ((P.clear e).page b).downs = (P.page b).downs :=
  set_congr LinkedPage.downs (by rfl) b

@[simp] theorem total_clear_ups {c : ℕ} : (P.clear e).total (ups child c) = P.total (ups child c) :=
  Finset.sum_congr rfl fun b _ => set_congr (ups child c) (by rfl) b

@[simp] theorem total_clear_lefts {c : ℕ} : (P.clear e).total (lefts c) = P.total (lefts c) :=
  Finset.sum_congr rfl fun b _ => set_congr (lefts c) (by rfl) b

/-- On page `p` the entry `t` for a pending page is replaced by entries for this page and the one
to its right, which bound what is on these. -/
structure Links (key : ε → K) (child : ε → ℕ) (P : LinkedPages ε) (p e r : ℕ) (t d d' : ε)
    (rest es : List ε) : Prop where
  inner : (P.page p).leaf = false
  old : (P.page p).entries.Perm (t :: rest)
  new : es.Perm (d :: d' :: rest)
  child_old : child t = e
  child_left : child d = e
  child_right : child d' = r
  pending : (P.page e).pending = true
  next : (P.page e).next = some r
  left : ∀ s ∈ (P.page e).entries, key s ≤ key d
  right : ∀ s ∈ (P.page r).entries, key s ≤ key d'
  le_left : key d ≤ key t
  le_right : key d' ≤ key t

section Shape

variable (h : P.Sound key child level rank) (hl : Links key child P p e r t d d' rest es)

include hl

theorem Links.mem_old : t ∈ (P.page p).downs :=
  mem_downs.mpr ⟨hl.inner, hl.old.mem_iff.mpr List.mem_cons_self⟩

theorem Links.mem_rest {s : ε} (hs : s ∈ rest) : s ∈ (P.page p).downs :=
  mem_downs.mpr ⟨hl.inner, hl.old.mem_iff.mpr (List.mem_cons_of_mem _ hs)⟩

theorem Links.downs_self : (((P.rewrite p es).clear e).page p).downs = es := by
  rw [clear_downs, downs_of_inner (by simpa using hl.inner), rewrite_page_self]

/-- The other entries above stay. -/
theorem Links.above {k : K} {c : ℕ} (hc : c ≠ e) (h : Above key child P k c) :
    Above key child ((P.rewrite p es).clear e) k c := by
  obtain ⟨a, s, hs, rfl, hle⟩ := h
  refine ⟨a, s, ?_, rfl, hle⟩
  by_cases ha : a = p
  · subst ha
    rw [hl.downs_self, hl.new.mem_iff]
    rcases List.mem_cons.mp (hl.old.mem_iff.mp (mem_downs.mp hs).2) with rfl | hmem
    · exact absurd hl.child_old hc
    · exact List.mem_cons_of_mem _ (List.mem_cons_of_mem _ hmem)
  · rwa [clear_downs, rewrite_page_of_ne ha]

/-- Away from the split the entries above are as before. -/
theorem Links.covers {k : K} {b : ℕ} (hbe : b ≠ e) (hbr : b ≠ r) (hb : Covers key child P k b) :
    Covers key child ((P.rewrite p es).clear e) k b := by
  have hne : ∀ {l}, (P.page l).next = some b → l ≠ e := by
    rintro l hnext rfl
    exact hbr (Option.some.inj (hnext.symm.trans hl.next))
  refine hb.of_above (fun hc => hl.above ?_) fun hpending hnext => ?_
  · rcases hc with rfl | hnext
    · exact hbe
    · exact hne hnext
  · rw [clear_page_of_ne (hne hnext), rewrite_pending, rewrite_next]
    exact ⟨hpending, hnext⟩

include h

/-- Only the right half gets an entry that it did not have. -/
theorem Links.total (c : ℕ) : ((P.rewrite p es).clear e).total (ups child c) =
    P.total (ups child c) + if r = c then 1 else 0 := by
  have hset := total_set (f := ups child c) (p := { P.page p with entries := es })
    (h.lt_size_of_leaf hl.inner)
  have hold := (hl.old.map child).count_eq c
  have hnew := (hl.new.map child).count_eq c
  rw [ups_of_inner hl.inner, ups_of_inner (by simpa using hl.inner)] at hset
  simp only [List.map_cons, List.count_cons, hl.child_old, hl.child_left, hl.child_right,
    beq_iff_eq] at hold hnew hset
  rw [total_clear_ups]
  have hset : (P.rewrite p es).total (ups child c) + _ = _ := hset
  omega

/-- The pages of the split are on the level below. -/
theorem Links.levels : level e + 1 = level p ∧ level r = level e := by
  have hdown := (h.down hl.mem_old).2.2
  rw [hl.child_old] at hdown
  exact ⟨hdown, (h.right hl.next).2.2.1⟩

theorem Links.ne : e ≠ p ∧ r ≠ p := by
  obtain ⟨hlevel, hlevel'⟩ := hl.levels h
  constructor
  · rintro rfl
    omega
  · rintro rfl
    omega

theorem Sound.link : ((P.rewrite p es).clear e).Sound key child level rank := by
  obtain ⟨hlevel, hlevel'⟩ := hl.levels h
  obtain ⟨hep, hrp⟩ := hl.ne h
  obtain ⟨hepos, helt, -⟩ := h.down hl.mem_old
  rw [hl.child_old] at hepos helt
  have hright := h.right hl.next
  have hfree := h.pending_right hl.pending hl.next
  constructor
  case size_pos => exact h.size_pos
  case blank =>
    intro b hb
    rw [clear_page_of_ne (helt.trans_le hb).ne',
      rewrite_page_of_ne ((h.lt_size_of_leaf hl.inner).trans_le hb).ne']
    exact h.blank hb
  case root_next => simpa using h.root_next
  case leaf_iff => simpa using h.leaf_iff
  case right => exact fun hnext => h.right (by simpa using hnext)
  case right_once => simpa using h.right_once
  case down =>
    intro b s hs
    by_cases hb : b = p
    · subst hb
      rw [hl.downs_self, hl.new.mem_iff, List.mem_cons, List.mem_cons] at hs
      rcases hs with rfl | rfl | hs
      · rw [hl.child_left]
        exact ⟨hepos, helt, hlevel⟩
      · rw [hl.child_right, hlevel']
        exact ⟨hright.1, hright.2.1, hlevel⟩
      · exact h.down (hl.mem_rest hs)
    · rw [clear_downs, rewrite_page_of_ne hb] at hs
      exact h.down hs
  case once =>
    intro c
    rw [hl.total h]
    split_ifs with hc
    · rw [← hc, hfree.2]
    · exact h.once c
  case pending =>
    intro b hb
    have hbe : b ≠ e := by
      rintro rfl
      simp at hb
    rw [clear_page_of_ne hbe, rewrite_pending] at hb
    obtain ⟨c, hnext, hc, htotal⟩ := h.pending hb
    refine ⟨c, by simpa using hnext, ?_, ?_⟩
    · by_cases hce : c = e
      · rw [hce, clear_page_self]
      · rw [clear_page_of_ne hce, rewrite_pending, hc]
    · -- the right half is to the right of one page only
      rw [hl.total h, htotal, if_neg]
      rintro rfl
      exact hbe (h.right_inj hnext hl.next)
  case covered =>
    intro b s hb hs
    have hmem : ∀ {s}, s ∈ d :: d' :: rest → s ∈ (((P.rewrite p es).clear e).page p).downs := by
      intro s hs
      rwa [hl.downs_self, hl.new.mem_iff]
    rw [clear_entries] at hs
    by_cases hbp : b = p
    · subst hbp
      have hold : ∀ {s}, s ∈ (P.page b).downs →
          Covers key child ((P.rewrite b es).clear e) (key s) b := fun hs =>
        hl.covers hep.symm hrp.symm (h.covered hb (mem_downs.mp hs).2)
      rw [rewrite_page_self] at hs
      rcases List.mem_cons.mp (hl.new.mem_iff.mp hs) with rfl | hs
      · exact (hold hl.mem_old).mono hl.le_left
      rcases List.mem_cons.mp hs with rfl | hs
      · exact (hold hl.mem_old).mono hl.le_right
      · exact hold (hl.mem_rest hs)
    rw [rewrite_page_of_ne hbp] at hs
    by_cases hbe : b = e
    · exact .inl ⟨p, d, hmem (by simp), hl.child_left.trans hbe.symm, hl.left s (hbe ▸ hs)⟩
    by_cases hbr : b = r
    · exact .inl ⟨p, d', hmem (by simp), hl.child_right.trans hbr.symm, hl.right s (hbr ▸ hs)⟩
    · exact hl.covers hbe hbr (h.covered hb hs)

end Shape

theorem adds_link (hinner : (P.page p).leaf = false) :
    Adds P ((P.rewrite p es).clear e) [] :=
  Adds.of_leaves (by simp) fun b hb => by rw [clear_entries, rewrite_entries_of_leaf hinner hb]

end Link

/-! ### A split -/

/-- The entries of the page are shared with a new page to its right. -/
def splitOff (P : LinkedPages ε) (p : ℕ) (es fs : List ε) : LinkedPages ε :=
  (P.push { P.page p with entries := fs }).set p
    { P.page p with entries := es, next := some P.size, pending := true }

/-- The ranks make room for a page to the right of `p`. -/
def splitRank (rank : ℕ → ℕ) (p new b : ℕ) : ℕ :=
  if b = new then rank p else if rank p ≤ rank b then rank b + 1 else rank b

section SplitOff

variable {p : ℕ} {es fs : List ε}

@[simp] theorem splitOff_page_self : (P.splitOff p es fs).page p =
    { P.page p with entries := es, next := some P.size, pending := true } :=
  set_page_self

theorem splitOff_page_new (hp : p < P.size) :
    (P.splitOff p es fs).page P.size = { P.page p with entries := fs } :=
  (set_page_of_ne hp.ne').trans (Function.update_self ..)

theorem splitOff_page_of_ne {b : ℕ} (hb : b ≠ p) (hnew : b ≠ P.size) :
    (P.splitOff p es fs).page b = P.page b :=
  (set_page_of_ne hb).trans (Function.update_of_ne hnew ..)

/-- What becomes of a page: it is split, it is new, or it stays. -/
theorem splitOff_cases (es fs : List ε) (hp : p < P.size) (b : ℕ) :
    (b = p ∧ (P.splitOff p es fs).page b =
      { P.page p with entries := es, next := some P.size, pending := true }) ∨
    (b = P.size ∧ (P.splitOff p es fs).page b = { P.page p with entries := fs }) ∨
    (b ≠ p ∧ b ≠ P.size ∧ (P.splitOff p es fs).page b = P.page b) := by
  by_cases hb : b = p
  · exact .inl ⟨hb, hb ▸ splitOff_page_self⟩
  by_cases hnew : b = P.size
  · exact .inr (.inl ⟨hnew, hnew ▸ splitOff_page_new hp⟩)
  · exact .inr (.inr ⟨hb, hnew, splitOff_page_of_ne hb hnew⟩)

theorem total_splitOff (es fs : List ε) (hp : p < P.size) (f : LinkedPage ε → ℕ) :
    (P.splitOff p es fs).total f + f (P.page p) = P.total f + f { P.page p with entries := fs } +
      f { P.page p with entries := es, next := some P.size, pending := true } := by
  have hset := total_set (P := P.push { P.page p with entries := fs }) (f := f)
    (p := { P.page p with entries := es, next := some P.size, pending := true })
    (Nat.lt_succ_of_lt hp)
  rw [total_push, show (P.push { P.page p with entries := fs }).page p = P.page p from
    Function.update_of_ne hp.ne ..] at hset
  exact hset

section Shape

variable (h : P.Sound key child level rank) (hp : p < P.size)
  (hperm : (P.page p).entries.Perm (es ++ fs))

include hp hperm

theorem total_splitOff_ups (c : ℕ) :
    (P.splitOff p es fs).total (ups child c) = P.total (ups child c) := by
  have htotal := total_splitOff es fs hp (ups child c)
  have hcount := (hperm.map child).count_eq c
  rw [List.map_append, List.count_append] at hcount
  cases hleaf : (P.page p).leaf with
  | true => simpa [ups, LinkedPage.downs, hleaf] using htotal
  | false =>
    rw [ups_of_inner hleaf, ups_of_inner (by simpa using hleaf),
      ups_of_inner (by simpa using hleaf)] at htotal
    simp only at htotal
    omega

/-- What is on a page was there before, or on the page that was split. -/
theorem splitOff_origin (b : ℕ) (level : ℕ → ℕ) : ∃ o,
    ((P.splitOff p es fs).page b).leaf = (P.page o).leaf ∧
    (∀ t ∈ ((P.splitOff p es fs).page b).entries, t ∈ (P.page o).entries) ∧
    Function.update level P.size (level p) b = level o := by
  rcases splitOff_cases es fs hp b with ⟨rfl, hb⟩ | ⟨rfl, hb⟩ | ⟨-, hnew, hb⟩ <;>
    rw [hb]
  · exact ⟨b, rfl, fun t ht => hperm.mem_iff.mpr (List.mem_append_left _ ht),
      Function.update_of_ne hp.ne ..⟩
  · exact ⟨p, rfl, fun t ht => hperm.mem_iff.mpr (List.mem_append_right _ ht),
      Function.update_self ..⟩
  · exact ⟨b, rfl, fun _ => id, Function.update_of_ne hnew ..⟩

include h

/-- What was on a page is still there, or on the new one. -/
theorem exists_splitOff {b : ℕ} {t : ε} (ht : t ∈ (P.page b).entries) : ∃ b',
    ((P.splitOff p es fs).page b').leaf = (P.page b).leaf ∧
      t ∈ ((P.splitOff p es fs).page b').entries := by
  by_cases hb : b = p
  · subst hb
    rcases List.mem_append.mp (hperm.mem_iff.mp ht) with ht | ht
    · exact ⟨b, by simp, by simpa using ht⟩
    · exact ⟨P.size, by rw [splitOff_page_new hp], by rwa [splitOff_page_new hp]⟩
  · have hpage : (P.splitOff p es fs).page b = _ := splitOff_page_of_ne hb (h.lt_size_of_mem ht).ne
    exact ⟨b, by rw [hpage], by rwa [hpage]⟩

theorem above_splitOff {k : K} {c : ℕ} (hc : Above key child P k c) :
    Above key child (P.splitOff p es fs) k c := by
  obtain ⟨a, t, ht, hchild, hle⟩ := hc
  obtain ⟨hleaf, ht⟩ := mem_downs.mp ht
  obtain ⟨a', hleaf', ht'⟩ := exists_splitOff h hp hperm ht
  exact ⟨a', t, mem_downs.mpr ⟨hleaf'.trans hleaf, ht'⟩, hchild, hle⟩

/-- The page has an entry above and is not pending. -/
theorem Sound.splitOff {a : ℕ} {s : ε} (hs : s ∈ (P.page a).downs) (hchild : child s = p)
    (hpending : (P.page p).pending = false) :
    (P.splitOff p es fs).Sound key child (Function.update level P.size (level p))
      (splitRank rank p P.size) := by
  have hlevel : ∀ {b}, b ≠ P.size → Function.update level P.size (level p) b = level b :=
    fun hb => Function.update_of_ne hb ..
  have hroot : p ≠ 0 := hchild ▸ (h.down hs).1.ne'
  have hsplit := splitOff_cases es fs hp
  have hup : ∀ {k c}, Above key child P k c → Above key child (P.splitOff p es fs) k c :=
    above_splitOff h hp hperm
  constructor
  case size_pos => exact Nat.succ_pos _
  case blank =>
    intro b hb
    have hlt : P.size < b := hb
    rw [splitOff_page_of_ne (hp.trans hlt).ne' hlt.ne']
    exact h.blank hlt.le
  case root_next =>
    rw [splitOff_page_of_ne hroot.symm h.size_pos.ne]
    exact h.root_next
  case leaf_iff =>
    intro b
    obtain ⟨o, hleaf, -, hlevel⟩ := splitOff_origin hp hperm b level
    rw [hleaf, hlevel]
    exact h.leaf_iff o
  case down =>
    intro b t ht
    obtain ⟨o, hleaf, hmem, hb⟩ := splitOff_origin hp hperm b level
    obtain ⟨hinner, ht⟩ := mem_downs.mp ht
    obtain ⟨hpos, hlt, heq⟩ := h.down (mem_downs.mpr ⟨hleaf ▸ hinner, hmem t ht⟩)
    rw [hlevel hlt.ne, hb]
    exact ⟨hpos, Nat.lt_succ_of_lt hlt, heq⟩
  case once => exact fun c => (total_splitOff_ups hp hperm c).trans_le (h.once c)
  case right =>
    intro b c hc
    -- the new page takes the rank of `p`, and those from there on move up
    unfold splitRank
    rcases hsplit b with ⟨rfl, hpage⟩ | ⟨rfl, hpage⟩ | ⟨-, hnew, hpage⟩ <;> rw [hpage] at hc
    · obtain rfl : P.size = c := Option.some.inj hc
      rw [if_pos rfl, if_neg hp.ne, if_pos le_rfl, Function.update_self, hlevel hp.ne]
      exact ⟨h.size_pos, Nat.lt_succ_self _, rfl, Nat.lt_succ_self _⟩
    · obtain ⟨hpos, hlt, heq, hrank⟩ := h.right hc
      rw [if_pos rfl, if_neg hlt.ne, if_neg (not_le.mpr hrank), Function.update_self,
        hlevel hlt.ne]
      exact ⟨hpos, Nat.lt_succ_of_lt hlt, heq, hrank⟩
    · obtain ⟨hpos, hlt, heq, hrank⟩ := h.right hc
      rw [if_neg hnew, if_neg hlt.ne, hlevel hnew, hlevel hlt.ne]
      refine ⟨hpos, Nat.lt_succ_of_lt hlt, heq, ?_⟩
      split_ifs <;> omega
  case right_once =>
    intro c
    have htotal := total_splitOff es fs hp (lefts c)
    have htotal : (P.splitOff p es fs).total (lefts c) + lefts c (P.page p) =
        P.total (lefts c) + lefts c (P.page p) + if some P.size = some c then 1 else 0 := htotal
    have honce := h.right_once c
    split_ifs at htotal with hc
    · have hsize := h.total_lefts_size
      rw [Option.some.inj hc] at hsize
      omega
    · omega
  case pending =>
    intro b hb
    rcases hsplit b with ⟨rfl, hpage⟩ | ⟨rfl, hpage⟩ | ⟨-, hnew, hpage⟩ <;> rw [hpage] at hb ⊢
    · refine ⟨P.size, rfl, by rw [splitOff_page_new hp, hpending], ?_⟩
      rw [total_splitOff_ups hp hperm, h.total_ups_size]
    · rw [hpending] at hb
      cases hb
    · obtain ⟨c, hc, hcp, htotal⟩ := h.pending hb
      have hcne : c ≠ p := fun heq => h.child_ne htotal hs (hchild.trans heq.symm)
      refine ⟨c, hc, ?_, (total_splitOff_ups hp hperm c).trans htotal⟩
      rw [splitOff_page_of_ne hcne (h.right hc).2.1.ne, hcp]
  case covered =>
    intro b t hb ht
    have hself : ∀ {t}, t ∈ (P.page p).entries →
        Above key child (P.splitOff p es fs) (key t) p := fun ht =>
      hup ⟨a, s, hs, hchild, h.le_above hs (hchild ▸ ht)⟩
    rcases hsplit b with ⟨rfl, hpage⟩ | ⟨rfl, hpage⟩ | ⟨hbp, hnew, hpage⟩ <;> rw [hpage] at ht
    · exact .inl (hself (hperm.mem_iff.mpr (List.mem_append_left _ ht)))
    · exact .inr ⟨p, by simp, by simp, hself (hperm.mem_iff.mpr (List.mem_append_right _ ht))⟩
    · refine (h.covered hb ht).of_above (fun _ => hup) fun {l} hl hnext => ?_
      have hlp : l ≠ p := by
        rintro rfl
        rw [hpending] at hl
        cases hl
      rw [splitOff_page_of_ne hlp (h.lt_size_of_next hnext).ne]
      exact ⟨hl, hnext⟩

/-- The rows of the page go to its halves. -/
theorem adds_splitOff : Adds P (P.splitOff p es fs) [] := by
  intro e
  rw [List.mem_nil_iff, or_false]
  constructor
  · rintro ⟨b, hleaf, hmem⟩
    obtain ⟨o, hleaf', hmem', -⟩ := splitOff_origin hp hperm b level
    exact ⟨o, hleaf' ▸ hleaf, hmem' e hmem⟩
  · rintro ⟨b, hleaf, hmem⟩
    obtain ⟨b', hleaf', hmem'⟩ := exists_splitOff h hp hperm hmem
    exact ⟨b', hleaf'.trans hleaf, hmem'⟩

end Shape

end SplitOff

/-! ### A new level below the root -/

/-- The entries of the root go to a new page, and the root gets an entry for it. -/
def raise (P : LinkedPages ε) (d : ε) : LinkedPages ε :=
  (P.push (P.page 0)).set 0 ⟨[d], false, none, false⟩

/-- The root is one level higher, and the new page is where it was. -/
def raiseLevel (level : ℕ → ℕ) (size b : ℕ) : ℕ :=
  if b = 0 then level 0 + 1 else level (if b = size then 0 else b)

/-- The entries of the root are shared by two new pages, and the root gets entries for these: it is
raised, the page below is split, and the halves get their entries. -/
def growRoot (P : LinkedPages ε) (d₀ d d' : ε) (es fs : List ε) : LinkedPages ε :=
  (((P.raise d₀).splitOff P.size es fs).rewrite 0 [d, d']).clear P.size

section GrowRoot

variable {es fs : List ε} {d₀ d d' : ε}

@[simp] theorem raise_page_root : (P.raise d₀).page 0 = ⟨[d₀], false, none, false⟩ :=
  set_page_self

/-- The other pages stay as they are. -/
theorem raise_page {b : ℕ} (hb : b ≠ 0) :
    (P.raise d₀).page b = P.page (if b = P.size then 0 else b) := by
  refine (set_page_of_ne hb).trans ?_
  split_ifs with hnew
  · rw [hnew]
    exact Function.update_self ..
  · exact Function.update_of_ne hnew ..

theorem raise_page_new (hpos : 0 < P.size) : (P.raise d₀).page P.size = P.page 0 := by
  rw [raise_page hpos.ne', if_pos rfl]

theorem raise_page_of_ne {b : ℕ} (hb : b ≠ 0) (hnew : b ≠ P.size) :
    (P.raise d₀).page b = P.page b := by
  rw [raise_page hb, if_neg hnew]

theorem total_raise (hpos : 0 < P.size) (f : LinkedPage ε → ℕ) :
    (P.raise d₀).total f = P.total f + f ⟨[d₀], false, none, false⟩ := by
  have hset := total_set (P := P.push (P.page 0)) (f := f) (p := ⟨[d₀], false, none, false⟩)
    (Nat.succ_pos _)
  rw [total_push, show (P.push (P.page 0)).page 0 = P.page 0 from
    Function.update_of_ne hpos.ne ..] at hset
  have hset : (P.raise d₀).total f + _ = _ := hset
  omega

section Shape

variable (h : P.Sound key child level rank) (hchild : child d₀ = P.size)

include h

theorem above_raise {k : K} {c : ℕ} (hc : Above key child P k c) :
    Above key child (P.raise d₀) k c := by
  obtain ⟨a, t, ht, heq, hle⟩ := hc
  by_cases ha : a = 0
  · exact ⟨P.size, t, by rwa [raise_page_new h.size_pos, ← ha], heq, hle⟩
  · refine ⟨a, t, ?_, heq, hle⟩
    rwa [raise_page_of_ne ha (h.lt_size_of_mem (mem_downs.mp ht).2).ne]

/-- The rows of the root go to the page below. -/
theorem adds_raise : Adds P (P.raise d₀) [] := by
  intro e
  rw [List.mem_nil_iff, or_false]
  constructor
  · rintro ⟨b, hleaf, hmem⟩
    by_cases h0 : b = 0
    · rw [h0, raise_page_root] at hleaf
      cases hleaf
    · rw [raise_page h0] at hleaf hmem
      exact ⟨_, hleaf, hmem⟩
  · rintro ⟨b, hleaf, hmem⟩
    by_cases h0 : b = 0
    · have hpage : (P.raise d₀).page _ = _ := raise_page_new h.size_pos
      rw [← h0] at hpage
      exact ⟨P.size, by rwa [hpage], by rwa [hpage]⟩
    · have hpage : (P.raise d₀).page _ = _ := raise_page_of_ne h0 (h.lt_size_of_mem hmem).ne
      exact ⟨b, by rwa [hpage], by rwa [hpage]⟩

include hchild

theorem Sound.total_raise_ups (c : ℕ) : (P.raise d₀).total (ups child c) =
    P.total (ups child c) + if P.size = c then 1 else 0 := by
  rw [total_raise h.size_pos]
  simp [ups, LinkedPage.downs, hchild, List.count_singleton]

theorem Sound.raise (hkey : ∀ s ∈ (P.page 0).entries, key s ≤ key d₀) :
    (P.raise d₀).Sound key child (raiseLevel level P.size) rank := by
  have hsize := h.size_pos
  have hlevel : ∀ {b}, b ≠ 0 → raiseLevel level P.size b = level (if b = P.size then 0 else b) :=
    fun hb => if_neg hb
  have hold : ∀ {b}, 0 < b → b < P.size → raiseLevel level P.size b = level b := by
    intro b hpos hlt
    rw [hlevel hpos.ne', if_neg hlt.ne]
  -- a page with a link is an old one, below the root
  have hnext : ∀ {b c}, ((P.raise d₀).page b).next = some c →
      b ≠ 0 ∧ b ≠ P.size ∧ (P.page b).next = some c := by
    intro b c hc
    by_cases hb : b = 0
    · rw [hb, raise_page_root] at hc
      cases hc
    · rw [raise_page hb] at hc
      split_ifs at hc with hnew
      · rw [h.root_next] at hc
        cases hc
      · exact ⟨hb, hnew, hc⟩
  constructor
  case size_pos => exact Nat.succ_pos _
  case blank =>
    intro b hb
    have hlt : P.size < b := hb
    rw [raise_page_of_ne (by omega) hlt.ne']
    exact h.blank hlt.le
  case root_next => rw [raise_page_root]
  case leaf_iff =>
    intro b
    by_cases hb : b = 0
    · rw [hb, raise_page_root]
      simp [raiseLevel]
    · rw [raise_page hb, hlevel hb]
      exact h.leaf_iff _
  case down =>
    intro b t ht
    by_cases hb : b = 0
    · rw [hb, raise_page_root] at ht
      obtain rfl : t = d₀ := by simpa [LinkedPage.downs] using ht
      rw [hchild, hb, hlevel hsize.ne', if_pos rfl]
      exact ⟨hsize, Nat.lt_succ_self _, rfl⟩
    · rw [raise_page hb] at ht
      obtain ⟨hpos, hlt, heq⟩ := h.down ht
      rw [hold hpos hlt, hlevel hb]
      exact ⟨hpos, Nat.lt_succ_of_lt hlt, heq⟩
  case once =>
    intro c
    rw [h.total_raise_ups hchild]
    split_ifs with hc
    · rw [← hc, h.total_ups_size]
    · exact h.once c
  case right =>
    intro b c hc
    obtain ⟨hb, hnew, hc⟩ := hnext hc
    obtain ⟨hpos, hlt, heq, hrank⟩ := h.right hc
    rw [hold hpos hlt, hlevel hb, if_neg hnew]
    exact ⟨hpos, Nat.lt_succ_of_lt hlt, heq, hrank⟩
  case right_once =>
    intro c
    rw [total_raise hsize]
    exact h.right_once c
  case pending =>
    intro b hb
    by_cases h0 : b = 0
    · rw [h0, raise_page_root] at hb
      cases hb
    · rw [raise_page h0] at hb ⊢
      obtain ⟨c, hc, hcp, htotal⟩ := h.pending hb
      obtain ⟨hpos, hlt, -⟩ := h.right hc
      refine ⟨c, hc, by rwa [raise_page_of_ne hpos.ne' hlt.ne], ?_⟩
      rw [h.total_raise_ups hchild, htotal, if_neg hlt.ne']
  case covered =>
    intro b s hb hs
    by_cases hnew : b = P.size
    · rw [hnew, raise_page_new hsize] at hs
      exact .inl ⟨0, d₀, by simp [LinkedPage.downs], hchild.trans hnew.symm, hkey s hs⟩
    · rw [raise_page_of_ne hb hnew] at hs
      refine (h.covered hb hs).of_above (fun _ => above_raise h) fun {l} hl hln => ?_
      have h0 : l ≠ 0 := by
        rintro rfl
        rw [h.root_pending] at hl
        cases hl
      rw [raise_page_of_ne h0 (h.lt_size_of_next hln).ne]
      exact ⟨hl, hln⟩

end Shape

theorem growRoot_page_root (hpos : 0 < P.size) :
    (P.growRoot d₀ d d' es fs).page 0 = ⟨[d, d'], false, none, false⟩ := by
  unfold growRoot
  rw [clear_page_of_ne hpos.ne, rewrite_page_self,
    splitOff_page_of_ne hpos.ne (Nat.succ_ne_zero _).symm, raise_page_root]

theorem growRoot_page_left (hpos : 0 < P.size) : (P.growRoot d₀ d d' es fs).page P.size =
    ⟨es, (P.page 0).leaf, some (P.size + 1), false⟩ := by
  unfold growRoot
  rw [clear_page_self, rewrite_page_of_ne hpos.ne', splitOff_page_self, raise_page_new hpos]
  rfl

theorem growRoot_page_of_ne {b : ℕ} (h0 : b ≠ 0) (hl : b ≠ P.size) (hr : b ≠ P.size + 1) :
    (P.growRoot d₀ d d' es fs).page b = P.page b := by
  unfold growRoot
  rw [clear_page_of_ne hl, rewrite_page_of_ne h0, splitOff_page_of_ne hl hr, raise_page_of_ne h0 hl]

section Grow

variable (h : P.Sound key child level rank)

include h

theorem growRoot_page_right : (P.growRoot d₀ d d' es fs).page (P.size + 1) =
    ⟨fs, (P.page 0).leaf, none, false⟩ := by
  unfold growRoot
  rw [clear_page_of_ne (Nat.succ_ne_self _), rewrite_page_of_ne (Nat.succ_ne_zero _)]
  refine (splitOff_page_new (Nat.lt_succ_self _)).trans ?_
  simp [raise_page_new h.size_pos, h.root_next, h.root_pending]

theorem Sound.growRoot (d₀ d d' : ε) (hperm : (P.page 0).entries.Perm (es ++ fs))
    (h₀ : child d₀ = P.size) (hd : child d = P.size) (hd' : child d' = P.size + 1)
    (hkey : ∀ s ∈ (P.page 0).entries, key s ≤ key d₀) (hes : ∀ s ∈ es, key s ≤ key d)
    (hfs : ∀ s ∈ fs, key s ≤ key d') (hle : key d ≤ key d₀) (hle' : key d' ≤ key d₀) :
    (∃ level' rank', (P.growRoot d₀ d d' es fs).Sound key child level' rank' ∧
      level' 0 = level 0 + 1) ∧ Adds P (P.growRoot d₀ d d' es fs) [] := by
  have hpos := h.size_pos
  have hlt : P.size < (P.raise d₀).size := Nat.lt_succ_self _
  have hself : (P.raise d₀).page _ = _ := raise_page_new hpos
  have hraise := h.raise h₀ hkey
  have hroot : ((P.raise d₀).splitOff P.size es fs).page 0 = ⟨[d₀], false, none, false⟩ := by
    rw [splitOff_page_of_ne hpos.ne (Nat.succ_ne_zero _).symm, raise_page_root]
  have hperm' : ((P.raise d₀).page P.size).entries.Perm (es ++ fs) := by rwa [hself]
  have hd₀ : d₀ ∈ ((P.raise d₀).page 0).downs := by simp [LinkedPage.downs]
  have hsplit := hraise.splitOff hlt hperm' hd₀ h₀ (by rw [hself, h.root_pending])
  have hnew : ((P.raise d₀).splitOff P.size es fs).page (P.size + 1) = _ := splitOff_page_new hlt
  have hlinks : Links key child ((P.raise d₀).splitOff P.size es fs) 0 P.size (P.size + 1) d₀ d d'
      [] [d, d'] := by
    constructor
    case next => simp [LinkedPages.raise, push, set]
    case left => simpa
    case right => simpa [hnew]
    all_goals simp [hroot, h₀, hd, hd', hle, hle']
  refine ⟨⟨_, _, hsplit.link hlinks, Function.update_of_ne (Nat.succ_ne_zero _).symm ..⟩, ?_⟩
  exact (adds_raise h).trans ((adds_splitOff hraise hlt hperm').trans (adds_link hlinks.inner))

end Grow

end GrowRoot

end Covers

end LinkedPages

end PgRange.Math
