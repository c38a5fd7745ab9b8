import PgRange.Math.Loop
import PgRange.Range.Basic
import Mathlib.Data.List.TakeWhile

/-!
# Parsing range literals

`range_parse` splits the text of a range into its flags and its two bound strings, and
`range_parse_bound` removes the quoting of one bound. A C string is the list of its bytes
before the terminator, and a pointer into it is the rest of the list; reading the
terminator is reading the empty list.

The language of range literals is given independently of the scanner, by derivations
that also say which flags and bound strings a text denotes.

## Main definitions

* `Locale` — the character classes that the C library provides
* `Quoted`, `BoundText`, `RangeText` — the grammar
* `rangeParse`, `rangeParseBound` — the parser

## Main results

* `rangeParse_eq_ok_iff` — the parser accepts the texts of the grammar and returns what
  they denote
-/

set_option autoImplicit false

namespace PgRange

open Math

/-- The bytes of a C string before its terminator. -/
abbrev CString : Type := List UInt8

namespace Ascii

abbrev quote : UInt8 := 0x22
abbrev leftParen : UInt8 := 0x28
abbrev rightParen : UInt8 := 0x29
abbrev comma : UInt8 := 0x2c
abbrev leftBracket : UInt8 := 0x5b
abbrev backslash : UInt8 := 0x5c
abbrev rightBracket : UInt8 := 0x5d

end Ascii

open Ascii

/-- The character classification of the C library in the current locale. A character
that is printed, or is an upper-case letter, is no space in any locale. -/
structure Locale where
  isspace : UInt8 → Bool
  isupper : UInt8 → Bool
  tolower : UInt8 → UInt8
  graph_not_space : ∀ c, 0x21 ≤ c → c ≤ 0x7e → isspace c = false
  upper_not_space : ∀ c, isupper c = true → isspace c = false

/-! ### The parser -/

/-- The folding of one character in `pg_strncasecmp`. -/
def foldCase (loc : Locale) (ch : UInt8) : UInt8 :=
  if 0x41 ≤ ch ∧ ch ≤ 0x5a then ch + 0x20
  else if 0x80 ≤ ch ∧ loc.isupper ch = true then loc.tolower ch
  else ch

/-- `pg_strncasecmp`. -/
def pgStrncasecmp (loc : Locale) : CString → CString → ℕ → ℤ
  | _, _, 0 => 0
  | s1, s2, n + 1 =>
    let ch1 := s1.headD 0
    let ch2 := s2.headD 0
    if ch1 ≠ ch2 then
      let ch1 := foldCase loc ch1
      let ch2 := foldCase loc ch2
      if ch1 ≠ ch2 then (ch1.toNat : ℤ) - ch2.toNat
      else if ch1 = 0 then 0
      else pgStrncasecmp loc s1.tail s2.tail n
    else if ch1 = 0 then 0
    else pgStrncasecmp loc s1.tail s2.tail n

/-- `RANGE_EMPTY_LITERAL`. -/
def rangeEmptyLiteral : CString := [0x65, 0x6d, 0x70, 0x74, 0x79]

/-- The loops that consume whitespace. -/
def skipSpace (loc : Locale) (ptr : CString) : CString := ptr.dropWhile loc.isspace

/-- The characters at which a bound ends outside of quotes. -/
def endsBound (ch : UInt8) : Bool := ch == comma || ch == rightParen || ch == rightBracket

/-- The loop of `range_parse_bound`: the bound string and the scan pointer. -/
def rangeParseBoundLoop (string : CString) :
    Bool → CString → CString → Except Fault (CString × CString)
  | _, [], _ => .error (.malformedRangeLiteral string .unexpectedEnd)
  | inquote, ch :: ptr, buf =>
    if !inquote && endsBound ch then .ok (buf, ch :: ptr)
    else if ch = backslash then
      match ptr with
      | [] => .error (.malformedRangeLiteral string .unexpectedEnd)
      | c :: ptr => rangeParseBoundLoop string inquote ptr (buf ++ [c])
    else if ch = quote then
      if !inquote then rangeParseBoundLoop string true ptr buf
      else
        let closed := rangeParseBoundLoop string false ptr buf
        match ptr with
        | [] => closed
        | c :: ptr' =>
          -- doubled quote within quote sequence
          if c = quote then rangeParseBoundLoop string true ptr' (buf ++ [c]) else closed
    else rangeParseBoundLoop string inquote ptr (buf ++ [ch])

/-- `range_parse_bound`: the bound string, if there is one, and the scan pointer. The
flag `infinite` is set exactly if there is none. -/
def rangeParseBound (string ptr : CString) : Except Fault (Option CString × CString) :=
  if (ptr.head?.map endsBound).getD false then .ok (none, ptr)
  else do
    let (boundStr, ptr) ← rangeParseBoundLoop string false ptr []
    return (some boundStr, ptr)

/-- The output parameters of `range_parse`. -/
structure ParsedRange where
  flags : RangeFlags
  lboundStr : Option CString
  uboundStr : Option CString
  deriving DecidableEq, Repr

/-- One of two characters, or an error: whether it is the first of them, and the scan
pointer behind it. -/
def expectEither (first second : UInt8) (fault : Fault) : CString → Except Fault (Bool × CString)
  | [] => .error fault
  | ch :: ptr =>
    if ch = first then .ok (true, ptr) else if ch = second then .ok (false, ptr) else .error fault

/-- `range_parse`. -/
def rangeParse (loc : Locale) (string : CString) : Except Fault ParsedRange :=
  let fault := Fault.malformedRangeLiteral string
  let ptr := skipSpace loc string
  if pgStrncasecmp loc ptr rangeEmptyLiteral rangeEmptyLiteral.length = 0 then
    if skipSpace loc (ptr.drop rangeEmptyLiteral.length) ≠ [] then .error (fault .junkAfterEmpty)
    else .ok ⟨{ empty := true }, none, none⟩
  else do
    let (lbInc, ptr) ← expectEither leftBracket leftParen (fault .missingLeft) ptr
    let (lboundStr, ptr) ← rangeParseBound string ptr
    let (_, ptr) ← expectEither comma comma (fault .missingComma) ptr
    let (uboundStr, ptr) ← rangeParseBound string ptr
    -- anything else must be a comma here
    let (ubInc, ptr) ← expectEither rightBracket rightParen (fault .tooManyCommas) ptr
    if skipSpace loc ptr ≠ [] then .error (fault .junkAfterRight)
    else
      .ok ⟨{ lbInc, ubInc, lbInf := lboundStr.isNone, ubInf := uboundStr.isNone },
        lboundStr, uboundStr⟩

/-! ### The grammar -/

/-- The inside of a double-quoted segment, and what it denotes. -/
inductive Quoted : CString → CString → Prop
  | nil : Quoted [] []
  | plain {c : UInt8} {t v : CString} :
      c ≠ quote → c ≠ backslash → Quoted t v → Quoted (c :: t) (c :: v)
  | escape {c : UInt8} {t v : CString} : Quoted t v → Quoted (backslash :: c :: t) (c :: v)
  | doubled {t v : CString} : Quoted t v → Quoted (quote :: quote :: t) (quote :: v)

/-- A character that stands for itself outside of quotes. -/
def IsPlain (c : UInt8) : Prop := endsBound c = false ∧ c ≠ quote ∧ c ≠ backslash

/-- The text of a bound, and the string it denotes. A closing quote is not followed by
another quote: two quotes in a row stand for one inside of the segment. -/
inductive BoundText : CString → CString → Prop
  | nil : BoundText [] []
  | plain {c : UInt8} {t v : CString} : IsPlain c → BoundText t v → BoundText (c :: t) (c :: v)
  | escape {c : UInt8} {t v : CString} : BoundText t v → BoundText (backslash :: c :: t) (c :: v)
  | segment {s w t v : CString} :
      Quoted s w → t.head? ≠ some quote → BoundText t v →
      BoundText (quote :: s ++ quote :: t) (w ++ v)

/-- A character is the given lower-case ASCII letter in upper or lower case. -/
def IsCaseOf (loc : Locale) (letter c : UInt8) : Prop :=
  c = letter ∨ c = letter - 0x20 ∨
    0x80 ≤ c ∧ loc.isupper c = true ∧ loc.tolower c = letter

/-- The bound string that a text stands for: none at all if the text is empty. -/
def boundStr (text value : CString) : Option CString := if text = [] then none else some value

/-- The texts of ranges, and what they denote. -/
inductive RangeText (loc : Locale) : CString → ParsedRange → Prop
  | empty {before word after : CString} :
      (∀ c ∈ before, loc.isspace c = true) → List.Forall₂ (IsCaseOf loc) rangeEmptyLiteral word →
      (∀ c ∈ after, loc.isspace c = true) →
      RangeText loc (before ++ word ++ after) ⟨{ empty := true }, none, none⟩
  | bounds {before lower lval upper uval after : CString} {left right : UInt8} :
      (∀ c ∈ before, loc.isspace c = true) → left = leftBracket ∨ left = leftParen →
      BoundText lower lval → BoundText upper uval → right = rightBracket ∨ right = rightParen →
      (∀ c ∈ after, loc.isspace c = true) →
      RangeText loc (before ++ left :: lower ++ comma :: upper ++ right :: after)
        ⟨{ lbInc := left == leftBracket, ubInc := right == rightBracket,
           lbInf := lower == [], ubInf := upper == [] },
         boundStr lower lval, boundStr upper uval⟩

/-! ### One bound -/

section Bound

variable {string : CString}

/-- A rest at which a bound ends. -/
def Ended (rest : CString) : Prop := ∃ ch ptr, rest = ch :: ptr ∧ endsBound ch = true

theorem quote_ne_backslash : quote ≠ backslash := by decide

theorem loop_ended {rest : CString} (h : Ended rest) (buf : CString) :
    rangeParseBoundLoop string false rest buf = .ok (buf, rest) := by
  obtain ⟨ch, ptr, rfl, hch⟩ := h
  unfold rangeParseBoundLoop
  simp [hch]

theorem loop_plain {c : UInt8} (hc : IsPlain c) (ptr buf : CString) :
    rangeParseBoundLoop string false (c :: ptr) buf =
      rangeParseBoundLoop string false ptr (buf ++ [c]) := by
  obtain ⟨hend, hquote, hback⟩ := hc
  rw [rangeParseBoundLoop.eq_def]
  simp [hend, hquote, hback]

theorem loop_escape (inquote : Bool) (c : UInt8) (ptr buf : CString) :
    rangeParseBoundLoop string inquote (backslash :: c :: ptr) buf =
      rangeParseBoundLoop string inquote ptr (buf ++ [c]) := by
  have hend : endsBound backslash = false := rfl
  rw [rangeParseBoundLoop.eq_def]
  simp [hend]

theorem loop_open (ptr buf : CString) :
    rangeParseBoundLoop string false (quote :: ptr) buf =
      rangeParseBoundLoop string true ptr buf := by
  have hend : endsBound quote = false := rfl
  rw [rangeParseBoundLoop.eq_def]
  simp [hend, quote_ne_backslash]

theorem loop_inside {c : UInt8} (hquote : c ≠ quote) (hback : c ≠ backslash) (ptr buf : CString) :
    rangeParseBoundLoop string true (c :: ptr) buf =
      rangeParseBoundLoop string true ptr (buf ++ [c]) := by
  rw [rangeParseBoundLoop.eq_def]
  simp [hquote, hback]

theorem loop_doubled (ptr buf : CString) :
    rangeParseBoundLoop string true (quote :: quote :: ptr) buf =
      rangeParseBoundLoop string true ptr (buf ++ [quote]) := by
  rw [rangeParseBoundLoop.eq_def]
  simp [quote_ne_backslash]

theorem loop_close {ptr : CString} (h : ptr.head? ≠ some quote) (buf : CString) :
    rangeParseBoundLoop string true (quote :: ptr) buf =
      rangeParseBoundLoop string false ptr buf := by
  rw [rangeParseBoundLoop.eq_def]
  cases ptr with
  | nil => simp [quote_ne_backslash]
  | cons c ptr =>
    have hc : c ≠ quote := by simpa using h
    simp [quote_ne_backslash, hc]

/-- A quoted segment is read up to its closing quote. -/
theorem loop_quoted {s w : CString} (h : Quoted s w) {ptr : CString}
    (hptr : ptr.head? ≠ some quote) (buf : CString) :
    rangeParseBoundLoop string true (s ++ quote :: ptr) buf =
      rangeParseBoundLoop string false ptr (buf ++ w) := by
  induction h generalizing buf with
  | nil => simpa using loop_close hptr buf
  | plain hquote hback _ ih =>
    rw [List.cons_append, loop_inside hquote hback, ih]
    simp
  | escape _ ih =>
    rw [List.cons_append, List.cons_append, loop_escape, ih]
    simp
  | doubled _ ih =>
    rw [List.cons_append, List.cons_append, loop_doubled, ih]
    simp

/-- A bound text is read to its end. -/
theorem loop_complete {t v : CString} (h : BoundText t v) {rest : CString} (hrest : Ended rest)
    (buf : CString) :
    rangeParseBoundLoop string false (t ++ rest) buf = .ok (buf ++ v, rest) := by
  induction h generalizing buf with
  | nil => simpa using loop_ended hrest buf
  | plain hc _ ih =>
    rw [List.cons_append, loop_plain hc, ih]
    simp
  | escape _ ih =>
    rw [List.cons_append, List.cons_append, loop_escape, ih]
    simp
  | @segment s w t v hs ht _ ih =>
    have hhead : (t ++ rest).head? ≠ some quote := by
      cases t with
      | cons c t => simpa using ht
      | nil =>
        -- the bound ends right behind the segment
        obtain ⟨ch, ptr, rfl, hch⟩ := hrest
        rintro hq
        obtain rfl : ch = quote := by simpa using hq
        exact absurd hch (by decide)
    rw [List.append_assoc, List.cons_append, loop_open, List.cons_append, loop_quoted hs hhead, ih]
    simp

/-- What is left to read: a bound text, or the rest of a segment and a bound text behind
it. -/
def Scans : Bool → CString → CString → Prop
  | false, t, v => BoundText t v
  | true, t, v => ∃ s w t' v', t = s ++ quote :: t' ∧ v = w ++ v' ∧ Quoted s w ∧
      t'.head? ≠ some quote ∧ BoundText t' v'

namespace Scans

variable {t v : CString}

theorem escape {inquote : Bool} (c : UInt8) (h : Scans inquote t v) :
    Scans inquote (backslash :: c :: t) (c :: v) := by
  cases inquote with
  | false => exact BoundText.escape h
  | true =>
    obtain ⟨s, w, t', v', rfl, rfl, hs, ht, hb⟩ := h
    exact ⟨backslash :: c :: s, c :: w, t', v', by simp, by simp, hs.escape, ht, hb⟩

theorem openQuote (h : Scans true t v) : Scans false (quote :: t) v := by
  obtain ⟨s, w, t', v', rfl, rfl, hs, ht, hb⟩ := h
  exact BoundText.segment hs ht hb

theorem inside {c : UInt8} (hquote : c ≠ quote) (hback : c ≠ backslash) (h : Scans true t v) :
    Scans true (c :: t) (c :: v) := by
  obtain ⟨s, w, t', v', rfl, rfl, hs, ht, hb⟩ := h
  exact ⟨c :: s, c :: w, t', v', by simp, by simp, hs.plain hquote hback, ht, hb⟩

theorem doubled (h : Scans true t v) : Scans true (quote :: quote :: t) (quote :: v) := by
  obtain ⟨s, w, t', v', rfl, rfl, hs, ht, hb⟩ := h
  exact ⟨quote :: quote :: s, quote :: w, t', v', by simp, by simp, hs.doubled, ht, hb⟩

theorem close (ht : t.head? ≠ some quote) (h : Scans false t v) : Scans true (quote :: t) v :=
  ⟨[], [], t, v, rfl, rfl, .nil, ht, h⟩

end Scans

/-- One round of the loop: the state before and behind it. -/
inductive BoundRound : Bool → CString → CString → Bool → CString → CString → Prop
  | escape (inquote : Bool) (c : UInt8) (ptr buf : CString) :
      BoundRound inquote (backslash :: c :: ptr) buf inquote ptr (buf ++ [c])
  | plain {c : UInt8} (hc : IsPlain c) (ptr buf : CString) :
      BoundRound false (c :: ptr) buf false ptr (buf ++ [c])
  | openQuote (ptr buf : CString) : BoundRound false (quote :: ptr) buf true ptr buf
  | inside {c : UInt8} (hquote : c ≠ quote) (hback : c ≠ backslash) (ptr buf : CString) :
      BoundRound true (c :: ptr) buf true ptr (buf ++ [c])
  | doubled (ptr buf : CString) :
      BoundRound true (quote :: quote :: ptr) buf true ptr (buf ++ [quote])
  | close {ptr : CString} (hptr : ptr.head? ≠ some quote) (buf : CString) :
      BoundRound true (quote :: ptr) buf false ptr buf

/-- A loop that ends well is at the end of the bound or makes a round. -/
theorem loop_inv {inquote : Bool} {ptr buf : CString} {res : CString × CString}
    (h : rangeParseBoundLoop string inquote ptr buf = .ok res) :
    inquote = false ∧ Ended ptr ∧ (buf, ptr) = res ∨
      ∃ inquote' ptr' buf', BoundRound inquote ptr buf inquote' ptr' buf' ∧
        rangeParseBoundLoop string inquote' ptr' buf' = .ok res := by
  cases ptr with
  | nil => simp [rangeParseBoundLoop] at h
  | cons ch ptr =>
    -- the escape is read alike inside and outside of quotes, so it comes first
    by_cases hback : ch = backslash
    · subst hback
      cases ptr with
      | nil =>
        -- nothing is left to escape, which is an error
        rw [rangeParseBoundLoop.eq_def] at h
        simp [show endsBound backslash = false from rfl] at h
      | cons c ptr =>
        rw [loop_escape] at h
        exact Or.inr ⟨_, _, _, .escape inquote c ptr buf, h⟩
    by_cases hquote : ch = quote
    · subst hquote
      cases inquote with
      | false =>
        rw [loop_open] at h
        exact Or.inr ⟨_, _, _, .openQuote ptr buf, h⟩
      | true =>
        by_cases hnext : ptr.head? = some quote
        · obtain ⟨ptr', rfl⟩ := List.head?_eq_some_iff.mp hnext
          rw [loop_doubled] at h
          exact Or.inr ⟨_, _, _, .doubled ptr' buf, h⟩
        · rw [loop_close hnext] at h
          exact Or.inr ⟨_, _, _, .close hnext buf, h⟩
    cases inquote with
    | true =>
      rw [loop_inside hquote hback] at h
      exact Or.inr ⟨_, _, _, .inside hquote hback ptr buf, h⟩
    | false =>
      by_cases hterm : endsBound ch = true
      · have hend : Ended (ch :: ptr) := ⟨ch, ptr, rfl, hterm⟩
        rw [loop_ended hend] at h
        exact Or.inl ⟨rfl, hend, Except.ok.inj h⟩
      · have hplain : IsPlain ch := ⟨by simpa using hterm, hquote, hback⟩
        rw [loop_plain hplain] at h
        exact Or.inr ⟨_, _, _, .plain hplain ptr buf, h⟩

theorem BoundRound.length_lt {inquote inquote' : Bool} {ptr ptr' buf buf' : CString}
    (h : BoundRound inquote ptr buf inquote' ptr' buf') : ptr'.length < ptr.length := by
  cases h <;> simp only [List.length_cons] <;> omega

/-- Undoing a round: what is left to read behind it, with what the round has read. -/
theorem BoundRound.scans {inquote inquote' : Bool} {ptr buf buf' t v rest : CString}
    (h : BoundRound inquote ptr buf inquote' (t ++ rest) buf') (hscan : Scans inquote' t v) :
    ∃ t' v', ptr = t' ++ rest ∧ Scans inquote t' v' ∧ buf' ++ v = buf ++ v' := by
  cases h with
  | escape _ c => exact ⟨_, _, by simp, hscan.escape c, by simp⟩
  | plain hc => exact ⟨_, _, by simp, BoundText.plain hc hscan, by simp⟩
  | openQuote => exact ⟨_, _, by simp, hscan.openQuote, rfl⟩
  | inside hquote hback => exact ⟨_, _, by simp, hscan.inside hquote hback, by simp⟩
  | doubled => exact ⟨_, _, by simp, hscan.doubled, by simp⟩
  | close hptr =>
    have ht : t.head? ≠ some quote := by
      cases t with
      | nil => simp
      | cons c t => simpa using hptr
    exact ⟨_, _, by simp, hscan.close ht, rfl⟩

/-- Whatever the loop accepts is a bound text. The induction is on the length of the
input, as a round consumes one or two characters. -/
theorem loop_sound {inquote : Bool} {ptr buf out rest : CString}
    (h : rangeParseBoundLoop string inquote ptr buf = .ok (out, rest)) :
    ∃ t v, ptr = t ++ rest ∧ Scans inquote t v ∧ out = buf ++ v ∧ Ended rest := by
  induction hn : ptr.length using Nat.strong_induction_on generalizing inquote ptr buf with
  | _ n ih =>
    subst hn
    rcases loop_inv h with ⟨rfl, hend, hres⟩ | ⟨inquote', ptr', buf', hround, hloop⟩
    · obtain ⟨rfl, rfl⟩ := Prod.mk.inj hres
      exact ⟨[], [], rfl, BoundText.nil, by simp, hend⟩
    · obtain ⟨t, v, rfl, hscan, rfl, hend⟩ := ih _ hround.length_lt hloop rfl
      obtain ⟨t', v', hptr, hscan', hbuf⟩ := hround.scans hscan
      exact ⟨t', v', hptr, hscan', hbuf, hend⟩

/-- `range_parse_bound` reads exactly the bound texts that end properly. -/
theorem rangeParseBound_eq_ok_iff {ptr rest : CString} {bound : Option CString} :
    rangeParseBound string ptr = .ok (bound, rest) ↔
      ∃ t v, ptr = t ++ rest ∧ BoundText t v ∧ bound = boundStr t v ∧ Ended rest := by
  have hhead : (ptr.head?.map endsBound).getD false = true ↔ Ended ptr := by
    cases ptr with
    | nil => simp [Ended]
    | cons ch ptr => simp [Ended]
  unfold rangeParseBound
  by_cases hend : Ended ptr
  · rw [if_pos (hhead.mpr hend), Except.ok.injEq, Prod.mk.injEq]
    constructor
    · rintro ⟨rfl, rfl⟩
      exact ⟨[], [], rfl, .nil, rfl, hend⟩
    · rintro ⟨t, v, rfl, htext, rfl, -⟩
      -- no bound text starts at the end of a bound, except the empty one
      obtain ⟨ch, ptr, hptr, hch⟩ := hend
      cases htext with
      | nil => exact ⟨rfl, rfl⟩
      | plain hc =>
        obtain ⟨rfl, -⟩ := List.cons.inj hptr
        simp [hc.1] at hch
      | escape =>
        obtain ⟨rfl, -⟩ := List.cons.inj hptr
        exact absurd hch (by decide)
      | segment =>
        obtain ⟨rfl, -⟩ := List.cons.inj hptr
        exact absurd hch (by decide)
  · rw [if_neg fun h => hend (hhead.mp h), bind_eq_ok_iff]
    constructor
    · rintro ⟨⟨str, rest'⟩, hloop, hret⟩
      obtain ⟨rfl, rfl⟩ := Prod.mk.inj (Except.ok.inj hret)
      obtain ⟨t, v, rfl, htext, rfl, hrest⟩ := loop_sound hloop
      refine ⟨t, _, rfl, htext, ?_, hrest⟩
      have ht : t ≠ [] := by
        rintro rfl
        exact hend hrest
      simp [boundStr, ht]
    · rintro ⟨t, v, rfl, htext, rfl, hrest⟩
      have ht : t ≠ [] := by
        rintro rfl
        exact hend hrest
      exact ⟨(v, rest), by simpa using loop_complete htext hrest [], by simp [boundStr, ht]; rfl⟩

end Bound

/-! ### The key word -/

section Keyword

variable {loc : Locale}

/-- The lower-case ASCII letters. -/
def IsLetter (c : UInt8) : Prop := 0x61 ≤ c ∧ c ≤ 0x7a

theorem foldCase_letter {letter : UInt8} (h : IsLetter letter) : foldCase loc letter = letter := by
  obtain ⟨hlo, hhi⟩ := h
  have hupper : ¬ (0x41 ≤ letter ∧ letter ≤ 0x5a) := by grind
  have hhigh : ¬ (0x80 ≤ letter ∧ loc.isupper letter = true) := by grind
  rw [foldCase, if_neg hupper, if_neg hhigh]

/-- The capital of a letter is a capital, and neither a letter nor beyond ASCII. -/
theorem capital_bounds {letter : UInt8} (h : IsLetter letter) :
    0x41 ≤ letter - 0x20 ∧ letter - 0x20 ≤ 0x5a := by
  obtain ⟨hlo, hhi⟩ := h
  simp only [UInt8.le_iff_toNat_le, UInt8.toNat_sub, UInt8.reduceToNat] at *
  omega

/-- Folding maps exactly the cases of a lower-case letter to it. -/
theorem foldCase_eq_iff {letter c : UInt8} (h : IsLetter letter) :
    foldCase loc c = letter ↔ IsCaseOf loc letter c := by
  have hcap := capital_bounds h
  obtain ⟨hlo, hhi⟩ := h
  unfold foldCase IsCaseOf
  -- the character is a capital of ASCII, a capital beyond ASCII, or folded to itself
  split_ifs with hupper hhigh
  · constructor
    · rintro rfl
      simp
    · rintro (rfl | rfl | ⟨hge, -⟩)
      · grind
      · simp
      · grind
  · constructor
    · intro hc
      exact Or.inr (Or.inr ⟨hhigh.1, hhigh.2, hc⟩)
    · rintro (rfl | rfl | ⟨-, -, hc⟩)
      · grind
      · exact absurd hcap hupper
      · exact hc
  · constructor
    · exact Or.inl
    · rintro (rfl | rfl | ⟨hge, hup, -⟩)
      · rfl
      · exact absurd hcap hupper
      · exact absurd ⟨hge, hup⟩ hhigh

theorem IsCaseOf.not_space {letter c : UInt8} (hletter : IsLetter letter)
    (h : IsCaseOf loc letter c) : loc.isspace c = false := by
  have hcap := capital_bounds hletter
  obtain ⟨hlo, hhi⟩ := hletter
  rcases h with rfl | rfl | ⟨-, hup, -⟩
  · exact loc.graph_not_space _ (by grind) (by grind)
  · exact loc.graph_not_space _ (by grind) (by grind)
  · exact loc.upper_not_space _ hup

theorem IsCaseOf.ne_zero {letter c : UInt8} (hletter : IsLetter letter)
    (h : IsCaseOf loc letter c) : c ≠ 0 := by
  have hcap := capital_bounds hletter
  obtain ⟨hlo, hhi⟩ := hletter
  rintro rfl
  rcases h with h | h | ⟨h, -⟩ <;> grind

/-- One round of the comparison. -/
theorem pgStrncasecmp_cons {letter : UInt8} (h : IsLetter letter) (ptr word : CString) (n : ℕ) :
    pgStrncasecmp loc ptr (letter :: word) (n + 1) = 0 ↔
      IsCaseOf loc letter (ptr.headD 0) ∧ pgStrncasecmp loc ptr.tail word n = 0 := by
  have hzero : letter ≠ 0 := by
    obtain ⟨hlo, -⟩ := h
    rintro rfl
    exact absurd hlo (by decide)
  rw [pgStrncasecmp]
  simp only [List.headD_cons, List.tail_cons, foldCase_letter h]
  generalize ptr.headD 0 = ch
  by_cases heq : ch = letter
  · simp [heq, hzero, IsCaseOf]
  · -- the characters differ, and so are folded
    rw [if_pos heq]
    by_cases hfold : foldCase loc ch = letter
    · rw [if_neg (not_not.mpr hfold), hfold, if_neg hzero]
      simp [(foldCase_eq_iff h).mp hfold]
    · have hcase : ¬ IsCaseOf loc letter ch := fun hc => hfold ((foldCase_eq_iff h).mpr hc)
      have hne : (foldCase loc ch).toNat ≠ letter.toNat := fun hc =>
        hfold (UInt8.toNat_inj.mp hc)
      rw [if_pos hfold]
      simp only [hcase, false_and, iff_false]
      omega

/-- The comparison with a word of lower-case letters succeeds on its spellings. -/
theorem pgStrncasecmp_eq_zero_iff {word : CString} (hword : ∀ c ∈ word, IsLetter c)
    (ptr : CString) :
    pgStrncasecmp loc ptr word word.length = 0 ↔
      ∃ spelling rest, ptr = spelling ++ rest ∧ List.Forall₂ (IsCaseOf loc) word spelling := by
  induction word generalizing ptr with
  | nil => simp [pgStrncasecmp]
  | cons letter word ih =>
    have hletter := hword letter (by simp)
    rw [List.length_cons, pgStrncasecmp_cons hletter, ih fun c hc => hword c (by simp [hc])]
    constructor
    · rintro ⟨hcase, spelling, rest, htail, hspell⟩
      cases ptr with
      | nil =>
        -- the terminator is no letter
        exact absurd rfl (hcase.ne_zero hletter)
      | cons c ptr =>
        obtain rfl : ptr = spelling ++ rest := htail
        exact ⟨c :: spelling, rest, rfl, .cons hcase hspell⟩
    · rintro ⟨spelling, rest, rfl, hspell⟩
      obtain ⟨c, tail, hcase, htail, rfl⟩ := List.forall₂_cons_left_iff.mp hspell
      exact ⟨hcase, tail, rest, rfl, htail⟩

theorem isLetter_of_mem_literal : ∀ c ∈ rangeEmptyLiteral, IsLetter c := by
  intro c hc
  simp only [rangeEmptyLiteral, List.mem_cons, List.not_mem_nil, or_false] at hc
  rcases hc with rfl | rfl | rfl | rfl | rfl <;> exact ⟨by decide, by decide⟩

/-- Neither bracket starts the key word. -/
theorem left_not_keyword {c : UInt8} (h : c = leftBracket ∨ c = leftParen) (ptr : CString) :
    pgStrncasecmp loc (c :: ptr) rangeEmptyLiteral rangeEmptyLiteral.length ≠ 0 := by
  have hcase : ¬ IsCaseOf loc 0x65 c := by
    rintro (hc | hc | ⟨hc, -⟩)
    · rcases h with rfl | rfl <;> exact absurd hc (by decide)
    · rcases h with rfl | rfl <;> exact absurd hc (by decide)
    · rcases h with rfl | rfl <;> exact absurd hc (by decide)
  rw [Ne, rangeEmptyLiteral, List.length_cons, pgStrncasecmp_cons ⟨by decide, by decide⟩]
  exact fun hkey => hcase hkey.1

theorem not_space_of_left {c : UInt8} (h : c = leftBracket ∨ c = leftParen) :
    loc.isspace c = false := by
  rcases h with rfl | rfl
  · exact loc.graph_not_space _ (by decide) (by decide)
  · exact loc.graph_not_space _ (by decide) (by decide)

end Keyword

/-! ### Whole literals -/

section Whole

variable {loc : Locale}

theorem skipSpace_eq_nil_iff {ptr : CString} :
    skipSpace loc ptr = [] ↔ ∀ c ∈ ptr, loc.isspace c = true :=
  List.dropWhile_eq_nil_iff

/-- Skipping stops at the first character that is no space. -/
theorem skipSpace_append {before rest : CString} {c : UInt8}
    (hbefore : ∀ c ∈ before, loc.isspace c = true) (hc : loc.isspace c = false) :
    skipSpace loc (before ++ c :: rest) = c :: rest := by
  rw [skipSpace, List.dropWhile_append_of_pos hbefore, List.dropWhile_cons_of_neg (by simp [hc])]

theorem skipSpace_spec (loc : Locale) (ptr : CString) :
    ∃ before, ptr = before ++ skipSpace loc ptr ∧ ∀ c ∈ before, loc.isspace c = true := by
  refine ⟨ptr.takeWhile loc.isspace, ?_, ?_⟩
  · simp [skipSpace]
  · intro c hc
    exact List.mem_takeWhile_imp hc

theorem expectEither_eq_ok_iff {first second : UInt8} {fault : Fault} {ptr rest : CString}
    {b : Bool} :
    expectEither first second fault ptr = .ok (b, rest) ↔
      ∃ ch, ptr = ch :: rest ∧ (ch = first ∨ ch = second) ∧ b = (ch == first) := by
  cases ptr with
  | nil => simp [expectEither]
  | cons c ptr =>
    by_cases hfirst : c = first
    · simp [expectEither, hfirst, and_comm, eq_comm]
    · by_cases hsecond : c = second
      · subst hsecond
        simp only [expectEither, if_neg hfirst, ↓reduceIte, Except.ok.injEq, Prod.mk.injEq]
        constructor
        · rintro ⟨rfl, rfl⟩
          exact ⟨c, rfl, Or.inr rfl, by simp [hfirst]⟩
        · rintro ⟨ch, hptr, -, rfl⟩
          obtain ⟨rfl, rfl⟩ := List.cons.inj hptr
          exact ⟨by simp [hfirst], rfl⟩
      · simp [expectEither, hfirst, hsecond]

theorem ended_comma (ptr : CString) : Ended (comma :: ptr) := ⟨comma, ptr, rfl, rfl⟩

theorem ended_right {c : UInt8} (h : c = rightBracket ∨ c = rightParen) (ptr : CString) :
    Ended (c :: ptr) := by
  rcases h with rfl | rfl
  · exact ⟨_, ptr, rfl, rfl⟩
  · exact ⟨_, ptr, rfl, rfl⟩

theorem isNone_boundStr (text value : CString) : (boundStr text value).isNone = (text == []) := by
  cases text <;> simp [boundStr]

/-- Every text of the grammar is accepted. -/
theorem rangeParse_complete {string : CString} {parsed : ParsedRange}
    (h : RangeText loc string parsed) : rangeParse loc string = .ok parsed := by
  cases h with
  | @empty before word after hbefore hword hafter =>
    obtain ⟨c, tail, hcase, -, rfl⟩ := List.forall₂_cons_left_iff.mp hword
    have hspace : loc.isspace c = false := hcase.not_space ⟨by decide, by decide⟩
    have hskip : skipSpace loc (before ++ c :: tail ++ after) = c :: tail ++ after := by
      rw [List.append_assoc, List.cons_append, skipSpace_append hbefore hspace]
    have hkey : pgStrncasecmp loc (c :: tail ++ after) rangeEmptyLiteral
        rangeEmptyLiteral.length = 0 :=
      (pgStrncasecmp_eq_zero_iff isLetter_of_mem_literal _).mpr ⟨c :: tail, after, rfl, hword⟩
    have hdrop : (c :: tail ++ after).drop rangeEmptyLiteral.length = after :=
      List.drop_left' hword.length_eq.symm
    simp only [rangeParse, hskip, hkey, hdrop, skipSpace_eq_nil_iff.mpr hafter, ↓reduceIte,
      ne_eq, not_true_eq_false]
  | @bounds before lower lval upper uval after left right hbefore hleft hlower hupper hright hafter =>
    have hskip : skipSpace loc (before ++ left :: lower ++ comma :: upper ++ right :: after) =
        left :: (lower ++ comma :: (upper ++ right :: after)) := by
      simp only [List.append_assoc, List.cons_append]
      exact skipSpace_append hbefore (not_space_of_left hleft)
    simp only [rangeParse, hskip, left_not_keyword hleft, ↓reduceIte]
    -- the five reads of the parser, each of the part that the grammar puts there
    refine bind_eq_ok_iff.mpr ⟨_, expectEither_eq_ok_iff.mpr ⟨left, rfl, hleft, rfl⟩, ?_⟩
    refine bind_eq_ok_iff.mpr
      ⟨_, rangeParseBound_eq_ok_iff.mpr ⟨lower, lval, rfl, hlower, rfl, ended_comma _⟩, ?_⟩
    refine bind_eq_ok_iff.mpr ⟨_, expectEither_eq_ok_iff.mpr ⟨comma, rfl, Or.inl rfl, rfl⟩, ?_⟩
    refine bind_eq_ok_iff.mpr
      ⟨_, rangeParseBound_eq_ok_iff.mpr ⟨upper, uval, rfl, hupper, rfl, ended_right hright _⟩, ?_⟩
    refine bind_eq_ok_iff.mpr ⟨_, expectEither_eq_ok_iff.mpr ⟨right, rfl, hright, rfl⟩, ?_⟩
    simp [skipSpace_eq_nil_iff.mpr hafter, isNone_boundStr]

/-- Whatever is accepted is a text of the grammar. -/
theorem rangeParse_sound {string : CString} {parsed : ParsedRange}
    (h : rangeParse loc string = .ok parsed) : RangeText loc string parsed := by
  obtain ⟨before, hstring, hbefore⟩ := skipSpace_spec loc string
  simp only [rangeParse] at h
  generalize skipSpace loc string = ptr at hstring h
  split_ifs at h with hkey hjunk
  · obtain ⟨word, after, rfl, hword⟩ :=
      (pgStrncasecmp_eq_zero_iff isLetter_of_mem_literal _).mp hkey
    rw [List.drop_left' hword.length_eq.symm, not_not, skipSpace_eq_nil_iff] at hjunk
    obtain rfl := Except.ok.inj h
    rw [hstring, ← List.append_assoc]
    exact .empty hbefore hword hjunk
  · -- no key word: every read has succeeded
    obtain ⟨⟨lbInc, ptr1⟩, hl, h⟩ := bind_eq_ok_iff.mp h
    obtain ⟨⟨lboundStr, ptr2⟩, hlb, h⟩ := bind_eq_ok_iff.mp h
    obtain ⟨⟨_, ptr3⟩, hc, h⟩ := bind_eq_ok_iff.mp h
    obtain ⟨⟨uboundStr, ptr4⟩, hub, h⟩ := bind_eq_ok_iff.mp h
    obtain ⟨⟨ubInc, after⟩, hr, h⟩ := bind_eq_ok_iff.mp h
    obtain ⟨left, rfl, hleft, rfl⟩ := expectEither_eq_ok_iff.mp hl
    obtain ⟨lower, lval, rfl, hlower, rfl, -⟩ := rangeParseBound_eq_ok_iff.mp hlb
    obtain ⟨_, rfl, hcomma, -⟩ := expectEither_eq_ok_iff.mp hc
    obtain ⟨upper, uval, rfl, hupper, rfl, -⟩ := rangeParseBound_eq_ok_iff.mp hub
    obtain ⟨right, rfl, hright, rfl⟩ := expectEither_eq_ok_iff.mp hr
    obtain rfl := (or_self_iff.mp hcomma)
    dsimp only at h
    split_ifs at h with hafter
    rw [not_not, skipSpace_eq_nil_iff] at hafter
    obtain rfl := Except.ok.inj h
    rw [hstring, isNone_boundStr, isNone_boundStr]
    have htext := RangeText.bounds hbefore hleft hlower hupper hright hafter
    simpa only [List.append_assoc, List.cons_append] using htext

/-- `range_parse` accepts exactly the texts of the grammar, and returns what they denote. -/
theorem rangeParse_eq_ok_iff (loc : Locale) (string : CString) (parsed : ParsedRange) :
    rangeParse loc string = .ok parsed ↔ RangeText loc string parsed :=
  ⟨rangeParse_sound, rangeParse_complete⟩

end Whole

end PgRange
