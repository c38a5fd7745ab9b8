import PgRange.Range.Construct
import PgRange.Range.Parse

/-!
# Text form of ranges

`range_deparse` writes the flags and the two bound strings as one text, and
`range_bound_escape` quotes a bound string where that is needed. What it writes is a text
of the grammar of `PgRange.Range.Parse` that denotes the same flags and strings, so
`range_parse` reads it back.

## Main results

* `boundText_rangeBoundEscape` — an escaped string is a bound text for the string
* `rangeParse_rangeDeparse` — output followed by input is the identity
-/

set_option autoImplicit false

namespace PgRange

open Ascii

/-- The characters for which `range_bound_escape` puts a value in quotes. -/
def needsQuotes (loc : Locale) (ch : UInt8) : Bool :=
  ch == quote || ch == backslash || ch == leftParen || ch == rightParen ||
    ch == leftBracket || ch == rightBracket || ch == comma || loc.isspace ch

/-- The characters that are doubled. -/
def escapeChar (ch : UInt8) : CString :=
  if ch == quote || ch == backslash then [ch, ch] else [ch]

/-- `range_bound_escape`. -/
def rangeBoundEscape (loc : Locale) (value : CString) : CString :=
  -- force quotes for the empty string
  let nq := value.isEmpty || value.any (needsQuotes loc)
  if nq then quote :: value.flatMap escapeChar ++ [quote] else value.flatMap escapeChar

/-- `range_deparse`. A bound string is read only if the flags say that it is there. -/
def rangeDeparse (loc : Locale) (flags : RangeFlags) (lboundStr uboundStr : CString) : CString :=
  if flags.empty then rangeEmptyLiteral
  else
    (if flags.lbInc then leftBracket else leftParen) ::
      (if flags.hasLbound then rangeBoundEscape loc lboundStr else []) ++
    comma ::
      (if flags.hasUbound then rangeBoundEscape loc uboundStr else []) ++
    [if flags.ubInc then rightBracket else rightParen]

/-! ### Escaped strings are bound texts -/

section Escape

variable {loc : Locale}

/-- Inside of quotes, doubling quotes and backslashes is enough for any string. -/
theorem quoted_flatMap_escapeChar (value : CString) :
    Quoted (value.flatMap escapeChar) value := by
  induction value with
  | nil => exact .nil
  | cons ch value ih =>
    rw [List.flatMap_cons]
    by_cases hquote : ch = quote
    · subst hquote
      exact .doubled ih
    · by_cases hback : ch = backslash
      · subst hback
        exact .escape ih
      · have hplain : escapeChar ch = [ch] := by simp [escapeChar, hquote, hback]
        rw [hplain]
        exact .plain hquote hback ih

/-- Outside of quotes, a string without special characters stands for itself. -/
theorem boundText_flatMap_escapeChar {value : CString}
    (h : ∀ ch ∈ value, needsQuotes loc ch = false) :
    BoundText (value.flatMap escapeChar) value := by
  induction value with
  | nil => exact .nil
  | cons ch value ih =>
    have hch := h ch (by simp)
    simp only [needsQuotes, Bool.or_eq_false_iff, beq_eq_false_iff_ne] at hch
    obtain ⟨⟨⟨⟨⟨⟨⟨hquote, hback⟩, -⟩, hparen⟩, -⟩, hbracket⟩, hcomma⟩, -⟩ := hch
    have hself : escapeChar ch = [ch] := by simp [escapeChar, hquote, hback]
    rw [List.flatMap_cons, hself]
    have hplain : IsPlain ch := ⟨by simp [endsBound, hcomma, hparen, hbracket], hquote, hback⟩
    exact .plain hplain (ih fun c hc => h c (by simp [hc]))

/-- An escaped string is a bound text for the string, and is never empty. -/
theorem boundText_rangeBoundEscape (loc : Locale) (value : CString) :
    BoundText (rangeBoundEscape loc value) value ∧ rangeBoundEscape loc value ≠ [] := by
  simp only [rangeBoundEscape]
  split_ifs with hnq
  · refine ⟨?_, by simp⟩
    have htext := BoundText.segment (quoted_flatMap_escapeChar value) (by simp) .nil
    simpa using htext
  · simp only [Bool.or_eq_true, List.isEmpty_iff, List.any_eq_true, not_or, not_exists, not_and,
      Bool.not_eq_true] at hnq
    refine ⟨boundText_flatMap_escapeChar hnq.2, ?_⟩
    -- every character leaves something
    cases value with
    | nil => exact absurd rfl hnq.1
    | cons ch value =>
      rw [List.flatMap_cons, escapeChar]
      split_ifs <;> simp

end Escape

/-- The word that stands for the empty range spells itself. -/
theorem forall₂_isCaseOf_self (loc : Locale) (word : CString) :
    List.Forall₂ (IsCaseOf loc) word word := by
  induction word with
  | nil => exact .nil
  | cons c word ih => exact .cons (Or.inl rfl) ih

/-- The text of a bound, and the string that it denotes, from the flag that tells
whether there is one. -/
theorem boundText_of_present (loc : Locale) (present : Bool) (value : CString) :
    ∃ v, BoundText (if present then rangeBoundEscape loc value else []) v ∧
      ((if present then rangeBoundEscape loc value else []) == []) = !present ∧
      boundStr (if present then rangeBoundEscape loc value else []) v =
        if present then some value else none := by
  obtain ⟨htext, hne⟩ := boundText_rangeBoundEscape loc value
  cases present with
  | true => exact ⟨value, htext, by simp [hne], by simp [boundStr, hne]⟩
  | false => exact ⟨[], .nil, rfl, rfl⟩

/-- The flags of a range that is not empty, as the parser puts them together. -/
theorem flags_eq_parsed {flags : RangeFlags} (hflags : flags.Proper)
    (hmark : flags.containEmpty = false) (hempty : flags.empty = false) :
    flags = { lbInc := (if flags.lbInc then leftBracket else leftParen) == leftBracket
              ubInc := (if flags.ubInc then rightBracket else rightParen) == rightBracket
              lbInf := !flags.hasLbound
              ubInf := !flags.hasUbound } := by
  obtain ⟨⟨hlb, hub⟩, -, -, -⟩ := hflags
  obtain ⟨empty, lbInc, ubInc, lbInf, ubInf, lbNull, ubNull, containEmpty⟩ := flags
  simp only at hmark hempty hlb hub
  subst hmark hempty hlb hub
  cases lbInc <;> cases ubInc <;> cases lbInf <;> cases ubInf <;> rfl

/-- What `range_deparse` writes, `range_parse` reads back: the same flags, the same bound
strings, and none where the flags say that there is none. -/
theorem rangeParse_rangeDeparse (loc : Locale) (flags : RangeFlags) (hflags : flags.Proper)
    (hmark : flags.containEmpty = false) (lboundStr uboundStr : CString) :
    rangeParse loc (rangeDeparse loc flags lboundStr uboundStr) =
      .ok ⟨flags, if flags.hasLbound then some lboundStr else none,
        if flags.hasUbound then some uboundStr else none⟩ := by
  apply rangeParse_complete
  cases hempty : flags.empty with
  | true =>
    -- proper flags of an empty range have no other flag
    obtain rfl := hflags.emptyAlone hempty
    have htext : RangeText loc ([] ++ rangeEmptyLiteral ++ []) ⟨{ empty := true }, none, none⟩ :=
      .empty (by simp) (forall₂_isCaseOf_self loc _) (by simp)
    exact htext
  | false =>
    obtain ⟨lval, hlower, hlnil, hlstr⟩ := boundText_of_present loc flags.hasLbound lboundStr
    obtain ⟨uval, hupper, hunil, hustr⟩ := boundText_of_present loc flags.hasUbound uboundStr
    have hleft : (if flags.lbInc then leftBracket else leftParen) = leftBracket ∨
        (if flags.lbInc then leftBracket else leftParen) = leftParen := by
      cases flags.lbInc <;> simp
    have hright : (if flags.ubInc then rightBracket else rightParen) = rightBracket ∨
        (if flags.ubInc then rightBracket else rightParen) = rightParen := by
      cases flags.ubInc <;> simp
    -- no space is written before the left or after the right bracket
    have htext : RangeText loc ([] ++ _ :: _ ++ comma :: _ ++ _ :: []) _ :=
      .bounds (by simp) hleft hlower hupper hright (by simp)
    rw [hlnil, hlstr, hunil, hustr, ← flags_eq_parsed hflags hmark hempty] at htext
    simpa [rangeDeparse, hempty] using htext

/-- The POSIX locale. -/
def posix : Locale where
  isspace c := c == 0x20 || (0x09 ≤ c && c ≤ 0x0d)
  isupper c := 0x41 ≤ c && c ≤ 0x5a
  tolower c := if 0x41 ≤ c ∧ c ≤ 0x5a then c + 0x20 else c
  graph_not_space := by
    intro c hlo hhi
    simp only [Bool.or_eq_false_iff, Bool.and_eq_false_iff, beq_eq_false_iff_ne,
      decide_eq_false_iff_not]
    grind
  upper_not_space := by
    intro c hc
    simp only [Bool.and_eq_true, decide_eq_true_eq] at hc
    simp only [Bool.or_eq_false_iff, Bool.and_eq_false_iff, beq_eq_false_iff_ne,
      decide_eq_false_iff_not]
    grind

/-- The empty string is quoted, so it is not taken for an infinite bound. -/
theorem rangeParse_rangeDeparse_emptyString :
    rangeDeparse posix { lbInc := true, ubInf := true } [] [] =
        [leftBracket, quote, quote, comma, rightParen] ∧
      rangeParse posix [leftBracket, quote, quote, comma, rightParen] =
        .ok ⟨{ lbInc := true, ubInf := true }, some [], none⟩ :=
  ⟨rfl, rangeParse_rangeDeparse posix { lbInc := true, ubInf := true }
    ⟨⟨rfl, rfl⟩, nofun, nofun, fun _ => rfl⟩ rfl [] []⟩

end PgRange
