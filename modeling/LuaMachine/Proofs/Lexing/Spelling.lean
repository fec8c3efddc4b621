import LuaMachine.Proofs.Lexing.Scanning
import LuaMachine.Proofs.Printing.Words
import Mathlib.Data.List.Forall2
/-! # Spellings

How the words of a program are written in a text: most words in one way, numerals as digits, and a
text in quotes, with escapes, or in long brackets. Words that are written with blanks between them
are scanned again one by one.

* `Lexer.Escaped`: the contents of a text as they stand between quotes.
* `Word.Written`: the ways to write a word.
* `Lexer.scan_written`: a written word is scanned up to the blank behind it.
* `tokens_written`: the words of a text are those that it is written with, and any text is scanned
  up to its end or an error.
-/
set_option autoImplicit false

namespace LuaMachine

namespace Lexer

/-- The contents of a text as they stand between quotes: backslashes, line breaks and the quote
itself are escaped, and the other quote may be. -/
inductive Escaped (quote : Char) : List Char → List Char → Prop where
  | nil : Escaped quote [] []
  | plain (c : Char) (contents text : List Char) (hquote : c ≠ quote) (hbackslash : c ≠ '\\')
    (hbreak : c ≠ '\n') (h : Escaped quote contents text) : Escaped quote (c :: contents) (c :: text)
  | backslash (contents text : List Char) (h : Escaped quote contents text) :
    Escaped quote ('\\' :: contents) ('\\' :: '\\' :: text)
  | quote (c : Char) (contents text : List Char) (hc : c = '"' ∨ c = '\'')
    (h : Escaped quote contents text) : Escaped quote (c :: contents) ('\\' :: c :: text)
  | newline (contents text : List Char) (h : Escaped quote contents text) :
    Escaped quote ('\n' :: contents) ('\\' :: 'n' :: text)
  | lineBreak (contents text : List Char) (h : Escaped quote contents text) :
    Escaped quote ('\n' :: contents) ('\\' :: '\n' :: text)

/-- What closes a long bracket of a level. -/
def closer (level : Nat) : List Char := ']' :: List.replicate level '=' ++ [']']

/-- The contents can stand in long brackets of a level: they begin with no line break, and the
closing bracket behind them is the first one of its level. -/
structure Bracketable (level : Nat) (contents : List Char) : Prop where
  start : contents.head? ≠ some '\n' ∧ contents.head? ≠ some '\r'
  first : ∀ before after, contents ++ closer level = before ++ closer level ++ after → before = contents

end Lexer

open Lexer

/-- The ways to write a word. -/
inductive Word.Written : Word → List Char → Prop where
  | symbol (s : Symbol) : Written (.symbol s) s.spelling.toList
  | keyword (k : Keyword) : Written (.keyword k) k.spelling.toList
  | name (c : Char) (r : List Char) (hc : isLetter c = true) (hr : ∀ x ∈ r, isWordChar x = true)
    (hkeyword : ∀ k : Keyword, k.spelling ≠ String.ofList (c :: r)) :
    Written (.name (String.ofList (c :: r))) (c :: r)
  | decimal (digits : List Char) (hne : digits ≠ []) (h : ∀ c ∈ digits, c.isDigit = true) :
    Written (.numeral (String.ofList digits)) digits
  | hexadecimal (mark : Char) (digits : List Char) (hmark : mark = 'x' ∨ mark = 'X')
    (h : ∀ c ∈ digits, Numeral.isHexDigit c = true) :
    Written (.numeral (String.ofList ('0' :: mark :: digits))) ('0' :: mark :: digits)
  | quoted (quote : Char) (contents text : List Char) (hquote : quote = '"' ∨ quote = '\'')
    (h : Escaped quote contents text) :
    Written (.text (String.ofList contents)) (quote :: text ++ [quote])
  | bracketed (level : Nat) (contents : List Char) (h : Bracketable level contents) :
    Written (.text (String.ofList contents))
      ('[' :: List.replicate level '=' ++ '[' :: contents ++ closer level)

namespace Lexer

/-- What may follow a word: the end of the text, or a blank. -/
def Ends (rest : List Char) : Prop := rest = [] ∨ ∃ r, rest = ' ' :: r

/-- A run of characters of a class ends before one that is not in it. -/
theorem takeWhile_run {p : Char → Bool} {run rest : List Char} (hrun : ∀ c ∈ run, p c = true)
    (hstop : ∀ c ∈ rest.head?, p c = false) :
    (run ++ rest).takeWhile p = run ∧ (run ++ rest).dropWhile p = rest := by
  rw [List.takeWhile_append_of_pos hrun, List.dropWhile_append_of_pos hrun]
  cases rest with
  | nil => exact ⟨List.append_nil run, rfl⟩
  | cons c rest =>
    have hc : ¬ p c = true := by simp [hstop c rfl]
    rw [List.takeWhile_cons_of_neg hc, List.dropWhile_cons_of_neg hc]
    exact ⟨List.append_nil run, rfl⟩

section Ends

variable {rest : List Char} (hrest : Ends rest)
include hrest

theorem takeWhile_ends {p : Char → Bool} (hblank : p ' ' = false) (run : List Char)
    (hrun : ∀ c ∈ run, p c = true) :
    (run ++ rest).takeWhile p = run ∧ (run ++ rest).dropWhile p = rest := by
  apply takeWhile_run hrun
  rcases hrest with rfl | ⟨r, rfl⟩
  · exact fun c hc => by cases hc
  · exact fun c hc => by cases hc; exact hblank

theorem numeralRun_ends (mark : Char → Bool) (hblank : mark ' ' = false) {digits : List Char}
    (hdigits : ∀ c ∈ digits, Numeral.isHexDigit c = true) (afterMark : Bool) :
    numeralRun mark afterMark (digits ++ rest) = (digits, rest) := by
  induction digits generalizing afterMark with
  | nil =>
    rcases hrest with rfl | ⟨r, rfl⟩
    · rfl
    · simp [numeralRun, hblank, Numeral.isHexDigit, Char.isDigit]
  | cons c digits ih =>
    rw [List.cons_append, numeralRun, if_pos (by simp [hdigits c List.mem_cons_self]),
      ih fun x hx => hdigits x (List.mem_cons_of_mem c hx)]

end Ends

/-! ## Long brackets -/

theorem equals_run (level : Nat) {c : Char} (hc : c ≠ '=') (rest : List Char) :
    (List.replicate level '=' ++ c :: rest).takeWhile (fun d => decide (d = '=')) =
        List.replicate level '=' ∧
      (List.replicate level '=' ++ c :: rest).dropWhile (fun d => decide (d = '=')) = c :: rest :=
  takeWhile_run (by simp) fun d hd => by
    cases hd
    exact decide_eq_false hc

theorem longOpening?_equals (level : Nat) (body : List Char) :
    longOpening? (List.replicate level '=' ++ '[' :: body) = some (level, body) := by
  obtain ⟨htake, hdrop⟩ := equals_run level (c := '[') (by decide) body
  unfold longOpening?
  simp only [htake, hdrop, List.length_replicate]

/-- A long bracket is closed just where its closing bracket stands. -/
theorem longClosing?_eq_some_iff {level : Nat} {s rest : List Char} :
    longClosing? level s = some rest ↔ s = List.replicate level '=' ++ ']' :: rest := by
  constructor
  · intro h
    unfold longClosing? at h
    split at h
    next hlevel =>
      have hequals : s.takeWhile (fun c => decide (c = '=')) = List.replicate level '=' :=
        List.eq_replicate_iff.mpr ⟨hlevel, fun c hc => by
          have hequals := List.mem_takeWhile_imp hc
          exact of_decide_eq_true hequals⟩
      split at h
      next r heq =>
        cases h
        rw [← heq, ← hequals, List.takeWhile_append_dropWhile]
      next => cases h
    next => cases h
  · rintro rfl
    obtain ⟨htake, hdrop⟩ := equals_run level (c := ']') (by decide) rest
    unfold longClosing?
    simp only [htake, hdrop, List.length_replicate, if_pos]

theorem longContents_closer {level : Nat} {contents : List Char}
    (hfirst : ∀ before after, contents ++ closer level = before ++ closer level ++ after → before = contents)
    (rest : List Char) (line : Nat) :
    ∃ last, longContents level (contents ++ closer level ++ rest) line = .ok ⟨contents, rest, last⟩ := by
  induction contents generalizing line with
  | nil =>
    refine ⟨line, ?_⟩
    have hclose := longClosing?_eq_some_iff.mpr (rfl : List.replicate level '=' ++ ']' :: rest = _)
    simp only [closer, List.nil_append, List.cons_append, List.append_assoc, longContents, if_pos]
    rw [hclose]
  | cons c contents ih =>
    have hnone : (if c = ']' then longClosing? level (contents ++ closer level ++ rest) else none) = none := by
      split
      next hc =>
        cases hclosing : longClosing? level (contents ++ closer level ++ rest) with
        | none => rfl
        | some r =>
          -- the bracket would be closed before its contents end
          have heq : c :: contents ++ closer level ++ rest = closer level ++ r := by
            rw [List.cons_append, List.cons_append, longClosing?_eq_some_iff.mp hclosing, hc]
            simp [closer]
          have hwhole : closer level <+: c :: contents ++ closer level ++ rest := ⟨r, heq.symm⟩
          obtain ⟨after, hafter⟩ : closer level <+: c :: contents ++ closer level :=
            List.prefix_of_prefix_length_le hwhole (List.prefix_append _ _)
              (by rw [List.length_append]; omega)
          cases hfirst [] after hafter.symm
      next => rfl
    obtain ⟨last, hlast⟩ := ih (fun before after h => by
      have hcons := hfirst (c :: before) after (by rw [List.cons_append, h]; rfl)
      exact (List.cons.inj hcons).2) (if c = '\n' then line + 1 else line)
    refine ⟨last, ?_⟩
    rw [List.cons_append, List.cons_append, longContents, hnone]
    dsimp only
    rw [hlast]
    rfl

theorem longBracket_closer {level : Nat} {contents : List Char} (h : Bracketable level contents)
    (rest : List Char) (line : Nat) :
    ∃ last, longBracket level (contents ++ closer level ++ rest) line = .ok ⟨contents, rest, last⟩ := by
  have hstart : longBracket level (contents ++ closer level ++ rest) line =
      longContents level (contents ++ closer level ++ rest) line := by
    have hhead : ∀ c r, contents ++ closer level ++ rest = c :: r → c ≠ '\n' ∧ c ≠ '\r' := by
      intro c r heq
      cases contents with
      | nil =>
        cases heq
        decide
      | cons d contents =>
        cases heq
        exact ⟨fun hc => h.start.1 (by rw [hc]; rfl), fun hc => h.start.2 (by rw [hc]; rfl)⟩
    unfold longBracket
    split
    next heq => exact absurd rfl (hhead _ _ heq).2
    next heq => exact absurd rfl (hhead _ _ heq).2
    next heq => exact absurd rfl (hhead _ _ heq).1
    next heq => exact absurd rfl (hhead _ _ heq).1
    next => rfl
  rw [hstart]
  exact longContents_closer h.first rest line

/-! ## Texts in quotes -/

theorem quoted_plain {quote c : Char} {bound line last : Nat} {contents r rest : List Char}
    (hquote : c ≠ quote) (hbackslash : c ≠ '\\') (hbreak : c ≠ '\n')
    (h : quoted quote bound r line = .ok ⟨contents, rest, last⟩) :
    quoted quote (bound + 1) (c :: r) line = .ok ⟨c :: contents, rest, last⟩ := by
  unfold quoted
  rw [if_neg hquote, if_neg hbreak, if_neg hbackslash, h]
  rfl

/-- An escape for one character. -/
theorem quoted_escape {quote e c : Char} {bound line next last : Nat} {contents r rest : List Char}
    (hquote : quote = '"' ∨ quote = '\'') (hescape : escape e r line = .ok ⟨[c], r, next⟩)
    (h : quoted quote bound r next = .ok ⟨contents, rest, last⟩) :
    quoted quote (bound + 1) ('\\' :: e :: r) line = .ok ⟨c :: contents, rest, last⟩ := by
  have hnormal : '\\' ≠ quote := by
    rcases hquote with rfl | rfl <;> decide
  rw [quoted, if_neg hnormal, if_neg (by decide), if_pos rfl]
  simp only [hescape, h]
  rfl

theorem quoted_escaped {quote : Char} {contents text : List Char} (hquote : quote = '"' ∨ quote = '\'')
    (h : Escaped quote contents text) (rest : List Char) {bound : Nat} (hbound : text.length < bound)
    (line : Nat) : ∃ last, quoted quote bound (text ++ quote :: rest) line = .ok ⟨contents, rest, last⟩ := by
  induction h generalizing bound line with
  | nil =>
    obtain ⟨bound, rfl⟩ := Nat.exists_eq_add_one_of_ne_zero (Nat.ne_zero_of_lt hbound)
    exact ⟨line, by simp [quoted]⟩
  | plain c contents text hc hbackslash hbreak _ ih =>
    obtain ⟨bound, rfl⟩ := Nat.exists_eq_add_one_of_ne_zero (Nat.ne_zero_of_lt hbound)
    obtain ⟨last, hlast⟩ := ih (Nat.lt_of_succ_lt_succ hbound) line
    exact ⟨last, quoted_plain hc hbackslash hbreak hlast⟩
  | backslash contents text _ ih =>
    obtain ⟨bound, rfl⟩ := Nat.exists_eq_add_one_of_ne_zero (Nat.ne_zero_of_lt hbound)
    obtain ⟨last, hlast⟩ := ih (Nat.lt_of_succ_lt (Nat.lt_of_succ_lt_succ hbound)) line
    exact ⟨last, quoted_escape hquote rfl hlast⟩
  | quote c contents text hc _ ih =>
    obtain ⟨bound, rfl⟩ := Nat.exists_eq_add_one_of_ne_zero (Nat.ne_zero_of_lt hbound)
    obtain ⟨last, hlast⟩ := ih (Nat.lt_of_succ_lt (Nat.lt_of_succ_lt_succ hbound)) line
    refine ⟨last, quoted_escape hquote ?_ hlast⟩
    rcases hc with rfl | rfl <;> rfl
  | newline contents text _ ih =>
    obtain ⟨bound, rfl⟩ := Nat.exists_eq_add_one_of_ne_zero (Nat.ne_zero_of_lt hbound)
    obtain ⟨last, hlast⟩ := ih (Nat.lt_of_succ_lt (Nat.lt_of_succ_lt_succ hbound)) line
    exact ⟨last, quoted_escape hquote rfl hlast⟩
  | lineBreak contents text _ ih =>
    obtain ⟨bound, rfl⟩ := Nat.exists_eq_add_one_of_ne_zero (Nat.ne_zero_of_lt hbound)
    obtain ⟨last, hlast⟩ := ih (Nat.lt_of_succ_lt (Nat.lt_of_succ_lt_succ hbound)) (line + 1)
    exact ⟨last, quoted_escape hquote rfl hlast⟩

/-! ## Words -/

theorem skip_word {bound : Nat} {c : Char} {r : List Char} {line : Nat} (hblank : Numeral.isBlank c = false)
    (hdash : ¬ (c = '-' ∧ r.head? = some '-')) : skip bound (c :: r) line = .ok (c :: r, line) := by
  have hbreak : c ≠ '\n' := by
    rintro rfl
    cases hblank
  have hblanks : skipBlanks (c :: r) line = (c :: r, line) := by
    rw [skipBlanks, if_neg hbreak, if_neg (by simp [hblank])]
  cases bound with
  | zero => rw [skip, hblanks]
  | succ bound =>
    rw [skip, hblanks]
    dsimp only
    split
    next heq =>
      cases heq
      exact absurd ⟨rfl, rfl⟩ hdash
    next => rfl

/-- A character that begins no blank and no comment begins a token. -/
theorem scan_word {bound : Nat} {c : Char} {r : List Char} {line : Nat} (hblank : Numeral.isBlank c = false)
    (hdash : ¬ (c = '-' ∧ r.head? = some '-')) : scan bound (c :: r) line = scanAt bound c r line := by
  rw [scan, skip_word hblank hdash]

/-- A symbol is the longest one where it stands, and begins no comment. -/
theorem scan_symbol (s : Symbol) {rest : List Char} (hrest : Ends rest) (bound line : Nat) :
    scan bound (s.spelling.toList ++ rest) line = ⟨⟨.symbol s, s.spelling, line⟩, rest, line⟩ := by
  cases bound <;> rcases hrest with rfl | ⟨r, rfl⟩ <;> cases s <;> rfl

theorem isBlank_of_isWordChar {c : Char} (h : isWordChar c = true) : Numeral.isBlank c = false := by
  apply Bool.eq_false_iff.mpr
  intro hblank
  simp only [Numeral.isBlank, Bool.or_eq_true, decide_eq_true_iff] at hblank
  rcases hblank with ((((rfl | rfl) | rfl) | rfl) | rfl) | rfl <;> cases h

/-- A letter begins a word, which is a name if it is no keyword. -/
theorem scan_letter {c : Char} (hc : isLetter c = true) {r rest : List Char}
    (hr : ∀ x ∈ r, isWordChar x = true) (hrest : Ends rest) (bound line : Nat) :
    scan bound (c :: r ++ rest) line =
      ⟨⟨(Keyword.ofSpelling? (String.ofList (c :: r))).elim .identifier .keyword,
        String.ofList (c :: r), line⟩, rest, line⟩ := by
  obtain ⟨htake, hdrop⟩ := takeWhile_ends hrest (p := isWordChar) (by decide) r hr
  have hblank := isBlank_of_isWordChar (c := c) (by simp [isWordChar, hc])
  have hdash : c ≠ '-' := by
    rintro rfl
    cases hc
  rw [List.cons_append, scan_word hblank (fun h => hdash h.1), scanAt, if_pos hc, word, htake, hdrop]
  cases Keyword.ofSpelling? (String.ofList (c :: r)) <;> rfl

theorem keyword_letters (k : Keyword) :
    ∃ c r, k.spelling.toList = c :: r ∧ isLetter c = true ∧ r.all isWordChar = true := by
  cases k <;> exact ⟨_, _, rfl, rfl, rfl⟩

theorem ofSpelling?_spelling (k : Keyword) : Keyword.ofSpelling? k.spelling = some k := by
  cases k <;> rfl

theorem ofSpelling?_eq_none {s : String} (h : ∀ k : Keyword, k.spelling ≠ s) :
    Keyword.ofSpelling? s = none := by
  apply List.find?_eq_none.mpr
  intro k _
  rw [beq_iff_eq]
  exact h k

theorem not_isLetter_of_isDigit {c : Char} (h : c.isDigit = true) : isLetter c = false := by
  have hdigit : c.toNat ≤ 57 := (Char.isDigit_iff_toNat.mp h).2
  -- letters come after the digits
  have hletter : ∀ first : UInt32, 57 < first.toNat → ¬ c.val ≥ first := fun first hfirst hge =>
    Nat.not_le.mpr hfirst (Nat.le_trans (UInt32.le_iff_toNat_le.mp hge) hdigit)
  have hupper : c.isUpper = false := decide_eq_false fun hc => hletter 'A'.val (by decide) hc.1
  have hlower : c.isLower = false :=
    Bool.and_eq_false_iff.mpr (.inl (decide_eq_false (hletter 'a'.val (by decide))))
  have hunderscore : c ≠ '_' := by
    rintro rfl
    cases h
  have halpha : c.isAlpha = (c.isUpper || c.isLower) := rfl
  rw [isLetter, halpha, hupper, hlower, decide_eq_false hunderscore]
  rfl

theorem scan_digits {c : Char} (hc : c.isDigit = true) {r text rest : List Char}
    (h : numeral c r = (text, rest)) (bound line : Nat) :
    scan bound (c :: r) line = ⟨⟨.number, String.ofList text, line⟩, rest, line⟩ := by
  have hword : isWordChar c = true := by simp [isWordChar, hc]
  have hdash : c ≠ '-' := by
    rintro rfl
    cases hc
  rw [scan_word (isBlank_of_isWordChar hword) (fun h => hdash h.1), scanAt, not_isLetter_of_isDigit hc,
    if_neg Bool.false_ne_true, if_pos hc, numeralToken, h]

/-- A numeral whose second character is no mark of a base. -/
theorem numeral_unmarked (c : Char) {r : List Char} (h : ∀ x ∈ r.head?, x ≠ 'x' ∧ x ≠ 'X') :
    numeral c r =
      (c :: (numeralRun (fun m => m = 'e' || m = 'E') false r).1 ++
          (numeralRun (fun m => m = 'e' || m = 'E') false r).2.takeWhile isWordChar,
        (numeralRun (fun m => m = 'e' || m = 'E') false r).2.dropWhile isWordChar) := by
  cases r with
  | nil => rfl
  | cons x r =>
    obtain ⟨hlower, hupper⟩ := h x rfl
    have hmark : ¬ (decide (c = '0') && (decide (x = 'x') || decide (x = 'X'))) = true := by
      simp [hlower, hupper]
    unfold numeral
    dsimp only
    rw [if_neg hmark]
    rfl

theorem numeral_decimal (c : Char) {digits rest : List Char} (hdigits : ∀ x ∈ digits, x.isDigit = true)
    (hrest : Ends rest) : numeral c (digits ++ rest) = (c :: digits, rest) := by
  have hhead : ∀ x ∈ (digits ++ rest).head?, x ≠ 'x' ∧ x ≠ 'X' := by
    cases digits with
    | nil =>
      rcases hrest with rfl | ⟨r, rfl⟩
      · exact fun x hx => by cases hx
      · exact fun x hx => by cases hx; decide
    | cons d digits =>
      intro x hx
      cases hx
      have hd := hdigits d List.mem_cons_self
      constructor <;> rintro rfl <;> cases hd
  have hhex : ∀ x ∈ digits, Numeral.isHexDigit x = true := fun x hx => by
    simp [Numeral.isHexDigit, hdigits x hx]
  have hrun := numeralRun_ends hrest (fun m => m = 'e' || m = 'E') (by decide) hhex false
  obtain ⟨htake, hdrop⟩ := takeWhile_ends hrest (p := isWordChar) (by decide) [] (by simp)
  rw [List.nil_append] at htake hdrop
  rw [numeral_unmarked c hhead, hrun, htake, hdrop, List.append_nil]

theorem numeral_hexadecimal {mark : Char} (hmark : mark = 'x' ∨ mark = 'X') {digits rest : List Char}
    (hdigits : ∀ x ∈ digits, Numeral.isHexDigit x = true) (hrest : Ends rest) :
    numeral '0' (mark :: digits ++ rest) = ('0' :: mark :: digits, rest) := by
  have hrun := numeralRun_ends hrest (fun m => m = 'p' || m = 'P') (by decide) hdigits false
  obtain ⟨htake, hdrop⟩ := takeWhile_ends hrest (p := isWordChar) (by decide) [] (by simp)
  rw [List.nil_append] at htake hdrop
  rw [List.cons_append, numeral]
  rcases hmark with rfl | rfl <;> simp [hrun, htake, hdrop]

/-- A written word is scanned up to the blank behind it. -/
theorem scan_written {w : Word} {text : List Char} (h : w.Written text) {rest : List Char}
    (hrest : Ends rest) {bound : Nat} (hbound : (text ++ rest).length ≤ bound) (line : Nat) :
    ∃ last, scan bound (text ++ rest) line = ⟨w.token line, rest, last⟩ := by
  cases h with
  | symbol s => exact ⟨line, scan_symbol s hrest bound line⟩
  | keyword k =>
    obtain ⟨c, r, hk, hc, hr⟩ := keyword_letters k
    refine ⟨line, ?_⟩
    rw [hk, scan_letter hc (List.all_eq_true.mp hr) hrest, ← hk, String.ofList_toList, ofSpelling?_spelling]
    rfl
  | name c r hc hr hkeyword =>
    refine ⟨line, ?_⟩
    rw [scan_letter hc hr hrest, ofSpelling?_eq_none hkeyword]
    rfl
  | decimal digits hne hdigits =>
    obtain ⟨c, r, rfl⟩ := List.exists_cons_of_ne_nil hne
    have hr : ∀ x ∈ r, x.isDigit = true := fun x hx => hdigits x (List.mem_cons_of_mem c hx)
    exact ⟨line, scan_digits (hdigits c List.mem_cons_self) (numeral_decimal c hr hrest) bound line⟩
  | hexadecimal mark digits hmark hdigits =>
    exact ⟨line, scan_digits (by decide) (numeral_hexadecimal hmark hdigits hrest) bound line⟩
  | quoted quote contents text hquote h =>
    rw [List.length_append, List.length_append, List.length_cons, List.length_singleton] at hbound
    obtain ⟨last, hlast⟩ := quoted_escaped hquote h rest (show text.length < bound by omega) line
    refine ⟨last, ?_⟩
    have hscan : scan bound (quote :: (text ++ quote :: rest)) line =
        quotedToken bound quote (text ++ quote :: rest) line := by
      rcases hquote with rfl | rfl <;> exact scan_word (by decide) (by simp)
    rw [List.cons_append, List.cons_append, List.append_assoc, List.singleton_append, hscan, quotedToken,
      hlast]
    rfl
  | bracketed level contents h =>
    obtain ⟨last, hlast⟩ := longBracket_closer h rest line
    refine ⟨last, ?_⟩
    have hscan : scan bound ('[' :: (List.replicate level '=' ++ '[' :: (contents ++ closer level ++ rest))) line =
        longToken level (contents ++ closer level ++ rest) line := by
      rw [scan_word (by decide) (by simp), scanAt, if_neg (by decide), if_neg (by decide),
        if_neg (by decide), if_pos rfl, longOpening?_equals]
    have htext : '[' :: List.replicate level '=' ++ '[' :: contents ++ closer level ++ rest =
        '[' :: (List.replicate level '=' ++ '[' :: (contents ++ closer level ++ rest)) := by
      simp only [List.cons_append, List.append_assoc]
    rw [htext, hscan, longToken, hlast]
    rfl

/-! ## Texts -/

/-- A blank before a token is skipped. -/
theorem Scans.blank {s : List Char} {line : Nat} {ts : List Token} (h : Scans s line ts) :
    Scans (' ' :: s) line ts := by
  have hskip : skip (s.length + 1) (' ' :: s) line = skip (s.length + 1) s line := rfl
  have hscan : scan (' ' :: s).length (' ' :: s) line = scan s.length s line := by
    rw [← scan_eq (Nat.le_succ s.length) line, List.length_cons, scan, hskip]
    rfl
  cases h with
  | last _ _ hlast =>
    rw [← hscan] at hlast ⊢
    exact .last _ line hlast
  | next _ _ ts hlast hrest =>
    rw [← hscan] at hlast hrest ⊢
    exact .next _ line ts hlast hrest

theorem scans_nil (line : Nat) : Scans [] line [⟨.endOfText, "", line⟩] := .last [] line rfl

theorem Scans.unique {s : List Char} {line : Nat} {ts ts' : List Token} (h : Scans s line ts)
    (h' : Scans s line ts') : ts = ts' := by
  induction h generalizing ts' with
  | last s line hlast =>
    cases h' with
    | last => rfl
    | next _ _ _ hnext =>
      rw [hlast] at hnext
      cases hnext
  | next s line ts hnext _ ih =>
    cases h' with
    | last _ _ hlast =>
      rw [hnext] at hlast
      cases hlast
    | next _ _ _ _ hrest => rw [ih hrest]

/-- Behind the first of several texts stands the end, or a blank with the others. -/
theorem intercalate_cons (text : List Char) (texts : List (List Char)) :
    ∃ rest, [' '].intercalate (text :: texts) = text ++ rest ∧ Ends rest ∧
      (texts = [] ∧ rest = [] ∨ rest = ' ' :: [' '].intercalate texts) := by
  cases texts with
  | nil => exact ⟨[], by simp, .inl rfl, .inl ⟨rfl, rfl⟩⟩
  | cons text' texts =>
    refine ⟨_, ?_, .inr ⟨_, rfl⟩, .inr rfl⟩
    rw [List.intercalate_cons_cons, List.append_assoc, List.singleton_append]

section Texts

variable {words : List Word} {texts : List (List Char)} (h : List.Forall₂ Word.Written words texts)
include h

theorem scans_written (line : Nat) :
    ∃ ts, Scans ([' '].intercalate texts) line ts ∧
      ts.map (fun t => (t.kind, t.text)) =
        words.map (fun w => (w.kind, w.spelling)) ++ [(.endOfText, "")] := by
  induction h generalizing line with
  | nil => exact ⟨_, scans_nil line, rfl⟩
  | @cons w text words texts hw _ ih =>
    obtain ⟨rest, htext, hends, hrest⟩ := intercalate_cons text texts
    obtain ⟨last, hscan⟩ := scan_written hw hends (Nat.le_refl _) line
    obtain ⟨ts, hothers, hts⟩ := ih last
    have hscans : Scans rest last ts := by
      rcases hrest with ⟨rfl, rfl⟩ | rfl
      · exact hothers
      · exact hothers.blank
    have hlast : (w.token line).isLast = false := by
      cases w <;> rfl
    have hnext := Scans.next (text ++ rest) line ts (by rw [hscan]; exact hlast)
      (by rw [hscan]; exact hscans)
    rw [hscan] at hnext
    refine ⟨w.token line :: ts, htext ▸ hnext, ?_⟩
    rw [List.map_cons, hts]
    rfl

/-- No word begins like a first line that is skipped. -/
theorem skipDirective_written : skipDirective ([' '].intercalate texts) = [' '].intercalate texts := by
  cases h with
  | nil => rfl
  | @cons w text words texts hw _ =>
    obtain ⟨rest, htext, hends, -⟩ := intercalate_cons text texts
    unfold skipDirective
    split
    next r heq =>
      -- behind the symbol that is scanned there, a blank would stand
      obtain ⟨last, hscan⟩ := scan_written hw hends (Nat.le_refl _) 1
      have hhash : scan (text ++ rest).length ('#' :: '!' :: r) 1 =
          ⟨⟨.symbol .hash, "#", 1⟩, '!' :: r, 1⟩ := scan_word (by decide) (by simp)
      rw [← htext, heq] at hscan
      rw [← htext, heq, hscan] at hhash
      cases (Scan.mk.inj hhash).2.1
      rcases hends with hnil | ⟨r, hblank⟩
      · cases hnil
      · cases hblank
    next => rfl

end Texts

theorem skipDirective_length (s : List Char) : (skipDirective s).length ≤ s.length := by
  unfold skipDirective
  split
  next r =>
    have hlength := List.length_dropWhile_le (fun c : Char => decide (c ≠ '\n')) r
    rw [List.length_cons, List.length_cons]
    omega
  next => exact Nat.le_refl _

end Lexer

/-- Words that are written with blanks between them are the tokens of the text, and the tokens of any
text are scanned up to its end or the first error, no more than one more than it has characters. -/
theorem tokens_written :
    (∀ (words : List Word) (texts : List (List Char)), List.Forall₂ Word.Written words texts →
      (tokens (String.ofList ([' '].intercalate texts))).map (fun t => (t.kind, t.text)) =
        words.map (fun w => (w.kind, w.spelling)) ++ [(.endOfText, "")]) ∧
    ∀ text : String, Scans (skipDirective text.toList) 1 (tokens text) ∧
      (tokens text).length ≤ text.length + 1 := by
  constructor
  · intro words texts h
    obtain ⟨ts, hscans, hts⟩ := scans_written h 1
    have htokens := scans_tokens (String.ofList ([' '].intercalate texts))
    rw [String.toList_ofList, skipDirective_written h] at htokens
    rw [htokens.unique hscans, hts]
  · intro text
    have hscans := scans_tokens text
    have hlength := skipDirective_length text.toList
    rw [String.length_toList] at hlength
    exact ⟨hscans, Nat.le_trans hscans.length_le (Nat.succ_le_succ hlength)⟩

/-- A text in long brackets that holds half of a closing bracket, and a text in quotes. -/
theorem tokens_written_texts :
    List.Forall₂ Word.Written
        [.keyword .kwReturn, .text (String.ofList ['a', ']', 'b']), .symbol .dotDot,
          .text (String.ofList ['"', '\n'])]
        ["return".toList, "[[a]b]]".toList, "..".toList, "'\"\\n'".toList] ∧
      (tokens "return [[a]b]] .. '\"\\n'").map (fun t => (t.kind, t.text)) =
        [(.keyword .kwReturn, "return"), (.string, "a]b"), (.symbol .dotDot, ".."), (.string, "\"\n"),
          (.endOfText, "")] := by
  have hbracketable : Bracketable 0 ['a', ']', 'b'] := by
    refine ⟨by decide, fun before after h => ?_⟩
    have hlength := congrArg List.length h
    rcases before with _ | ⟨a, _ | ⟨b, _ | ⟨c, _ | ⟨d, before⟩⟩⟩⟩
    · simp [closer] at h
    · simp [closer] at h
    · simp [closer] at h
    · cases h
      rfl
    · simp [closer] at hlength
      omega
  have hwritten : List.Forall₂ Word.Written
      [.keyword .kwReturn, .text (String.ofList ['a', ']', 'b']), .symbol .dotDot,
        .text (String.ofList ['"', '\n'])]
      ["return".toList, "[[a]b]]".toList, "..".toList, "'\"\\n'".toList] :=
    .cons (.keyword .kwReturn) (.cons (.bracketed 0 _ hbracketable) (.cons (.symbol .dotDot)
      (.cons (.quoted '\'' _ ['"', '\\', 'n'] (.inr rfl) (.plain _ _ _ (by decide) (by decide) (by decide)
        (.newline _ _ .nil))) .nil)))
  exact ⟨hwritten, tokens_written.1 _ _ hwritten⟩

end LuaMachine
