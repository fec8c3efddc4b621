import LuaMachine.Token.Lexer
import Mathlib.Data.List.TakeWhile
/-! # Scanning a text

What is left after a token is shorter than the text before it, so that a text of `n` characters has
no more than `n + 1` tokens, with the end of the text or the error that comes last. The bounds that
the scanner takes are no limits: a text is scanned in the same way with any bound that is not less
than its length.

* `Lexer.Scans`: the tokens of a text, each scanned where the one before it ends.
* `Lexer.scan_rest`: a token takes a character at least.
* `scans_tokens`: the tokens of a text are scanned up to its end or the first error.
-/
set_option autoImplicit false

namespace LuaMachine
namespace Lexer

/-- One token after the other, up to the end of the text or an error. -/
inductive Scans : List Char → Nat → List Token → Prop where
  | last (s : List Char) (line : Nat) (h : (scan s.length s line).token.isLast = true) :
    Scans s line [(scan s.length s line).token]
  | next (s : List Char) (line : Nat) (ts : List Token)
    (h : (scan s.length s line).token.isLast = false)
    (hrest : Scans (scan s.length s line).rest (scan s.length s line).line ts) :
    Scans s line ((scan s.length s line).token :: ts)

/-! ## Blanks and comments -/

theorem skipBlanks_length (s : List Char) (line : Nat) : (skipBlanks s line).1.length ≤ s.length := by
  induction s generalizing line with
  | nil => exact Nat.le_refl _
  | cons c r ih =>
    unfold skipBlanks
    split
    next => exact Nat.le_succ_of_le (ih _)
    next =>
      split
      next => exact Nat.le_succ_of_le (ih _)
      next => exact Nat.le_refl _

theorem longOpening?_length {s body : List Char} {level : Nat} (h : longOpening? s = some (level, body)) :
    body.length < s.length := by
  unfold longOpening? at h
  have hdrop := List.length_dropWhile_le (fun c : Char => decide (c = '=')) s
  split at h
  next r heq =>
    cases h
    rw [heq] at hdrop
    exact hdrop
  next => cases h

theorem longClosing?_length {s rest : List Char} {level : Nat} (h : longClosing? level s = some rest) :
    rest.length < s.length := by
  unfold longClosing? at h
  have hdrop := List.length_dropWhile_le (fun c : Char => decide (c = '=')) s
  split at h
  next =>
    split at h
    next r heq =>
      cases h
      rw [heq] at hdrop
      exact hdrop
    next => cases h
  next => cases h

theorem exists_of_map_eq_ok {ε α β : Type} {f : α → β} {x : Except ε α} {b : β} (h : x.map f = .ok b) :
    ∃ a, x = .ok a ∧ f a = b := by
  cases x with
  | error => cases h
  | ok a => exact ⟨a, rfl, Except.ok.inj h⟩

theorem longContents_length {level : Nat} {s : List Char} {line : Nat} {p : Piece}
    (h : longContents level s line = .ok p) : p.rest.length ≤ s.length := by
  induction s generalizing line p with
  | nil => cases h
  | cons c r ih =>
    unfold longContents at h
    split at h
    next rest hrest =>
      cases h
      split at hrest
      next => exact Nat.le_succ_of_le (Nat.le_of_lt (longClosing?_length hrest))
      next => cases hrest
    next =>
      obtain ⟨q, hq, rfl⟩ := exists_of_map_eq_ok h
      have hlength := ih hq
      exact Nat.le_succ_of_le hlength

/-- The contents begin behind a line break that is no part of them. -/
theorem longBracket_eq (level : Nat) (s : List Char) (line : Nat) :
    ∃ skipped body first, s = skipped ++ body ∧ longBracket level s line = longContents level body first := by
  unfold longBracket
  split
  next r => exact ⟨['\r', '\n'], r, line + 1, rfl, rfl⟩
  next r _ => exact ⟨['\r'], r, line + 1, rfl, rfl⟩
  next r => exact ⟨['\n', '\r'], r, line + 1, rfl, rfl⟩
  next r _ => exact ⟨['\n'], r, line + 1, rfl, rfl⟩
  next => exact ⟨[], s, line, rfl, rfl⟩

theorem longBracket_length {level : Nat} {s : List Char} {line : Nat} {p : Piece}
    (h : longBracket level s line = .ok p) : p.rest.length ≤ s.length := by
  obtain ⟨skipped, body, first, rfl, heq⟩ := longBracket_eq level s line
  have hlength := longContents_length (heq ▸ h)
  rw [List.length_append]
  omega

/-- What opens a long comment, behind the two dashes. -/
theorem commentOpening_length {r body : List Char} {level : Nat}
    (h : (match r with
      | '[' :: r' => longOpening? r'
      | _ => none) = some (level, body)) : body.length < r.length := by
  split at h
  next => exact Nat.lt_succ_of_lt (longOpening?_length h)
  next => cases h

/-- Any two bounds that are not less than the length skip the same blanks and comments. -/
theorem skip_eq {first second : Nat} {s : List Char} (hfirst : s.length ≤ first)
    (hsecond : s.length ≤ second) (line : Nat) : skip first s line = skip second s line := by
  induction first generalizing second s line with
  | zero =>
    cases List.length_eq_zero_iff.mp (Nat.le_zero.mp hfirst)
    cases second <;> rfl
  | succ first ih =>
    cases second with
    | zero =>
      cases List.length_eq_zero_iff.mp (Nat.le_zero.mp hsecond)
      rfl
    | succ second =>
      have hblanks := skipBlanks_length s line
      unfold skip
      generalize skipBlanks s line = left at hblanks
      obtain ⟨left, line⟩ := left
      dsimp only at hblanks ⊢
      split
      next r =>
        rw [List.length_cons, List.length_cons] at hblanks
        split
        next level body hlong =>
          have hopening := commentOpening_length hlong
          split
          next p hp =>
            have hlength := longBracket_length hp
            exact ih (by omega) (by omega) p.line
          next => rfl
        next =>
          have hlength := List.length_dropWhile_le (fun c : Char => decide (c ≠ '\n')) r
          exact ih (by omega) (by omega) line
      next => rfl

theorem skip_length {bound : Nat} {s rest : List Char} {line last : Nat}
    (h : skip bound s line = .ok (rest, last)) : rest.length ≤ s.length := by
  induction bound generalizing s line with
  | zero =>
    have hblanks := skipBlanks_length s line
    rw [Except.ok.inj h] at hblanks
    exact hblanks
  | succ bound ih =>
    have hblanks := skipBlanks_length s line
    unfold skip at h
    generalize skipBlanks s line = left at hblanks h
    obtain ⟨left, line⟩ := left
    dsimp only at hblanks h
    split at h
    next r =>
      rw [List.length_cons, List.length_cons] at hblanks
      split at h
      next level body hlong =>
        have hopening := commentOpening_length hlong
        split at h
        next p hp =>
          have hlength := longBracket_length hp
          have hrest := ih h
          omega
        next => cases h
      next =>
        have hlength := List.length_dropWhile_le (fun c : Char => decide (c ≠ '\n')) r
        have hrest := ih h
        omega
    next =>
      cases h
      exact hblanks

/-! ## Texts in quotes -/

theorem unicodeEscape_length {r : List Char} {line : Nat} {p : Piece}
    (h : unicodeEscape r line = .ok p) : p.rest.length ≤ r.length := by
  unfold unicodeEscape at h
  split at h
  next r =>
    have hdrop := List.length_dropWhile_le Numeral.isHexDigit r
    dsimp only at h
    split at h
    next => cases h
    next =>
      split at h
      next rest heq =>
        split at h
        next => cases h
        next =>
          cases h
          rw [heq, List.length_cons] at hdrop
          rw [List.length_cons]
          dsimp only
          omega
      next => cases h
  next => cases h

theorem hexEscape_length {r : List Char} {line : Nat} {p : Piece} (h : hexEscape r line = .ok p) :
    p.rest.length ≤ r.length := by
  unfold hexEscape at h
  split at h
  next a b rest =>
    split at h
    next =>
      cases h
      exact Nat.le_succ_of_le (Nat.le_succ _)
    next => cases h
  next => cases h

theorem decimalEscape_length {c : Char} {r : List Char} {line : Nat} {p : Piece} (hc : c.isDigit = true)
    (h : decimalEscape (c :: r) line = .ok p) : p.rest.length ≤ r.length := by
  unfold decimalEscape at h
  dsimp only at h
  split at h
  next => cases h
  next =>
    cases h
    rw [List.take_succ_cons, List.takeWhile_cons_of_pos hc, List.length_cons, List.drop_succ_cons,
      List.length_drop]
    exact Nat.sub_le _ _

theorem skipGap_length (s : List Char) (line : Nat) : (skipGap s line).1.length ≤ s.length := by
  induction s generalizing line with
  | nil => exact Nat.le_refl _
  | cons c r ih =>
    unfold skipGap
    split
    next => exact Nat.le_succ_of_le (ih _)
    next =>
      split
      next => exact Nat.le_succ_of_le (ih _)
      next => exact Nat.le_refl _

theorem escape_length {c : Char} {r : List Char} {line : Nat} {p : Piece}
    (h : escape c r line = .ok p) : p.rest.length ≤ r.length := by
  unfold escape at h
  split at h
  case h_12 =>
    split at h <;> cases h
    · exact Nat.le_succ _
    · exact Nat.le_refl _
  case h_13 =>
    cases h
    exact skipGap_length r line
  case h_14 => exact hexEscape_length h
  case h_15 => exact unicodeEscape_length h
  case h_16 =>
    split at h
    next hc => exact decimalEscape_length hc h
    next => cases h
  all_goals
    cases h
    exact Nat.le_refl _

theorem quoted_length {quote : Char} {bound : Nat} {s : List Char} {line : Nat} {p : Piece}
    (h : quoted quote bound s line = .ok p) : p.rest.length ≤ s.length := by
  induction bound generalizing s line p with
  | zero => cases h
  | succ bound ih =>
    cases s with
    | nil => cases h
    | cons c r =>
      unfold quoted at h
      split at h
      next =>
        cases h
        exact Nat.le_succ _
      split at h
      next => cases h
      split at h
      next =>
        split at h
        next => cases h
        next e r =>
          split at h
          next => cases h
          next p hp =>
            obtain ⟨q, hq, rfl⟩ := exists_of_map_eq_ok h
            have hescape := escape_length hp
            have hlength := ih hq
            rw [List.length_cons, List.length_cons]
            dsimp only
            omega
      next =>
        obtain ⟨q, hq, rfl⟩ := exists_of_map_eq_ok h
        have hlength := ih hq
        exact Nat.le_succ_of_le hlength

/-- Any two bounds that are not less than the length read the same text in quotes. -/
theorem quoted_eq {quote : Char} {first second : Nat} {s : List Char} (hfirst : s.length ≤ first)
    (hsecond : s.length ≤ second) (line : Nat) :
    quoted quote first s line = quoted quote second s line := by
  induction first generalizing second s line with
  | zero =>
    cases List.length_eq_zero_iff.mp (Nat.le_zero.mp hfirst)
    cases second <;> rfl
  | succ first ih =>
    cases second with
    | zero =>
      cases List.length_eq_zero_iff.mp (Nat.le_zero.mp hsecond)
      rfl
    | succ second =>
      cases s with
      | nil => rfl
      | cons c r =>
        rw [List.length_cons] at hfirst hsecond
        unfold quoted
        cases r with
        | nil => rw [ih (by simp) (by simp) line]
        | cons e r =>
          rw [List.length_cons] at hfirst hsecond
          rw [ih (by simpa using hfirst) (by simpa using hsecond) line]
          split
          next => rfl
          split
          next => rfl
          split
          next =>
            dsimp only
            cases hp : escape e r line with
            | error => rfl
            | ok p =>
              have hescape := escape_length hp
              have hrest : quoted quote first p.rest p.line = quoted quote second p.rest p.line :=
                ih (by omega) (by omega) p.line
              dsimp only
              rw [hrest]
          next => rfl

/-! ## Numerals, words and symbols -/

theorem numeralRun_length (mark : Char → Bool) (afterMark : Bool) (s : List Char) :
    (numeralRun mark afterMark s).2.length ≤ s.length := by
  induction s generalizing afterMark with
  | nil => exact Nat.le_refl _
  | cons c r ih =>
    unfold numeralRun
    split
    next => exact Nat.le_succ_of_le (ih _)
    next => exact Nat.le_refl _

theorem numeral_length (c : Char) (r : List Char) : (numeral c r).2.length ≤ r.length := by
  have hrest : ∀ (mark : Char → Bool) (s : List Char),
      ((numeralRun mark false s).2.dropWhile isWordChar).length ≤ s.length := fun mark s =>
    Nat.le_trans (List.length_dropWhile_le _ _) (numeralRun_length mark false s)
  unfold numeral
  cases r with
  | nil => exact hrest (fun m => m = 'e' || m = 'E') []
  | cons x r =>
    dsimp only
    split
    next => exact Nat.le_succ_of_le (hrest _ r)
    next => exact hrest _ (x :: r)

theorem symbol?_length {c : Char} {r rest : List Char} {s : Symbol} (h : symbol? c r = some (s, rest)) :
    rest.length ≤ r.length := by
  unfold symbol? at h
  split at h <;> cases h <;>
    simp only [List.length_cons, Nat.add_assoc, Nat.le_add_right, Nat.le_refl]

/-! ## Tokens -/

theorem symbolToken_length (c : Char) (r : List Char) (line : Nat) :
    (symbolToken c r line).rest.length ≤ r.length := by
  unfold symbolToken
  split
  next h => exact symbol?_length h
  next => exact Nat.zero_le _

theorem scanAt_length (bound : Nat) (c : Char) (r : List Char) (line : Nat) :
    (scanAt bound c r line).rest.length ≤ r.length := by
  unfold scanAt
  split
  next => exact List.length_dropWhile_le _ _
  split
  next => exact numeral_length c r
  split
  next =>
    unfold quotedToken
    split
    next h => exact quoted_length h
    next => exact Nat.zero_le _
  split
  next =>
    split
    next level body h =>
      unfold longToken
      split
      next hbody => exact Nat.le_trans (longBracket_length hbody) (Nat.le_of_lt (longOpening?_length h))
      next => exact Nat.zero_le _
    next => exact symbolToken_length c r line
  split
  next => exact numeral_length c r
  next => exact symbolToken_length c r line

theorem scanAt_eq {first second : Nat} {r : List Char} (hfirst : r.length ≤ first)
    (hsecond : r.length ≤ second) (c : Char) (line : Nat) :
    scanAt first c r line = scanAt second c r line := by
  unfold scanAt quotedToken
  rw [quoted_eq hfirst hsecond]

theorem scan_eq {bound : Nat} {s : List Char} (h : s.length ≤ bound) (line : Nat) :
    scan bound s line = scan s.length s line := by
  unfold scan
  rw [skip_eq h (Nat.le_refl _) line]
  split
  next => rfl
  next => rfl
  next hskip =>
    have hlength := skip_length hskip
    rw [List.length_cons] at hlength
    exact scanAt_eq (by omega) (by omega) _ _

/-- A token takes a character at least. -/
theorem scan_rest {bound : Nat} {s : List Char} {line : Nat}
    (h : (scan bound s line).token.isLast = false) : (scan bound s line).rest.length < s.length := by
  unfold scan at h ⊢
  split at h
  next => cases h
  next => cases h
  next c r last hskip =>
    have hlength := skip_length hskip
    rw [List.length_cons] at hlength
    exact Nat.lt_of_le_of_lt (scanAt_length bound c r last) hlength

theorem Scans.length_le {s : List Char} {line : Nat} {ts : List Token} (h : Scans s line ts) :
    ts.length ≤ s.length + 1 := by
  induction h with
  | last s line h => exact Nat.le_add_left 1 _
  | next s line ts h _ ih =>
    have hrest := scan_rest h
    rw [List.length_cons]
    omega

/-- The tokens of a text come behind those found before. -/
theorem scans_scanAll {bound : Nat} {s : List Char} (hbound : s.length ≤ bound) (seen : List Token)
    (line : Nat) : ∃ ts, scanAll seen bound s line = seen.reverse ++ ts ∧ Scans s line ts := by
  induction bound generalizing s seen line with
  | zero =>
    cases List.length_eq_zero_iff.mp (Nat.le_zero.mp hbound)
    exact ⟨[⟨.endOfText, "", line⟩], by simp [scanAll, scan, skip, skipBlanks, Token.isLast], .last [] line rfl⟩
  | succ bound ih =>
    rw [scanAll, scan_eq hbound]
    cases hlast : (scan s.length s line).token.isLast with
    | true => exact ⟨_, List.reverse_cons, .last s line hlast⟩
    | false =>
      have hrest := scan_rest hlast
      obtain ⟨ts, hts, hscans⟩ := ih (s := (scan s.length s line).rest) (by omega)
        ((scan s.length s line).token :: seen) (scan s.length s line).line
      refine ⟨_ :: ts, ?_, .next s line ts hlast hscans⟩
      rw [if_neg Bool.false_ne_true, hts, List.reverse_cons, List.append_assoc, List.singleton_append]

end Lexer

/-- The tokens of a text are scanned up to its end or the first error. -/
theorem scans_tokens (text : String) : Lexer.Scans (Lexer.skipDirective text.toList) 1 (tokens text) := by
  obtain ⟨ts, hts, hscans⟩ := Lexer.scans_scanAll (Nat.le_refl (Lexer.skipDirective text.toList).length) [] 1
  rw [List.reverse_nil, List.nil_append] at hts
  rw [tokens, hts]
  exact hscans

end LuaMachine
