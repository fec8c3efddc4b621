import LuaMachine.Proofs.Lexing.Scanning
/-! # Lines of tokens

Where every carriage return stands in front of a line feed, a token is in the line that the line
feeds in front of it make, whatever the blanks, comments and texts before it hold.

* `Lexer.Paired`: the texts with such line breaks.
* `Lexer.Covers`: from a text to what is left of it, with the line feeds in between counted.
* `Lexer.left`, `Lexer.start?`: where a token begins.
* `tokens_lines`: the line of each token.
-/
set_option autoImplicit false

namespace LuaMachine

/-- The token is written at the beginning of the text; a text begins with a quote or a bracket. -/
def Token.StandsAt (t : Token) (s : List Char) : Prop :=
  match t.kind with
  | .endOfText => s = []
  | .string => ∃ c r, s = c :: r ∧ (c = '"' ∨ c = '\'' ∨ c = '[')
  | _ => t.text.toList ≠ [] ∧ t.text.toList <+: s

namespace Lexer

/-! ## Where tokens begin -/

/-- What is left of a text behind its first `n` tokens, and the line there. -/
def left (text : List Char) : Nat → List Char × Nat
  | 0 => (skipDirective text, 1)
  | n + 1 =>
    let r := scan (left text n).1.length (left text n).1 (left text n).2
    (r.rest, r.line)

/-- The text from the first character of token `n` on, behind blanks and comments. -/
def start? (text : List Char) (n : Nat) : Option (List Char) :=
  match skip (left text n).1.length (left text n).1 (left text n).2 with
  | .ok (first, _) => some first
  | .error _ => none

/-! ## Counting line feeds -/

/-- A line feed stands behind every carriage return. -/
def Paired (s : List Char) : Prop := ∀ before r, s = before ++ '\r' :: r → ∃ r', r = '\n' :: r'

/-- What is left of the text, and the line there, behind some of its characters. -/
def Covers (s : List Char) (line : Nat) (rest : List Char) (last : Nat) : Prop :=
  ∃ used, s = used ++ rest ∧ last = line + used.count '\n'

variable {s r rest rest' body first : List Char} {line line' last level bound : Nat} {c quote : Char}
  {p : Piece}

namespace Covers

theorem refl (s : List Char) (line : Nat) : Covers s line s line := ⟨[], rfl, rfl⟩

theorem trans (h : Covers s line rest line') (h' : Covers rest line' rest' last) :
    Covers s line rest' last := by
  obtain ⟨used, rfl, rfl⟩ := h
  obtain ⟨used', rfl, rfl⟩ := h'
  exact ⟨used ++ used', (List.append_assoc ..).symm, by rw [List.count_append, Nat.add_assoc]⟩

theorem plain (hc : c ≠ '\n') (h : Covers r line rest last) : Covers (c :: r) line rest last := by
  obtain ⟨used, rfl, rfl⟩ := h
  exact ⟨c :: used, rfl, by rw [List.count_cons_of_ne hc]⟩

theorem feed (h : Covers r (line + 1) rest last) : Covers ('\n' :: r) line rest last := by
  obtain ⟨used, rfl, rfl⟩ := h
  refine ⟨'\n' :: used, rfl, ?_⟩
  rw [List.count_cons_self]
  omega

/-- Characters that are no line feeds. -/
theorem run {used : List Char} (hused : ∀ c ∈ used, c ≠ '\n') : Covers (used ++ rest) line rest line := by
  refine ⟨used, rfl, ?_⟩
  rw [List.count_eq_zero.mpr fun hmem => hused _ hmem rfl, Nat.add_zero]

theorem dropWhile {p : Char → Bool} (hp : p '\n' = false) (s : List Char) (line : Nat) :
    Covers s line (s.dropWhile p) line := by
  have hsplit : s.takeWhile p ++ s.dropWhile p = s := List.takeWhile_append_dropWhile
  have hrun : Covers (s.takeWhile p ++ s.dropWhile p) line (s.dropWhile p) line := by
    refine run fun c hc => ?_
    rintro rfl
    cases hp.symm.trans (List.mem_takeWhile_imp hc)
  rwa [hsplit] at hrun

theorem paired (h : Covers s line rest last) (hs : Paired s) : Paired rest := by
  obtain ⟨used, rfl, -⟩ := h
  rintro before r rfl
  exact hs (used ++ before) r (List.append_assoc ..).symm

end Covers

theorem paired_nil : Paired [] := fun before r h => by simp at h

theorem paired_cons : Paired (c :: r) ↔ (c = '\r' → ∃ r', r = '\n' :: r') ∧ Paired r := by
  constructor
  · intro h
    refine ⟨?_, fun before r' hr => h (c :: before) r' (congrArg (c :: ·) hr)⟩
    rintro rfl
    exact h [] r rfl
  · rintro ⟨hc, hr⟩ before r' h
    cases before with
    | nil =>
      obtain ⟨rfl, rfl⟩ := List.cons.inj h
      exact hc rfl
    | cons x before => exact hr before r' (List.cons.inj h).2

theorem Paired.pair (h : Paired ('\r' :: r)) : ∃ r', r = '\n' :: r' := h [] r rfl

/-! ## Blanks and comments -/

theorem skipBlanks_covers (s : List Char) (line : Nat) :
    Covers s line (skipBlanks s line).1 (skipBlanks s line).2 := by
  induction s generalizing line with
  | nil => exact .refl [] line
  | cons c r ih =>
    unfold skipBlanks
    split
    next hc =>
      subst hc
      exact (ih _).feed
    next hc =>
      split
      next => exact .plain hc (ih line)
      next => exact .refl _ line

theorem longOpening?_covers (h : longOpening? s = some (level, body)) (line : Nat) :
    Covers s line body line := by
  unfold longOpening? at h
  have hdrop : Covers s line (s.dropWhile fun c => c = '=') line := .dropWhile (by decide) s line
  split at h
  next r heq =>
    cases h
    rw [heq] at hdrop
    exact hdrop.trans (.plain (by decide) (.refl _ line))
  next => cases h

theorem longClosing?_covers (h : longClosing? level s = some rest) (line : Nat) :
    Covers s line rest line := by
  unfold longClosing? at h
  have hdrop : Covers s line (s.dropWhile fun c => c = '=') line := .dropWhile (by decide) s line
  split at h
  next =>
    split at h
    next r heq =>
      cases h
      rw [heq] at hdrop
      exact hdrop.trans (.plain (by decide) (.refl _ line))
    next => cases h
  next => cases h

theorem longContents_covers (h : longContents level s line = .ok p) : Covers s line p.rest p.line := by
  induction s generalizing line p with
  | nil => cases h
  | cons c r ih =>
    unfold longContents at h
    split at h
    next rest hrest =>
      cases h
      split at hrest
      next hc =>
        subst hc
        exact .plain (by decide) (longClosing?_covers hrest line)
      next => cases hrest
    next =>
      obtain ⟨q, hq, rfl⟩ := exists_of_map_eq_ok h
      have hcovers := ih hq
      split at hcovers
      next hc =>
        subst hc
        exact hcovers.feed
      next hc => exact .plain hc hcovers

/-- The line break behind the opening bracket is counted once, and so is each of the contents. -/
theorem longBracket_covers (hs : Paired s) (h : longBracket level s line = .ok p) :
    Covers s line p.rest p.line := by
  unfold longBracket at h
  split at h
  next r => exact .plain (by decide) (longContents_covers h).feed
  next r hnext =>
    obtain ⟨r', rfl⟩ := hs.pair
    exact absurd rfl (hnext r')
  next r =>
    exact .feed (.plain (by decide) (longContents_covers h))
  next r _ => exact (longContents_covers h).feed
  next => exact longContents_covers h

theorem skip_covers (hs : Paired s) (h : skip bound s line = .ok (rest, last)) :
    Covers s line rest last := by
  induction bound generalizing s line with
  | zero =>
    have hblanks := skipBlanks_covers s line
    rw [Except.ok.inj h] at hblanks
    exact hblanks
  | succ bound ih =>
    have hblanks := skipBlanks_covers s line
    unfold skip at h
    generalize skipBlanks s line = blanks at hblanks h
    obtain ⟨s', line'⟩ := blanks
    dsimp only at hblanks h
    refine hblanks.trans ?_
    have hs' := hblanks.paired hs
    split at h
    next r =>
      have hdashes : Covers ('-' :: '-' :: r) line' r line' :=
        .plain (by decide) (.plain (by decide) (.refl r line'))
      refine hdashes.trans ?_
      have hr := hdashes.paired hs'
      split at h
      next level body hlong =>
        split at hlong
        next r' =>
          have hopening : Covers ('[' :: r') line' body line' :=
            .plain (by decide) (longOpening?_covers hlong line')
          have hbody := hopening.paired hr
          split at h
          next p hp =>
            have hbracket := longBracket_covers hbody hp
            exact hopening.trans (hbracket.trans (ih (hbracket.paired hbody) h))
          next => cases h
        next => cases hlong
      next =>
        have hcomment : Covers r line' (r.dropWhile fun c => decide (c ≠ '\n')) line' :=
          .dropWhile (by decide) r line'
        exact hcomment.trans (ih (hcomment.paired hr) h)
    next =>
      cases h
      exact .refl _ _

/-! ## Texts in quotes -/

theorem isHexDigit_feed : Numeral.isHexDigit '\n' = false := by decide

theorem unicodeEscape_covers (h : unicodeEscape r line = .ok p) : Covers r line p.rest p.line := by
  unfold unicodeEscape at h
  split at h
  next r =>
    have hdrop : Covers r line (r.dropWhile Numeral.isHexDigit) line := .dropWhile isHexDigit_feed r line
    dsimp only at h
    split at h
    next => cases h
    next =>
      split at h
      next rest heq =>
        split at h
        next => cases h
        next =>
          cases h
          rw [heq] at hdrop
          exact .plain (by decide) (hdrop.trans (.plain (by decide) (.refl _ line)))
      next => cases h
  next => cases h

theorem ne_feed_of_isHexDigit (h : Numeral.isHexDigit c = true) : c ≠ '\n' := by
  rintro rfl
  cases isHexDigit_feed.symm.trans h

theorem hexEscape_covers (h : hexEscape r line = .ok p) : Covers r line p.rest p.line := by
  unfold hexEscape at h
  split at h
  next a b rest =>
    split at h
    next hdigits =>
      cases h
      obtain ⟨ha, hb⟩ := Bool.and_eq_true_iff.mp hdigits
      exact .plain (ne_feed_of_isHexDigit ha) (.plain (ne_feed_of_isHexDigit hb) (.refl _ line))
    next => cases h
  next => cases h

theorem decimalEscape_covers (h : decimalEscape s line = .ok p) : Covers s line p.rest p.line := by
  unfold decimalEscape at h
  dsimp only at h
  split at h
  next => cases h
  next =>
    cases h
    generalize hdigits : (s.take 3).takeWhile Char.isDigit = digits
    have hprefix : digits <+: s := hdigits ▸ (List.takeWhile_prefix _).trans (List.take_prefix 3 s)
    obtain ⟨r, rfl⟩ := hprefix
    rw [List.drop_left]
    refine .run fun c hc => ?_
    rintro rfl
    have hdigit : ('\n' : Char).isDigit = true := List.mem_takeWhile_imp (hdigits.symm ▸ hc)
    exact absurd hdigit (by decide)

theorem skipGap_covers (s : List Char) (line : Nat) :
    Covers s line (skipGap s line).1 (skipGap s line).2 := by
  induction s generalizing line with
  | nil => exact .refl [] line
  | cons c r ih =>
    unfold skipGap
    split
    next hc =>
      subst hc
      exact (ih _).feed
    next hc =>
      split
      next => exact .plain hc (ih line)
      next => exact .refl _ line

/-- What stands behind the backslash. -/
theorem escape_covers (hs : Paired (c :: r)) (h : escape c r line = .ok p) :
    Covers (c :: r) line p.rest p.line := by
  unfold escape at h
  split at h
  case h_11 =>
    cases h
    exact (Covers.refl r (line + 1)).feed
  case h_12 =>
    split at h
    next r' =>
      cases h
      exact .plain (by decide) (Covers.refl r' (line + 1)).feed
    next hnext =>
      obtain ⟨r', rfl⟩ := hs.pair
      exact absurd rfl (hnext r')
  case h_13 =>
    cases h
    exact .plain (by decide) (skipGap_covers r line)
  case h_14 => exact .plain (by decide) (hexEscape_covers h)
  case h_15 => exact .plain (by decide) (unicodeEscape_covers h)
  case h_16 =>
    split at h
    next => exact decimalEscape_covers h
    next => cases h
  all_goals
    cases h
    exact .plain (by decide) (.refl r line)

theorem quoted_covers (hquote : quote ≠ '\n') (hs : Paired s)
    (h : quoted quote bound s line = .ok p) : Covers s line p.rest p.line := by
  induction bound generalizing s line p with
  | zero => cases h
  | succ bound ih =>
    cases s with
    | nil => cases h
    | cons c r =>
      unfold quoted at h
      split at h
      next hc =>
        cases h
        exact .plain (hc ▸ hquote) (.refl r line)
      split at h
      next => cases h
      next hc =>
      split at h
      next hback =>
        subst hback
        split at h
        next => cases h
        next e r =>
          split at h
          next => cases h
          next p hp =>
            obtain ⟨q, hq, rfl⟩ := exists_of_map_eq_ok h
            have hback : Covers ('\\' :: e :: r) line (e :: r) line := .plain (by decide) (.refl _ line)
            have hescape := escape_covers (hback.paired hs) hp
            have hrest := ih (hescape.paired (hback.paired hs)) hq
            exact hback.trans (hescape.trans hrest)
      next =>
        obtain ⟨q, hq, rfl⟩ := exists_of_map_eq_ok h
        have hplain : Covers (c :: r) line r line := .plain hc (.refl r line)
        have hrest := ih (hplain.paired hs) hq
        exact hplain.trans hrest

/-! ## Numerals, words and symbols -/

theorem isWordChar_feed : isWordChar '\n' = false := by decide

theorem numeralRun_append (mark : Char → Bool) (afterMark : Bool) (s : List Char) :
    (numeralRun mark afterMark s).1 ++ (numeralRun mark afterMark s).2 = s := by
  induction s generalizing afterMark with
  | nil => rfl
  | cons c r ih =>
    unfold numeralRun
    split
    next => exact congrArg (c :: ·) (ih _)
    next => rfl

theorem ne_feed_of_mem_numeralRun {mark : Char → Bool} (hmark : mark '\n' = false) {afterMark : Bool}
    (h : c ∈ (numeralRun mark afterMark s).1) : c ≠ '\n' := by
  induction s generalizing afterMark with
  | nil => cases h
  | cons x r ih =>
    unfold numeralRun at h
    split at h
    next hx =>
      rcases List.mem_cons.mp h with rfl | h
      · rintro rfl
        simp [hmark, isHexDigit_feed] at hx
      · exact ih h
    next => cases h

/-- The characters of a numeral, none of which is a line feed. -/
theorem numeral_spec (c : Char) (hc : c ≠ '\n') (r : List Char) :
    (∃ text, (numeral c r).1 = c :: text) ∧ (numeral c r).1 ++ (numeral c r).2 = c :: r ∧
      ∀ x ∈ (numeral c r).1, x ≠ '\n' := by
  have hrun : ∀ (start : List Char) (mark : Char → Bool) (s : List Char), mark '\n' = false →
      (∀ x ∈ start, x ≠ '\n') →
      start ++ (numeralRun mark false s).1 ++ (numeralRun mark false s).2.takeWhile isWordChar ++
          (numeralRun mark false s).2.dropWhile isWordChar = start ++ s ∧
        ∀ x ∈ start ++ (numeralRun mark false s).1 ++
          (numeralRun mark false s).2.takeWhile isWordChar, x ≠ '\n' := by
    intro start mark s hmark hstart
    constructor
    · rw [List.append_assoc _ (List.takeWhile _ _), List.takeWhile_append_dropWhile,
        List.append_assoc, numeralRun_append]
    · intro x hx
      rcases List.mem_append.mp hx with hx | hx
      · rcases List.mem_append.mp hx with hx | hx
        · exact hstart x hx
        · exact ne_feed_of_mem_numeralRun hmark hx
      · rintro rfl
        cases isWordChar_feed.symm.trans (List.mem_takeWhile_imp hx)
  unfold numeral
  cases r with
  | nil =>
    exact ⟨⟨_, rfl⟩, hrun [c] _ [] rfl (by simpa using hc)⟩
  | cons x r =>
    dsimp only
    split
    next hx =>
      refine ⟨⟨_, rfl⟩, hrun [c, x] _ r rfl fun y hy => ?_⟩
      rcases List.mem_cons.mp hy with rfl | hy
      · exact hc
      · rw [List.mem_singleton.mp hy]
        rintro rfl
        simp at hx
    next => exact ⟨⟨_, rfl⟩, hrun [c] _ (x :: r) rfl (by simpa using hc)⟩

theorem symbol?_append {x : Symbol} (h : symbol? c r = some (x, rest)) :
    x.spelling.toList ++ rest = c :: r := by
  unfold symbol? at h
  split at h <;> cases h <;> rfl

theorem feed_notMem_spelling (x : Symbol) : '\n' ∉ x.spelling.toList := by
  cases x <;> decide

theorem spelling_ne_nil (x : Symbol) : x.spelling.toList ≠ [] := by
  cases x <;> decide

/-! ## Tokens -/

/-- The token is in the line and stands at the beginning of the text, and line feeds are counted up
to what is left behind it. -/
structure Scan.Counts (x : Scan) (s : List Char) (line : Nat) : Prop where
  line_eq : x.token.line = line
  stands : x.token.StandsAt s
  covers : Covers s line x.rest x.line

theorem word_counts (hc : isLetter c = true) (r : List Char) (line : Nat) :
    (word c r line).Counts (c :: r) line := by
  have hfeed : c ≠ '\n' := by
    rintro rfl
    exact absurd hc (by decide)
  refine ⟨rfl, ?_, .plain hfeed (.dropWhile isWordChar_feed r line)⟩
  have hprefix : (String.ofList (c :: r.takeWhile isWordChar)).toList ≠ [] ∧
      (String.ofList (c :: r.takeWhile isWordChar)).toList <+: c :: r := by
    rw [String.toList_ofList]
    exact ⟨List.cons_ne_nil _ _, List.cons_prefix_cons.mpr ⟨rfl, List.takeWhile_prefix _⟩⟩
  unfold word
  dsimp only
  split
  next => exact hprefix
  next => exact hprefix

theorem numeralToken_counts (hc : c ≠ '\n') (r : List Char) (line : Nat) :
    (numeralToken c r line).Counts (c :: r) line := by
  obtain ⟨⟨text, htext⟩, happend, hrun⟩ := numeral_spec c hc r
  refine ⟨rfl, ?_, ?_⟩
  · change (String.ofList (numeral c r).1).toList ≠ [] ∧ (String.ofList (numeral c r).1).toList <+: c :: r
    rw [String.toList_ofList]
    exact ⟨htext ▸ List.cons_ne_nil _ _, _, happend⟩
  · have hcovers : Covers ((numeral c r).1 ++ (numeral c r).2) line (numeral c r).2 line := .run hrun
    rw [happend] at hcovers
    exact hcovers

theorem symbolToken_counts (h : (symbolToken c r line).token.kind ≠ .error) :
    (symbolToken c r line).Counts (c :: r) line := by
  unfold symbolToken at h ⊢
  split
  next x rest hsymbol =>
    have happend := symbol?_append hsymbol
    refine ⟨rfl, ⟨spelling_ne_nil x, rest, happend⟩, ?_⟩
    rw [← happend]
    exact .run fun y hy hfeed => feed_notMem_spelling x (hfeed ▸ hy)
  next hsymbol =>
    rw [hsymbol] at h
    exact absurd rfl h

theorem quotedToken_counts (hc : c = '"' ∨ c = '\'') (hs : Paired (c :: r))
    (h : (quotedToken bound c r line).token.kind ≠ .error) :
    (quotedToken bound c r line).Counts (c :: r) line := by
  have hfeed : c ≠ '\n' := by rcases hc with rfl | rfl <;> decide
  have hquote : Covers (c :: r) line r line := .plain hfeed (.refl r line)
  unfold quotedToken at h ⊢
  split
  next p hp =>
    exact ⟨rfl, ⟨c, r, rfl, hc.imp_right .inl⟩,
      hquote.trans (quoted_covers hfeed (hquote.paired hs) hp)⟩
  next e he =>
    rw [he] at h
    exact absurd rfl h

theorem longToken_counts (hopening : longOpening? r = some (level, body)) (hs : Paired ('[' :: r))
    (h : (longToken level body line).token.kind ≠ .error) :
    (longToken level body line).Counts ('[' :: r) line := by
  have hopens : Covers ('[' :: r) line body line :=
    .plain (by decide) (longOpening?_covers hopening line)
  unfold longToken at h ⊢
  split
  next p hp =>
    exact ⟨rfl, ⟨'[', r, rfl, .inr (.inr rfl)⟩,
      hopens.trans (longBracket_covers (hopens.paired hs) hp)⟩
  next e he =>
    rw [he] at h
    exact absurd rfl h

theorem scanAt_counts (hs : Paired (c :: r)) (h : (scanAt bound c r line).token.kind ≠ .error) :
    (scanAt bound c r line).Counts (c :: r) line := by
  unfold scanAt at h ⊢
  split
  next hc => exact word_counts hc r line
  next hletter =>
  rw [if_neg hletter] at h
  split
  next hc =>
    refine numeralToken_counts ?_ r line
    rintro rfl
    exact absurd hc (by decide)
  next hdigit =>
  rw [if_neg hdigit] at h
  split
  next hc =>
    rw [if_pos hc] at h
    simp only [Bool.or_eq_true, decide_eq_true_eq] at hc
    exact quotedToken_counts hc hs h
  next hquote =>
  rw [if_neg hquote] at h
  split
  next hc =>
    rw [if_pos hc] at h
    subst hc
    split
    next level body hopening =>
      rw [hopening] at h
      exact longToken_counts hopening hs h
    next hopening =>
      rw [hopening] at h
      exact symbolToken_counts h
  next hbracket =>
  rw [if_neg hbracket] at h
  split
  next hc =>
    refine numeralToken_counts ?_ r line
    rintro rfl
    simp at hc
  next hdot =>
    rw [if_neg hdot] at h
    exact symbolToken_counts h

/-- A token begins where the blanks and comments end. -/
theorem scan_counts (hs : Paired s) (h : (scan s.length s line).token.kind ≠ .error) :
    ∃ first, skip s.length s line = .ok (first, (scan s.length s line).token.line) ∧
      Covers s line first (scan s.length s line).token.line ∧
      (scan s.length s line).token.StandsAt first ∧
      Covers s line (scan s.length s line).rest (scan s.length s line).line := by
  unfold scan at h ⊢
  split
  next hskip =>
    rw [hskip] at h
    exact absurd rfl h
  next hskip => exact ⟨[], hskip, skip_covers hs hskip, rfl, skip_covers hs hskip⟩
  next c r last hskip =>
    rw [hskip] at h
    have hcovers := skip_covers hs hskip
    obtain ⟨hline, hstands, hrest⟩ := scanAt_counts (hcovers.paired hs) h
    exact ⟨c :: r, by rw [hskip, hline], hline.symm ▸ hcovers, hstands, hcovers.trans hrest⟩

/-- A first line that is skipped ends in front of its line feed. -/
theorem skipDirective_covers (s : List Char) : Covers s 1 (skipDirective s) 1 := by
  unfold skipDirective
  split
  next r => exact .plain (by decide) (.plain (by decide) (.dropWhile (by decide) r 1))
  next => exact .refl s 1

/-- The induction is on the tokens, of which the first begins in what is left of the text. -/
theorem Scans.lines {text : List Char} {ts : List Token} (h : Scans s line ts) {n : Nat}
    (hleft : left text n = (s, line)) (hcovers : Covers text 1 s line) (hpaired : Paired text) {k : Nat}
    {t : Token} (ht : ts[k]? = some t) (herror : t.kind ≠ .error) :
    ∃ before first, start? text (n + k) = some first ∧ text = before ++ first ∧ t.StandsAt first ∧
      t.line = 1 + before.count '\n' := by
  have hstart : ∀ {s : List Char} {line n : Nat}, left text n = (s, line) → Covers text 1 s line →
      (scan s.length s line).token.kind ≠ .error →
      ∃ before first, start? text n = some first ∧ text = before ++ first ∧
        (scan s.length s line).token.StandsAt first ∧
        (scan s.length s line).token.line = 1 + before.count '\n' := by
    intro s line n hleft hcovers herror
    obtain ⟨first, hskip, hfirst, hstands, -⟩ := scan_counts (hcovers.paired hpaired) herror
    obtain ⟨before, htext, hline⟩ := hcovers.trans hfirst
    refine ⟨before, first, ?_, htext, hstands, hline⟩
    rw [start?, hleft, hskip]
  induction h generalizing n k with
  | last s line hlast =>
    cases k with
    | zero =>
      obtain rfl : (scan s.length s line).token = t := Option.some.inj ht
      exact hstart hleft hcovers herror
    | succ k => cases ht
  | next s line ts hnext _ ih =>
    cases k with
    | zero =>
      obtain rfl : (scan s.length s line).token = t := Option.some.inj ht
      exact hstart hleft hcovers herror
    | succ k =>
      have hkind : (scan s.length s line).token.kind ≠ .error := fun hkind => by
        simp [Token.isLast, hkind] at hnext
      obtain ⟨-, -, -, -, hrest⟩ := scan_counts (hcovers.paired hpaired) hkind
      have hstep : left text (n + 1) = ((scan s.length s line).rest, (scan s.length s line).line) := by
        rw [left, hleft]
      have hfound := ih hstep (hcovers.trans hrest) ht
      rwa [Nat.add_assoc, Nat.add_comm 1 k] at hfound

end Lexer

/-- Where a line feed stands behind every carriage return, the line of a token is one more than the
line feeds in front of its first character. -/
theorem tokens_lines (text : String) (h : Lexer.Paired text.toList) (n : Nat) (t : Token)
    (ht : (tokens text)[n]? = some t) (herror : t.kind ≠ .error) :
    ∃ before first, Lexer.start? text.toList n = some first ∧ text.toList = before ++ first ∧
      t.StandsAt first ∧ t.line = 1 + before.count '\n' := by
  have hleft : Lexer.left text.toList 0 = (Lexer.skipDirective text.toList, 1) := rfl
  have hlines := (scans_tokens text).lines hleft (Lexer.skipDirective_covers text.toList) h ht herror
  rwa [Nat.zero_add] at hlines

/-- A comment and texts with line breaks of both kinds, behind a first line that is skipped. -/
theorem tokens_lines_broken :
    Lexer.Paired "#!\r\n--[=[\n]]\r\n]=]'a\\z\r\n'[[\n]]x".toList ∧
      (tokens "#!\r\n--[=[\n]]\r\n]=]'a\\z\r\n'[[\n]]x")[2]? = some ⟨.identifier, "x", 6⟩ ∧
      ∃ before first,
        Lexer.start? "#!\r\n--[=[\n]]\r\n]=]'a\\z\r\n'[[\n]]x".toList 2 = some first ∧
        "#!\r\n--[=[\n]]\r\n]=]'a\\z\r\n'[[\n]]x".toList = before ++ first ∧
        Token.StandsAt ⟨.identifier, "x", 6⟩ first ∧ 6 = 1 + before.count '\n' := by
  have hpaired : Lexer.Paired "#!\r\n--[=[\n]]\r\n]=]'a\\z\r\n'[[\n]]x".toList := by
    simp [Lexer.paired_cons, Lexer.paired_nil]
  have htoken : (tokens "#!\r\n--[=[\n]]\r\n]=]'a\\z\r\n'[[\n]]x")[2]? =
      some ⟨.identifier, "x", 6⟩ := by decide +kernel
  exact ⟨hpaired, htoken, tokens_lines _ hpaired 2 _ htoken (by decide)⟩

end LuaMachine
