import LuaMachine.Proofs.Printing.Taking
/-! # Reading operands

An expression is read at each level that it binds tightly enough for. A row of operators of one
level, and a row of suffixes, is read from the left, so for these it is said what is left to read
behind a part of the row.

* `Parser.Room`: the calls that may nest are enough for the words ahead.
* `Parser.Stops`: a token that no expression of a level goes on with.
* `Parser.Readable`: an expression is read wherever the grammar lets it stand.
-/
set_option autoImplicit false

namespace LuaMachine
namespace Parser

/-! ## Room for calls -/

/-- The number of calls is enough for the words, and for some more calls before the first one. -/
def Room (spare fuel : Nat) (ws : List Word) : Prop := callsPerToken * ws.length + spare ≤ fuel

namespace Room

variable {spare spare' fuel : Nat} {w : Word} {ws front : List Word}

theorem call (h : Room (spare + 1) fuel ws) : ∃ f, fuel = f + 1 ∧ Room spare f ws := by
  unfold Room at h ⊢
  exact ⟨fuel - 1, by omega, by omega⟩

theorem le (h : Room spare fuel ws) (hspare : spare' ≤ spare) : Room spare' fuel ws := by
  unfold Room at h ⊢
  omega

theorem drop (h : Room spare fuel (front ++ ws)) : Room spare fuel ws := by
  simp only [Room, List.length_append, callsPerToken] at h ⊢
  omega

/-- Behind a word there is room for as many calls as a word allows. -/
theorem tail (h : Room spare fuel (w :: ws)) : Room 32 fuel ws := by
  simp only [Room, List.length_cons, callsPerToken] at h ⊢
  omega

end Room

/-! ## Where expressions end and begin -/

/-- A suffix begins with this. -/
def opensSuffix : TokenKind → Bool
  | .string => true
  | .symbol .leftParen | .symbol .leftBrace | .symbol .leftBracket => true
  | .symbol .colon | .symbol .dot => true
  | _ => false

/-- No expression that is read at the level goes on with this. -/
def Stops (level : Nat) (k : TokenKind) : Prop :=
  opensSuffix k = false ∧ k ≠ .symbol .caret ∧ ∀ l < levels, level ≤ l → binaryOp? l k = none

instance (level : Nat) (k : TokenKind) : Decidable (Stops level k) :=
  inferInstanceAs (Decidable (_ ∧ _ ∧ _))

theorem Stops.mono {level level' : Nat} {k : TokenKind} (h : Stops level k) (hle : level ≤ level') :
    Stops level' k :=
  ⟨h.1, h.2.1, fun l hl hlevel => h.2.2 l hl (Nat.le_trans hle hlevel)⟩

theorem stops_symbol {s : Symbol} {ws : List Word} (h : Stops 0 (.symbol s)) :
    Stops 0 (nextKind (.symbol s :: ws)) := h

theorem stops_keyword {k : Keyword} {ws : List Word} (h : Stops 0 (.keyword k)) :
    Stops 0 (nextKind (.keyword k :: ws)) := h

theorem binaryOp?_binary (op : BinaryOp) (h : op ≠ .pow) :
    binaryOp? op.level (Word.binary op).kind = some op := by
  cases op <;> first | rfl | exact absurd rfl h

/-- The left operand of an operator ends where the operator stands. -/
theorem stops_binary (op : BinaryOp) (h : op ≠ .pow) :
    Stops (op.level + 1) (Word.binary op).kind := by
  cases op <;> first | decide | exact absurd rfl h

theorem unaryOp?_unary (op : UnaryOp) : unaryOp? (Word.unary op).kind = some op := by
  cases op <;> rfl

/-- An expression begins with this. -/
def starts : TokenKind → Bool
  | .identifier | .string | .number => true
  | .symbol .leftParen | .symbol .leftBrace | .symbol .dotDotDot => true
  | .symbol .minus | .symbol .tilde | .symbol .hash => true
  | .keyword .kwNil | .keyword .kwTrue | .keyword .kwFalse => true
  | .keyword .kwFunction | .keyword .kwNot => true
  | _ => false

/-- An expression of the rank begins with this. -/
structure Starts (rank : Nat) (k : TokenKind) : Prop where
  starts : starts k = true
  simple : Rank.unary < rank → unaryOp? k = none
  suffixed : Rank.suffixed ≤ rank → k = .identifier ∨ k = .symbol .leftParen

theorem Starts.mono {rank rank' : Nat} {k : TokenKind} (h : Starts rank k) (hle : rank' ≤ rank) :
    Starts rank' k where
  starts := h.starts
  simple hrank := h.simple (by omega)
  suffixed hrank := h.suffixed (by omega)

theorem starts_simple {k : TokenKind} (h : starts k = true) (hk : unaryOp? k = none) :
    Starts Rank.simple k :=
  ⟨h, fun _ => hk, fun hrank => absurd hrank (by decide)⟩

/-- How the words of an expression begin: a name in front is not followed by an equals sign, so it
is not taken for a key. -/
structure Opens (rank : Nat) (w : Word) (ws : List Word) : Prop where
  starts : Starts rank w.kind
  noKey : w.kind = .identifier → ∀ v ∈ ws.head?, v.kind ≠ .symbol .equal

theorem Opens.append {rank rank' : Nat} {w v : Word} {ws vs : List Word} (h : Opens rank w ws)
    (hle : rank' ≤ rank) (hv : v.kind ≠ .symbol .equal) : Opens rank' w (ws ++ v :: vs) where
  starts := h.starts.mono hle
  noKey hw := by
    cases ws with
    | nil => simpa using hv
    | cons u us => simpa using h.noKey hw

section Openings

variable {style : Style}

/-- The words of an expression, which begin as an expression of its rank does. -/
def Opening (style : Style) (e : Expr) : Prop :=
  ∃ w ws, style.expr e = w :: ws ∧ Opens e.rank w ws

theorem Opening.front {e whole : Expr} {v : Word} {vs : List Word} (h : Opening style e)
    (hle : whole.rank ≤ e.rank) (hwords : style.expr whole = style.expr e ++ v :: vs)
    (hv : v.kind ≠ .symbol .equal) : Opening style whole := by
  obtain ⟨w, ws, hws, hopens⟩ := h
  exact ⟨w, ws ++ v :: vs, by rw [hwords, hws, List.cons_append], hopens.append hle hv⟩

theorem Opening.single {e : Expr} {w : Word} {ws : List Word} (hwords : style.expr e = w :: ws)
    (hstarts : Starts e.rank w.kind) (hw : w.kind ≠ .identifier) : Opening style e :=
  ⟨w, ws, hwords, hstarts, fun h => absurd h hw⟩

/-- The arguments of a call begin with this. -/
def OpensArguments (k : TokenKind) : Prop :=
  k = .symbol .leftParen ∨ k = .string ∨ k = .symbol .leftBrace

theorem arguments_words (style : Style) (args : List Expr) :
    ∃ v vs, style.arguments args = v :: vs ∧ OpensArguments v.kind := by
  unfold Style.arguments
  by_cases h : style.isBare args = true
  · rw [if_pos h]
    unfold Style.isBare at h
    split at h
    · exact ⟨_, _, rfl, .inr (.inl rfl)⟩
    · exact ⟨_, _, rfl, .inr (.inr rfl)⟩
    · cases h
  · rw [if_neg h]
    exact ⟨_, _, rfl, .inl rfl⟩

theorem OpensArguments.ne_equal {k : TokenKind} (h : OpensArguments k) : k ≠ .symbol .equal := by
  rcases h with rfl | rfl | rfl <;> decide

theorem leftRank_ge (op : BinaryOp) : op.level ≤ op.leftRank := by
  cases op <;> decide

theorem opening (variadic : Bool) : (e : Expr) → Grammar.expr style variadic e → Opening style e
  | .literal value _, _ => by
    have hstarts : Starts Rank.simple (style.literal value).kind ∧
        (style.literal value).kind ≠ .identifier := by
      cases value with
      | nil => exact ⟨starts_simple rfl rfl, by simp [Style.literal, Word.kind]⟩
      | bool b => cases b <;> exact ⟨starts_simple rfl rfl, by simp [Style.literal, Word.kind]⟩
      | number n => exact ⟨starts_simple rfl rfl, by simp [Style.literal, Word.kind]⟩
    exact .single rfl hstarts.1 hstarts.2
  | .str _ _, _ => .single rfl (starts_simple rfl rfl) (by simp [Word.kind])
  | .unary op e _, _ =>
    .single rfl
      ⟨by cases op <;> rfl, fun hrank => absurd hrank (Nat.lt_irrefl _),
        fun hrank => absurd hrank (by simp [Expr.rank, Rank.unary, Rank.suffixed])⟩
      (by cases op <;> decide)
  | .binary op l r _, h => by
    obtain ⟨hleft, -, hl, -⟩ := h
    exact (opening variadic l hl).front (Nat.le_trans (leftRank_ge op) hleft) rfl
      (by cases op <;> decide)
  | .name n _, _ => ⟨.name n, [], rfl, ⟨rfl, fun _ => rfl, fun _ => .inl rfl⟩, by simp⟩
  | .vararg _, _ => .single rfl (starts_simple rfl rfl) (by decide)
  | .paren e _, _ => .single rfl ⟨rfl, fun _ => rfl, fun _ => .inr rfl⟩ (by decide)
  | .call f args _, h => by
    obtain ⟨hrank, hf, -⟩ := h
    obtain ⟨v, vs, hwords, hv⟩ := arguments_words style args
    exact (opening variadic f hf).front (Nat.le_of_eq hrank.symm)
      (congrArg (style.expr f ++ ·) hwords) hv.ne_equal
  | .method e _ args _, h => by
    obtain ⟨hrank, he, -⟩ := h
    exact (opening variadic e he).front (Nat.le_of_eq hrank.symm) rfl (by decide)
  | .table fs _, _ => .single rfl (starts_simple rfl rfl) (by decide)
  | .index e k _, h => by
    obtain ⟨hrank, he, -⟩ := h
    have hfront := Nat.le_of_eq hrank.symm
    cases hkey : style.key? k with
    | none => exact (opening variadic e he).front hfront (by rw [Style.expr, hkey]; rfl) (by decide)
    | some name => exact (opening variadic e he).front hfront (by rw [Style.expr, hkey]) (by decide)
  | .function f, _ => .single rfl (starts_simple rfl rfl) (by decide)

end Openings

/-! ## How expressions are read -/

/-- The expression again, but for its lines and with its binders numbered from `n` on. -/
abbrev SameExpr (n : Nat) (e e' : Expr) : Prop :=
  Unlined.expr e' = Unlined.expr (Numbering.expr n e).1

abbrev SameField (n : Nat) (f f' : Field) : Prop :=
  Unlined.field f' = Unlined.field (Numbering.field n f).1

section Forms

variable (style : Style) (variadic : Bool)

def ReadsBinary (level : Nat) (e : Expr) : Prop :=
  ∀ fuel depth n ws, Room (20 - level) fuel (style.expr e ++ ws) → Stops level (nextKind ws) →
    Takes ⟨style.expr e ++ ws, n⟩ (binary fuel level depth variadic)
      (depth + Nesting.expr style e) (SameExpr n e) ⟨ws, (Numbering.expr n e).2⟩

/-- The operators of the level up to the end of the expression are read, and the loop goes on with
what is behind it. -/
def ReadsChain (level : Nat) (e : Expr) : Prop :=
  ∀ fuel depth n ws peak Q q, Room (20 - level) fuel (style.expr e ++ ws) →
    Stops (level + 1) (nextKind ws) →
    (∀ fuel' e', Room 1 fuel' ws → SameExpr n e e' →
      Takes ⟨ws, (Numbering.expr n e).2⟩
        (binaryRest fuel' level (depth + e.chain level) variadic e') peak Q q) →
    Takes ⟨style.expr e ++ ws, n⟩ (binary fuel level depth variadic)
      (max (depth + Nesting.expr style e) peak) Q q

def ReadsUnary (e : Expr) : Prop :=
  ∀ fuel depth n ws, Room 9 fuel (style.expr e ++ ws) → Stops levels (nextKind ws) →
    Takes ⟨style.expr e ++ ws, n⟩ (unary fuel depth variadic) (depth + Nesting.expr style e)
      (SameExpr n e) ⟨ws, (Numbering.expr n e).2⟩

/-- The operand has entered its level. -/
def ReadsSimple (e : Expr) : Prop :=
  ∀ fuel depth n ws, depth + 1 ≤ maxLevels → Room 8 fuel (style.expr e ++ ws) →
    opensSuffix (nextKind ws) = false →
    Takes ⟨style.expr e ++ ws, n⟩ (simple fuel (depth + 1) variadic)
      (depth + Nesting.expr style e) (SameExpr n e) ⟨ws, (Numbering.expr n e).2⟩

/-- The suffixes up to the end of the expression are read, and the loop goes on with what is behind
it. -/
def ReadsSuffixed (e : Expr) : Prop :=
  ∀ fuel depth n ws peak Q q, depth + 1 ≤ maxLevels → Room 7 fuel (style.expr e ++ ws) →
    (∀ fuel' e', Room 9 fuel' ws → SameExpr n e e' →
      Takes ⟨ws, (Numbering.expr n e).2⟩
        (suffixes fuel' (depth + 1 + e.links) variadic e') peak Q q) →
    Takes ⟨style.expr e ++ ws, n⟩ (suffixed fuel (depth + 1) variadic)
      (max (depth + Nesting.expr style e) peak) Q q

/-- The entry is read where a comma or the end of the table comes next. -/
structure ReadsField (f : Field) : Prop where
  first : nextKind (style.field f) ≠ .symbol .rightBrace ∧ style.field f ≠ []
  reads : ∀ fuel depth n ws, Room 21 fuel (style.field f ++ ws) → Stops 0 (nextKind ws) →
    nextKind ws ≠ .symbol .equal →
    Takes ⟨style.field f ++ ws, n⟩ (field fuel depth variadic) (depth + Nesting.field style f)
      (SameField n f) ⟨ws, (Numbering.field n f).2⟩

/-- The expression is read wherever it binds tightly enough. A table can also be read as an
argument without parentheses, so its entries are. -/
structure Readable (e : Expr) : Prop where
  opening : Opening style e
  entries : ∀ fs line, e = .table fs line → ∀ f ∈ fs, ReadsField style variadic f
  suffixed : e.rank = Rank.suffixed → ReadsSuffixed style variadic e
  simple : Rank.simple ≤ e.rank → ReadsSimple style variadic e
  unary : Rank.unary ≤ e.rank → ReadsUnary style variadic e
  chain : ∀ level < levels, level ≠ concatLevel → level ≤ e.rank →
    ReadsChain style variadic level e
  binary : ∀ level ≤ levels, level ≤ e.rank → ReadsBinary style variadic level e

end Forms

section Lifting

variable {style : Style} {variadic : Bool} {e : Expr} {level : Nat}

/-! ### Rows that end -/

theorem takes_binaryRest {p : Ahead} {fuel depth : Nat} (hroom : Room 1 fuel p.words)
    (h : binaryOp? level (nextKind p.words) = none) :
    Takes p (binaryRest fuel level depth variadic e) 0 (· = e) p := by
  obtain ⟨fuel, rfl, -⟩ := hroom.call
  rw [binaryRest]
  refine takes_currentKind.step fun k hk => ?_
  rw [hk, h]
  exact takes_pure rfl

theorem takes_suffixes {p : Ahead} {fuel depth : Nat} (hroom : Room 1 fuel p.words)
    (h : opensSuffix (nextKind p.words) = false) :
    Takes p (suffixes fuel depth variadic e) 0 (· = e) p := by
  obtain ⟨fuel, rfl, -⟩ := hroom.call
  rw [suffixes]
  refine takes_current.step fun t ht => ?_
  rw [← ht] at h
  clear ht
  split
  all_goals first | exact takes_pure rfl | simp_all [opensSuffix]

/-! ### From one form to the next -/

theorem ReadsSuffixed.alone (h : ReadsSuffixed style variadic e) {fuel depth n : Nat}
    {ws : List Word} (hdepth : depth + 1 ≤ maxLevels) (hroom : Room 7 fuel (style.expr e ++ ws))
    (hstops : opensSuffix (nextKind ws) = false) :
    Takes ⟨style.expr e ++ ws, n⟩ (Parser.suffixed fuel (depth + 1) variadic)
      (depth + Nesting.expr style e) (SameExpr n e) ⟨ws, (Numbering.expr n e).2⟩ :=
  (h fuel depth n ws 0 _ _ hdepth hroom fun _ _ hroom' he' =>
    (takes_suffixes (p := ⟨ws, _⟩) (hroom'.le (by omega)) hstops).imp fun _ heq => heq ▸ he').of_eq
      (Nat.max_zero _)

theorem ReadsSuffixed.simple (h : ReadsSuffixed style variadic e) (hopening : Opening style e)
    (hrank : e.rank = Rank.suffixed) : ReadsSimple style variadic e := by
  intro fuel depth n ws hdepth hroom hstops
  obtain ⟨fuel, rfl, hcall⟩ := hroom.call
  obtain ⟨w, us, hwords, hopens⟩ := hopening
  have hfirst := hopens.starts.suffixed (Nat.le_of_eq hrank.symm)
  have hread := h.alone (n := n) hdepth hcall hstops
  rw [hwords] at hread ⊢
  rw [Parser.simple]
  refine takes_current_word.step fun t ht => ?_
  obtain ⟨line, rfl⟩ := ht
  have hkind : (w.token line).kind = w.kind := rfl
  rw [hkind]
  rcases hfirst with hw | hw <;> rw [hw] <;> exact hread

theorem ReadsSimple.unary (h : ReadsSimple style variadic e) (hopening : Opening style e)
    (hrank : Rank.simple ≤ e.rank) (hpos : 1 ≤ Nesting.expr style e) :
    ReadsUnary style variadic e := by
  intro fuel depth n ws hroom hstops
  obtain ⟨fuel, rfl, hcall⟩ := hroom.call
  obtain ⟨w, us, hwords, hopens⟩ := hopening
  have hfirst : unaryOp? (nextKind (style.expr e ++ ws)) = none := by
    rw [hwords]
    exact hopens.starts.simple (Nat.lt_of_lt_of_le (by decide) hrank)
  rw [Parser.unary]
  refine ((takes_enter depth).bind fun d hd => ?_).of_eq
    (Nat.max_eq_right (Nat.add_le_add_left hpos depth))
  obtain ⟨rfl, hdepth⟩ := hd
  refine takes_currentKind.step fun k hk => ?_
  rw [hk, hfirst]
  refine (h fuel depth n ws hdepth hcall hstops.1).done fun base hbase => ?_
  refine (takes_check _).step fun b hb => ?_
  rw [hb, if_neg (by simpa using hstops.2.1)]
  exact takes_pure hbase

theorem ReadsUnary.binary (h : ReadsUnary style variadic e) :
    ReadsBinary style variadic levels e := by
  intro fuel depth n ws hroom hstops
  obtain ⟨fuel, rfl, hcall⟩ := hroom.call
  rw [Parser.binary, if_pos (Nat.le_refl _)]
  exact h fuel depth n ws hcall hstops

theorem ReadsBinary.lower (h : ReadsBinary style variadic (level + 1) e) (hlevel : level < levels) :
    ReadsBinary style variadic level e := by
  intro fuel depth n ws hroom hstops
  have hlevel' : level < 10 := hlevel
  obtain ⟨fuel, rfl, hcall⟩ := (hroom.le (show 19 - level + 1 ≤ 20 - level by omega)).call
  have hnone := hstops.2.2 level hlevel (Nat.le_refl _)
  rw [Parser.binary, if_neg (Nat.not_le_of_lt hlevel)]
  refine (h fuel depth n ws (hcall.le (by omega)) (hstops.mono (Nat.le_succ _))).done
    fun left hleft => ?_
  split
  · refine takes_currentKind.step fun k hk => ?_
    rw [hk, hnone]
    exact takes_pure hleft
  · exact (takes_binaryRest (hcall.drop.le (by omega)) hnone).imp fun _ heq => heq ▸ hleft

theorem ReadsBinary.le {level' : Nat} (h : ReadsBinary style variadic level e)
    (hlevel : level ≤ levels) (hle : level' ≤ level) : ReadsBinary style variadic level' e := by
  induction hle with
  | refl => exact h
  | step _ ih => exact ih (h.lower hlevel) (Nat.le_of_lt hlevel)

theorem ReadsBinary.chain (h : ReadsBinary style variadic (level + 1) e) (hlevel : level < levels)
    (hconcat : level ≠ concatLevel) (hrank : level < e.rank) :
    ReadsChain style variadic level e := by
  intro fuel depth n ws peak Q q hroom hstops hrest
  have hlevel' : level < 10 := hlevel
  have hchain : e.chain level = 0 := by
    cases e with
    | binary op l r line => exact if_neg (Nat.ne_of_gt hrank)
    | _ => rfl
  obtain ⟨fuel, rfl, hcall⟩ := (hroom.le (show 19 - level + 1 ≤ 20 - level by omega)).call
  rw [Parser.binary, if_neg (Nat.not_le_of_lt hlevel)]
  refine (h fuel depth n ws (hcall.le (by omega)) hstops).bind fun left hleft => ?_
  rw [if_neg hconcat]
  have hgo := hrest fuel left (hcall.drop.le (by omega)) hleft
  rwa [hchain] at hgo

theorem ReadsChain.binary (h : ReadsChain style variadic level e) (hlevel : level < levels) :
    ReadsBinary style variadic level e := by
  intro fuel depth n ws hroom hstops
  refine (h fuel depth n ws 0 _ _ hroom (hstops.mono (Nat.le_succ _))
    fun fuel' e' hroom' he' => ?_).of_eq (Nat.max_zero _)
  exact (takes_binaryRest (p := ⟨ws, _⟩) hroom' (hstops.2.2 level hlevel (Nat.le_refl _))).imp
    fun _ heq => heq ▸ he'

/-! ### Expressions of each rank -/

theorem readable_of_unary (hopening : Opening style e) (hrank : Rank.unary ≤ e.rank)
    (hentries : ∀ fs line, e = .table fs line → ∀ f ∈ fs, ReadsField style variadic f)
    (hsuffixed : e.rank = Rank.suffixed → ReadsSuffixed style variadic e)
    (hsimple : Rank.simple ≤ e.rank → ReadsSimple style variadic e)
    (h : ReadsUnary style variadic e) : Readable style variadic e where
  opening := hopening
  entries := hentries
  suffixed := hsuffixed
  simple := hsimple
  unary _ := h
  chain _ hlevel hconcat _ :=
    (h.binary.le (Nat.le_refl _) hlevel).chain hlevel hconcat (Nat.lt_of_lt_of_le hlevel hrank)
  binary _ hlevel _ := h.binary.le (Nat.le_refl _) hlevel

theorem no_entries (hrank : e.rank ≠ Rank.simple) :
    ∀ fs line, e = .table fs line → ∀ f ∈ fs, ReadsField style variadic f := by
  rintro fs line rfl
  exact absurd rfl hrank

theorem readable_of_simple (hopening : Opening style e) (hrank : e.rank = Rank.simple)
    (hpos : 1 ≤ Nesting.expr style e)
    (hentries : ∀ fs line, e = .table fs line → ∀ f ∈ fs, ReadsField style variadic f)
    (h : ReadsSimple style variadic e) : Readable style variadic e :=
  readable_of_unary hopening (hrank ▸ by decide) hentries
    (fun hsuffixed => absurd (hrank.symm.trans hsuffixed) (by decide)) (fun _ => h)
    (h.unary hopening (Nat.le_of_eq hrank.symm) hpos)

theorem readable_of_suffixed (hopening : Opening style e) (hrank : e.rank = Rank.suffixed)
    (hpos : 1 ≤ Nesting.expr style e) (h : ReadsSuffixed style variadic e) :
    Readable style variadic e :=
  have hsimple := h.simple hopening hrank
  readable_of_unary hopening (hrank ▸ by decide) (no_entries (hrank ▸ by decide)) (fun _ => h)
    (fun _ => hsimple) (hsimple.unary hopening (hrank ▸ by decide) hpos)

/-- An operator below the unary ones, with what is read at its own level. -/
theorem readable_of_binary (hopening : Opening style e) (hrank : e.rank < levels)
    (hchain : e.rank ≠ concatLevel → ReadsChain style variadic e.rank e)
    (h : ReadsBinary style variadic e.rank e) : Readable style variadic e where
  opening := hopening
  entries := no_entries fun hsimple => absurd (hsimple ▸ hrank) (by decide)
  suffixed hsuffixed := absurd (hsuffixed ▸ hrank) (by decide)
  simple hsimple := absurd (Nat.lt_of_le_of_lt hsimple hrank) (by decide)
  unary hunary := absurd (Nat.lt_of_le_of_lt hunary hrank) (by decide)
  chain level hlevel hconcat hle := by
    rcases Nat.eq_or_lt_of_le hle with rfl | hlt
    · exact hchain hconcat
    · exact (h.le (Nat.le_of_lt hrank) hlt).chain hlevel hconcat hlt
  binary level _ hle := h.le (Nat.le_of_lt hrank) hle

end Lifting
end Parser
end LuaMachine
