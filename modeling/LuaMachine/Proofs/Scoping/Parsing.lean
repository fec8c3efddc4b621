import LuaMachine.Proofs.Action
import LuaMachine.Proofs.Scoping.Sites
import LuaMachine.Tree.Parser
/-! # What the grammar demands

The names of a program are words of its text, so none of them is the name of a loop's hidden
variables, and the parser builds assignments to names and index expressions only.

* `Token.Named`, `named_tokens`: identifiers begin with a letter.
* `Parser.Gives`: what an action of the parser gives, if the tokens are such.
* `parse_regular`: every place of a program is regular.
-/
set_option autoImplicit false

namespace LuaMachine

/-! ## Identifiers -/

/-- An identifier is a name of the language. -/
def Token.Named (t : Token) : Prop := t.kind = .identifier → t.text ≠ loopState

theorem Token.named_of_kind {t : Token} (h : t.kind ≠ .identifier) : t.Named :=
  fun hkind => absurd hkind h

namespace Lexer

theorem word_named {c : Char} (hc : isLetter c = true) (r : List Char) (line : Nat) :
    (word c r line).token.Named := by
  intro _ htext
  have hchars := congrArg String.toList htext
  simp only [word, String.toList_ofList, loopState] at hchars
  obtain rfl : c = '(' := (List.cons.inj hchars).1
  revert hc
  decide

theorem failure_named (error : LexicalError) (line : Nat) : (failure error line).token.Named :=
  Token.named_of_kind (by simp [failure])

theorem symbolToken_named (c : Char) (r : List Char) (line : Nat) :
    (symbolToken c r line).token.Named := by
  unfold symbolToken
  split
  · exact Token.named_of_kind (by simp)
  · exact failure_named _ _

theorem numeralToken_named (c : Char) (r : List Char) (line : Nat) :
    (numeralToken c r line).token.Named :=
  Token.named_of_kind (by simp [numeralToken])

theorem quotedToken_named (bound : Nat) (quote : Char) (r : List Char) (line : Nat) :
    (quotedToken bound quote r line).token.Named := by
  unfold quotedToken
  split
  · exact Token.named_of_kind (by simp)
  · exact failure_named _ _

theorem longToken_named (level : Nat) (body : List Char) (line : Nat) :
    (longToken level body line).token.Named := by
  unfold longToken
  split
  · exact Token.named_of_kind (by simp)
  · exact failure_named _ _

theorem scanAt_named (bound : Nat) (c : Char) (r : List Char) (line : Nat) :
    (scanAt bound c r line).token.Named := by
  unfold scanAt
  split
  next hc => exact word_named hc r line
  next =>
  split
  · exact numeralToken_named c r line
  split
  · exact quotedToken_named bound c r line
  split
  · split
    · exact longToken_named _ _ line
    · exact symbolToken_named c r line
  split
  · exact numeralToken_named c r line
  · exact symbolToken_named c r line

theorem scan_named (bound : Nat) (s : List Char) (line : Nat) :
    (scan bound s line).token.Named := by
  unfold scan
  split
  · exact failure_named _ _
  · exact Token.named_of_kind (by simp)
  · exact scanAt_named _ _ _ _

theorem scanAll_named {seen : List Token} (hseen : ∀ t ∈ seen, t.Named) (bound : Nat)
    (s : List Char) (line : Nat) : ∀ t ∈ scanAll seen bound s line, t.Named := by
  induction bound generalizing seen s line with
  | zero =>
    intro t ht
    rw [scanAll] at ht
    split at ht <;> rcases List.mem_cons.mp (List.mem_reverse.mp ht) with rfl | ht
    · exact scan_named 0 s line
    · exact hseen t ht
    · exact Token.named_of_kind (by simp)
    · exact hseen t ht
  | succ bound ih =>
    intro t ht
    have hcons : ∀ t ∈ (scan (bound + 1) s line).token :: seen, t.Named :=
      List.forall_mem_cons.mpr ⟨scan_named _ s line, hseen⟩
    rw [scanAll] at ht
    split at ht
    · exact hcons t (List.mem_reverse.mp ht)
    · exact ih hcons _ _ t ht

end Lexer

theorem named_tokens (text : String) : ∀ t ∈ tokens text, t.Named :=
  Lexer.scanAll_named (by simp) _ _ _

/-! ## Parts of a program -/

/-- A part of a program has regular places only, wherever it stands. -/
def RegularPart (part : Surroundings → List Site) : Prop := ∀ env, ∀ s ∈ part env, s.Regular

section Parts

variable {first second : Surroundings → List Site}

theorem RegularPart.nil : RegularPart fun _ => [] := fun _ _ hs => absurd hs (by simp)

theorem RegularPart.append (h : RegularPart first) (h' : RegularPart second) :
    RegularPart fun env => first env ++ second env := fun env s hs =>
  (List.mem_append.mp hs).elim (h env s) (h' env s)

theorem RegularPart.within (h : RegularPart first) (inner : Surroundings → Surroundings) :
    RegularPart fun env => first (inner env) := fun env => h (inner env)

end Parts

def RegularExpr (e : Expr) : Prop := RegularPart fun env => Sites.expr env e

def RegularExprs (es : List Expr) : Prop := RegularPart fun env => Sites.exprs env es

def RegularField (f : Field) : Prop := RegularPart fun env => Sites.field env f

def RegularFields (fs : List Field) : Prop := RegularPart fun env => Sites.fields env fs

theorem regularFields_of {fs : List Field} (h : ∀ f ∈ fs, RegularField f) : RegularFields fs := by
  induction fs with
  | nil => simpa only [RegularFields, Sites.fields] using RegularPart.nil
  | cons f rest ih =>
    obtain ⟨hf, hrest⟩ := List.forall_mem_cons.mp h
    simpa only [RegularFields, Sites.fields] using RegularPart.append hf (ih hrest)

def RegularFunction (f : Function) : Prop := RegularPart fun env => Sites.function env f

def RegularBranches (bs : List Branch) : Prop := RegularPart fun env => Sites.branches env bs

def RegularStmt (s : Stmt) : Prop := RegularPart fun env => Sites.stmt env s

def RegularStmts (ss : List Stmt) : Prop := RegularPart fun env => Sites.stmts env ss

/-! ## Actions of the parser -/

namespace Parser

/-- The identifiers among the tokens that are left are names of the language. -/
def Named (st : State) : Prop := ∀ t ∈ st.tokens, t.Named

/-- The action gives what `Q` says whenever it succeeds. -/
def Gives {α : Type} (Q : α → Prop) (act : Parse α) : Prop :=
  ∀ st a st', Named st → act st = .ok a st' → Q a ∧ Named st'

/-- The action keeps the identifiers, whatever it gives. -/
abbrev Passes {α : Type} (act : Parse α) : Prop := Gives (fun _ => True) act

section Actions

variable {α β : Type} {Q : α → Prop} {R : β → Prop} {act : Parse α}

theorem Gives.bind {f : α → Parse β} (h : Gives Q act) (hf : ∀ a, Q a → Gives R (f a)) :
    Gives R (act >>= f) := by
  intro st b st' hst hok
  obtain ⟨a, st₁, hact, hrest⟩ := bind_ok.mp hok
  obtain ⟨ha, hst₁⟩ := h st a st₁ hst hact
  exact hf a ha st₁ b st' hst₁ hrest

theorem Gives.pure {a : α} (h : Q a) : Gives Q (Pure.pure a) := by
  intro st a' st' hst hok
  obtain ⟨rfl, rfl⟩ := pure_ok.mp hok
  exact ⟨h, hst⟩

theorem passes_pure (a : α) : Passes (Pure.pure a : Parse α) := .pure trivial

theorem Gives.throw {e : CompileError} : Gives Q (MonadExcept.throw e : Parse α) :=
  fun _ _ _ _ hok => absurd hok (by simp [throw_ok])

theorem Gives.ite {c : Prop} [Decidable c] {act' : Parse α} (h : c → Gives Q act)
    (h' : ¬c → Gives Q act') : Gives Q (if c then act else act') := by
  split
  next hc => exact h hc
  next hc => exact h' hc

end Actions

theorem gives_get : Gives Named get := by
  intro st a st' hst hok
  obtain ⟨rfl, rfl⟩ := get_ok.mp hok
  exact ⟨hst, hst⟩

theorem gives_current : Gives Token.Named current := by
  refine (gives_get).bind fun st hst => .pure ?_
  cases htokens : st.tokens with
  | nil => exact Token.named_of_kind (by simp [endToken])
  | cons t rest => exact hst t (by simp [htokens])

theorem passes_currentKind : Passes currentKind := (gives_current).bind fun _ _ => .pure trivial

theorem gives_complainAt {α : Type} {Q : α → Prop} (c : Complaint) (t : Token) :
    Gives Q (complainAt c t) := .throw

theorem gives_complain {α : Type} {Q : α → Prop} (c : Complaint) : Gives Q (complain c) :=
  (gives_current).bind fun t _ => gives_complainAt c t

theorem gives_exhausted {α : Type} {Q : α → Prop} : Gives Q (exhausted : Parse α) :=
  (gives_current).bind fun _ _ => .throw

theorem passes_checkError : Passes checkError :=
  (gives_current).bind fun _ _ => .ite (fun _ => .throw) fun _ => .pure trivial

theorem passes_tail : Passes (modify fun s => { s with tokens := s.tokens.tail } : Parse Unit) := by
  intro st a st' hst hok
  obtain rfl := modify_ok.mp hok
  exact ⟨trivial, fun t ht => hst t (List.mem_of_mem_tail ht)⟩

theorem gives_advance : Gives Token.Named advance :=
  (gives_current).bind fun _ ht =>
    (passes_tail).bind fun _ _ => (passes_checkError).bind fun _ _ => .pure ht

theorem passes_check (k : TokenKind) : Passes (check k) :=
  (passes_currentKind).bind fun _ _ => .pure trivial

theorem passes_accept (k : TokenKind) : Passes (accept k) :=
  (passes_check k).bind fun _ _ =>
    .ite (fun _ => (gives_advance).bind fun _ _ => .pure trivial) fun _ => .pure trivial

theorem passes_consume (k : TokenKind) (c : Complaint) : Passes (consume k c) :=
  (passes_check k).bind fun _ _ =>
    .ite (fun _ st a st' hst hok => ⟨trivial, (gives_advance st a st' hst hok).2⟩)
      fun _ => gives_complain c

theorem passes_consumeSymbol (s : Symbol) : Passes (consumeSymbol s) :=
  (passes_consume _ _).bind fun _ _ => .pure trivial

theorem passes_consumeKeyword (k : Keyword) : Passes (consumeKeyword k) :=
  (passes_consume _ _).bind fun _ _ => .pure trivial

theorem passes_closing (k : Keyword) (opener : String) (line : Nat) :
    Passes (closing k opener line) := passes_consume _ _

theorem passes_binder (name : String) (constant : Bool) : Passes (binder name constant) := by
  intro st b st' hst hok
  simp only [binder, bind_ok, get_ok, set_ok, pure_ok, and_assoc, exists_and_left,
    exists_eq_left, exists_const] at hok
  obtain ⟨-, rfl⟩ := hok
  exact ⟨trivial, hst⟩

theorem passes_enter (depth : Nat) : Passes (enter depth) :=
  .ite (fun _ => gives_current.bind fun _ _ => .throw) fun _ => .pure trivial

theorem passes_blockEnds : Passes blockEnds := by
  refine passes_currentKind.bind fun k _ => ?_
  split <;> exact .pure trivial

theorem current_ok {st st' : State} {t : Token} :
    current st = .ok t st' ↔ t = st.tokens.headD endToken ∧ st' = st := by
  simp only [current, bind_ok, get_ok, pure_ok, and_assoc, exists_and_left, exists_eq_left]

/-- What was checked to be an identifier is a name. -/
theorem gives_identifier : Gives (fun t => t.text ≠ loopState) identifier := by
  intro st t st' hst hok
  obtain ⟨-, hst'⟩ := passes_consume _ _ st t st' hst hok
  refine ⟨?_, hst'⟩
  simp only [identifier, consume, check, currentKind, advance, bind_ok, current_ok, pure_ok,
    and_assoc, exists_and_left, exists_eq_left] at hok
  have hnamed := (gives_current st _ st hst (current_ok.2 ⟨rfl, rfl⟩)).1
  split at hok
  next hkind =>
    simp only [bind_ok, current_ok, pure_ok, and_assoc, exists_and_left, exists_eq_left] at hok
    obtain ⟨_, _, -, _, _, -, rfl, -⟩ := hok
    exact hnamed (of_decide_eq_true hkind)
  next =>
    simp only [complain, complainAt, bind_ok, throw_ok, and_false, exists_false] at hok

/-! ## Expressions and statements -/

/-- An expression that can be assigned to. -/
def RegularTarget (e : Expr) : Prop := RegularExpr e ∧ e.isTarget = true

theorem passes_constantMark : Passes constantMark :=
  (passes_accept _).bind fun _ _ => .ite
    (fun _ => (gives_identifier).bind fun t _ => .ite
      (fun _ => (passes_consumeSymbol _).bind fun _ _ => .pure trivial)
      fun _ => .ite (fun _ => gives_complainAt _ t) fun _ => gives_complainAt _ t)
    fun _ => .pure trivial

theorem passes_parameters : (fuel : Nat) → Passes (parameters fuel)
  | 0 => by
    rw [parameters]
    exact gives_exhausted
  | fuel + 1 => by
    rw [parameters]
    exact (passes_accept _).bind fun _ _ => .ite (fun _ => .pure trivial) fun _ =>
      (gives_identifier).bind fun _ _ => (passes_binder _ _).bind fun _ _ =>
        (passes_accept _).bind fun _ _ => .ite
          (fun _ => (passes_parameters fuel).bind fun _ _ => .pure trivial)
          fun _ => .pure trivial

theorem passes_furtherNames : (fuel : Nat) → Passes (furtherNames fuel)
  | 0 => by
    rw [furtherNames]
    exact gives_exhausted
  | fuel + 1 => by
    rw [furtherNames]
    exact (passes_accept _).bind fun _ _ => .ite
      (fun _ => (gives_identifier).bind fun _ _ => (passes_binder _ _).bind fun _ _ =>
        (passes_furtherNames fuel).bind fun _ _ => .pure trivial)
      fun _ => .pure trivial

theorem passes_attributed : (fuel : Nat) → Passes (attributed fuel)
  | 0 => by
    rw [attributed]
    exact gives_exhausted
  | fuel + 1 => by
    rw [attributed]
    exact (gives_identifier).bind fun _ _ => (passes_constantMark).bind fun _ _ =>
      (passes_binder _ _).bind fun _ _ => (passes_accept _).bind fun _ _ => .ite
        (fun _ => (passes_attributed fuel).bind fun _ _ => .pure trivial)
        fun _ => .pure trivial

theorem gives_functionName : (fuel line : Nat) → (e : Expr) → (full : String) →
    RegularTarget e → Gives (fun r => RegularTarget r.1) (functionName fuel line e full)
  | 0, _, _, _, _ => by
    rw [functionName]
    exact gives_exhausted
  | fuel + 1, line, e, full, he => by
    have hfield : ∀ t : Token, RegularTarget (.index e (.str t.text t.line) line) := fun t =>
      ⟨by simpa only [RegularExpr, Sites.expr, List.append_nil] using he.1, rfl⟩
    rw [functionName]
    exact (passes_accept _).bind fun _ _ => .ite
      (fun _ => (gives_identifier).bind fun t _ => gives_functionName fuel line _ _ (hfield t))
      fun _ => (passes_accept _).bind fun _ _ => .ite
        (fun _ => (gives_identifier).bind fun t _ => .pure (hfield t))
        fun _ => .pure he

mutual

theorem gives_binary : (fuel level depth : Nat) → (variadic : Bool) →
    Gives RegularExpr (binary fuel level depth variadic)
  | 0, _, _, _ => by
    rw [binary]
    exact gives_exhausted
  | fuel + 1, level, depth, variadic => by
    rw [binary]
    refine .ite (fun _ => gives_unary fuel depth variadic) fun _ =>
      (gives_binary fuel (level + 1) depth variadic).bind fun left hleft => .ite (fun _ => ?_)
        fun _ => gives_binaryRest fuel level depth variadic left hleft
    refine passes_currentKind.bind fun k _ => ?_
    split
    · exact gives_advance.bind fun _ _ => (gives_binary fuel level depth variadic).bind
        fun right hright => .pure (by
          simpa only [RegularExpr, Sites.expr] using hleft.append hright)
    · exact .pure hleft

theorem gives_binaryRest : (fuel level depth : Nat) → (variadic : Bool) → (left : Expr) →
    RegularExpr left → Gives RegularExpr (binaryRest fuel level depth variadic left)
  | 0, _, _, _, _, _ => by
    rw [binaryRest]
    exact gives_exhausted
  | fuel + 1, level, depth, variadic, left, hleft => by
    rw [binaryRest]
    refine passes_currentKind.bind fun k _ => ?_
    split
    · exact gives_advance.bind fun _ _ => (passes_enter depth).bind fun depth _ =>
        (gives_binary fuel (level + 1) depth variadic).bind fun right hright =>
          gives_binaryRest fuel level depth variadic _ (by
            simpa only [RegularExpr, Sites.expr] using hleft.append hright)
    · exact .pure hleft

theorem gives_unary : (fuel depth : Nat) → (variadic : Bool) →
    Gives RegularExpr (unary fuel depth variadic)
  | 0, _, _ => by
    rw [unary]
    exact gives_exhausted
  | fuel + 1, depth, variadic => by
    rw [unary]
    refine (passes_enter depth).bind fun depth _ => passes_currentKind.bind fun k _ => ?_
    split
    · exact gives_advance.bind fun _ _ => (gives_unary fuel depth variadic).bind fun e he =>
        .pure (by simpa only [RegularExpr, Sites.expr] using he)
    · exact (gives_simple fuel depth variadic).bind fun base hbase =>
        (passes_check _).bind fun _ _ => .ite
          (fun _ => gives_advance.bind fun _ _ => (gives_unary fuel depth variadic).bind
            fun e he => .pure (by
              simpa only [RegularExpr, Sites.expr] using hbase.append he))
          fun _ => .pure hbase

theorem gives_simple : (fuel depth : Nat) → (variadic : Bool) →
    Gives RegularExpr (simple fuel depth variadic)
  | 0, _, _ => by
    rw [simple]
    exact gives_exhausted
  | fuel + 1, depth, variadic => by
    have hleaf : ∀ e : Expr, (∀ env, Sites.expr env e = []) → RegularExpr e := fun e he env s hs =>
      absurd hs (by simp [he env])
    rw [simple]
    refine gives_current.bind fun t _ => ?_
    split
    · exact gives_advance.bind fun _ _ => .pure (hleaf _ fun _ => by rw [Sites.expr])
    · exact gives_advance.bind fun _ _ => .pure (hleaf _ fun _ => by rw [Sites.expr])
    · exact gives_advance.bind fun _ _ => .pure (hleaf _ fun _ => by rw [Sites.expr])
    · refine gives_advance.bind fun _ _ => ?_
      split
      · exact .pure (hleaf _ fun _ => by rw [Sites.expr])
      · exact gives_complainAt _ t
    · exact gives_advance.bind fun _ _ => .pure (hleaf _ fun _ => by rw [Sites.expr])
    · exact gives_advance.bind fun _ _ => .ite
        (fun _ => .pure (hleaf _ fun _ => by rw [Sites.expr])) fun _ => gives_complainAt _ t
    · exact gives_table fuel depth variadic
    · exact gives_advance.bind fun _ _ => (gives_functionBody fuel depth _ _ _).bind fun f hf =>
        .pure (by simpa only [RegularExpr, RegularFunction, Sites.expr] using hf)
    · exact gives_suffixed fuel depth variadic

theorem gives_suffixed : (fuel depth : Nat) → (variadic : Bool) →
    Gives RegularExpr (suffixed fuel depth variadic)
  | 0, _, _ => by
    rw [suffixed]
    exact gives_exhausted
  | fuel + 1, depth, variadic => by
    rw [suffixed]
    refine gives_current.bind fun t ht => ?_
    split
    next hkind =>
      exact gives_advance.bind fun _ _ => gives_suffixes fuel depth variadic _ (by
        simpa [RegularExpr, RegularPart, Sites.expr, Site.Regular] using fun _ => ht hkind)
    · exact gives_advance.bind fun _ _ => (gives_binary fuel 0 depth variadic).bind fun e he =>
        (passes_consumeSymbol _).bind fun _ _ => gives_suffixes fuel depth variadic _ (by
          simpa only [RegularExpr, Sites.expr] using he)
    · exact gives_complain _

theorem gives_suffixes : (fuel depth : Nat) → (variadic : Bool) → (e : Expr) → RegularExpr e →
    Gives RegularExpr (suffixes fuel depth variadic e)
  | 0, _, _, _, _ => by
    rw [suffixes]
    exact gives_exhausted
  | fuel + 1, depth, variadic, e, he => by
    have hcall : ∀ line, Gives RegularExpr (do
        let depth ← enter depth
        let args ← arguments fuel depth variadic
        suffixes fuel depth variadic (.call e args line)) := fun line =>
      (passes_enter depth).bind fun depth _ => (gives_arguments fuel depth variadic).bind
        fun args hargs => gives_suffixes fuel depth variadic _ (by
          simpa only [RegularExpr, Sites.expr] using he.append hargs)
    have hmethod : ∀ depth name line, Gives RegularExpr (do
        let args ← arguments fuel depth variadic
        suffixes fuel depth variadic (.method e name args line)) := fun depth name line =>
      (gives_arguments fuel depth variadic).bind fun args hargs =>
        gives_suffixes fuel depth variadic _ (by
          simpa only [RegularExpr, Sites.expr] using he.append hargs)
    rw [suffixes]
    refine gives_current.bind fun t _ => ?_
    split
    · exact hcall t.line
    · exact hcall t.line
    · exact hcall t.line
    · refine (passes_enter depth).bind fun depth _ => gives_advance.bind fun _ _ =>
        gives_identifier.bind fun name _ => passes_currentKind.bind fun k _ => ?_
      split
      · exact hmethod depth _ _
      · exact hmethod depth _ _
      · exact hmethod depth _ _
      · exact gives_complain _
    · exact (passes_enter depth).bind fun depth _ => gives_advance.bind fun _ _ =>
        (gives_binary fuel 0 depth variadic).bind fun key hkey =>
          (passes_consumeSymbol _).bind fun _ _ => gives_suffixes fuel depth variadic _ (by
            simpa only [RegularExpr, Sites.expr] using he.append hkey)
    · exact (passes_enter depth).bind fun depth _ => gives_advance.bind fun _ _ =>
        gives_identifier.bind fun name _ => gives_suffixes fuel depth variadic _ (by
          simpa only [RegularExpr, Sites.expr, List.append_nil] using he)
    · exact .pure he

theorem gives_arguments : (fuel depth : Nat) → (variadic : Bool) →
    Gives RegularExprs (arguments fuel depth variadic)
  | 0, _, _ => by
    rw [arguments]
    exact gives_exhausted
  | fuel + 1, depth, variadic => by
    rw [arguments]
    refine gives_current.bind fun t _ => ?_
    split
    · exact gives_advance.bind fun _ _ => .pure (by
        simpa only [RegularExprs, Sites.exprs, Sites.expr, List.append_nil] using RegularPart.nil)
    · exact (gives_table fuel depth variadic).bind fun e he => .pure (by
        simpa only [RegularExprs, RegularExpr, Sites.exprs, List.append_nil] using he)
    · exact (passes_consume _ _).bind fun _ _ => (passes_accept _).bind fun _ _ => .ite
        (fun _ => .pure (by simpa only [RegularExprs, Sites.exprs] using RegularPart.nil))
        fun _ => (gives_expressions fuel depth variadic).bind fun es hes =>
          (passes_consumeSymbol _).bind fun _ _ => .pure hes

theorem gives_expressions : (fuel depth : Nat) → (variadic : Bool) →
    Gives RegularExprs (expressions fuel depth variadic)
  | 0, _, _ => by
    rw [expressions]
    exact gives_exhausted
  | fuel + 1, depth, variadic => by
    rw [expressions]
    exact (gives_binary fuel 0 depth variadic).bind fun e he => (passes_accept _).bind
      fun _ _ => .ite
        (fun _ => (gives_expressions fuel depth variadic).bind fun es hes => .pure (by
          simpa only [RegularExprs, Sites.exprs] using he.append hes))
        fun _ => .pure (by
          simpa only [RegularExprs, RegularExpr, Sites.exprs, List.append_nil] using he)

theorem gives_table : (fuel depth : Nat) → (variadic : Bool) →
    Gives RegularExpr (table fuel depth variadic)
  | 0, _, _ => by
    rw [table]
    exact gives_exhausted
  | fuel + 1, depth, variadic => by
    rw [table]
    exact gives_current.bind fun t _ => (passes_consumeSymbol _).bind fun _ _ =>
      (gives_fields fuel depth variadic [] (by simp)).bind fun fs hfs => (passes_consume _ _).bind
        fun _ _ => .pure (by
          simpa only [RegularExpr, RegularFields, Sites.expr] using hfs)

theorem gives_fields : (fuel depth : Nat) → (variadic : Bool) → (seen : List Field) →
    (∀ f ∈ seen, RegularField f) → Gives RegularFields (fields fuel depth variadic seen)
  | 0, _, _, _, _ => by
    rw [fields]
    exact gives_exhausted
  | fuel + 1, depth, variadic, seen, hseen => by
    have hdone : ∀ {fs : List Field}, (∀ f ∈ fs, RegularField f) → RegularFields fs.reverse :=
      fun hfs => regularFields_of fun f hf => hfs f (List.mem_reverse.mp hf)
    rw [fields]
    refine (passes_check _).bind fun _ _ => .ite (fun _ => .pure (hdone hseen)) fun _ =>
      (gives_field fuel depth variadic).bind fun f hf => ?_
    have hmore : ∀ g ∈ f :: seen, RegularField g := List.forall_mem_cons.mpr ⟨hf, hseen⟩
    exact (passes_accept _).bind fun _ _ =>
      .ite (fun _ => gives_fields fuel depth variadic _ hmore) fun _ =>
        (passes_accept _).bind fun _ _ =>
          .ite (fun _ => gives_fields fuel depth variadic _ hmore) fun _ => .pure (hdone hmore)

theorem gives_field : (fuel depth : Nat) → (variadic : Bool) →
    Gives RegularField (field fuel depth variadic)
  | 0, _, _ => by
    rw [field]
    exact gives_exhausted
  | fuel + 1, depth, variadic => by
    rw [field]
    refine gives_get.bind fun st _ => ?_
    split
    · exact gives_advance.bind fun _ _ => (gives_binary fuel 0 depth variadic).bind fun k hk =>
        (passes_consumeSymbol _).bind fun _ _ => (passes_consumeSymbol _).bind fun _ _ =>
          (gives_binary fuel 0 depth variadic).bind fun e he => .pure (by
            simpa only [RegularField, Sites.field] using hk.append he)
    · exact gives_advance.bind fun _ _ => gives_advance.bind fun _ _ =>
        (gives_binary fuel 0 depth variadic).bind fun e he => .pure (by
          simpa only [RegularField, RegularExpr, Sites.field, Sites.expr, List.nil_append]
            using he)
    · exact (gives_binary fuel 0 depth variadic).bind fun e he => .pure (by
        simpa only [RegularField, RegularExpr, Sites.field] using he)

theorem gives_functionBody : (fuel depth : Nat) → (name : String) → (method : Bool) →
    (line : Nat) → Gives RegularFunction (functionBody fuel depth name method line)
  | 0, _, _, _, _ => by
    rw [functionBody]
    exact gives_exhausted
  | fuel + 1, depth, name, method, line => by
    have hbody : ∀ (params : List Binder) (variadic : Bool), Gives RegularFunction (do
        consumeSymbol .rightParen
        let body ← block fuel depth variadic
        let last ← closing .kwEnd "function" line
        return .mk name params variadic body line last.line) := fun params variadic =>
      (passes_consumeSymbol _).bind fun _ _ => (gives_block fuel depth variadic).bind
        fun body hbody => (passes_closing _ _ _).bind fun _ _ => .pure (by
          intro env s hs
          simp only [Sites.function, List.mem_cons] at hs
          rcases hs with rfl | hs
          · trivial
          · exact hbody _ s hs)
    have hparams : ∀ self : List Binder, Gives RegularFunction (do
        let (params, variadic) ←
          if ← checkSymbol .rightParen then pure ([], false) else parameters fuel
        consumeSymbol .rightParen
        let body ← block fuel depth variadic
        let last ← closing .kwEnd "function" line
        return .mk name (self ++ params) variadic body line last.line) := fun self =>
      (passes_check _).bind fun _ _ => .ite
        (fun _ => (passes_pure _).bind fun r _ => hbody _ r.2)
        fun _ => (passes_parameters fuel).bind fun r _ => hbody _ r.2
    rw [functionBody]
    exact (passes_consumeSymbol _).bind fun _ _ => .ite
      (fun _ => (passes_binder _ _).bind fun _ _ => (passes_pure _).bind fun self _ =>
        hparams self)
      fun _ => (passes_pure _).bind fun self _ => hparams self

theorem gives_block : (fuel depth : Nat) → (variadic : Bool) →
    Gives RegularStmts (block fuel depth variadic)
  | 0, _, _ => by
    rw [block]
    exact gives_exhausted
  | fuel + 1, depth, variadic => by
    have hnil : RegularStmts [] := by
      simpa only [RegularStmts, Sites.stmts] using RegularPart.nil
    have hcons : ∀ {s : Stmt} {rest : List Stmt}, RegularStmt s → RegularStmts rest →
        RegularStmts (s :: rest) := fun hs hrest => by
      simpa only [RegularStmts, Sites.stmts] using hs.append (hrest.within _)
    rw [block]
    refine passes_blockEnds.bind fun _ _ => .ite (fun _ => .pure hnil) fun _ =>
      (passes_check _).bind fun _ _ => .ite
        (fun _ => (gives_returnStatement fuel depth variadic).bind fun s hs =>
          .pure (hcons hs hnil))
        fun _ => (gives_statement fuel depth variadic).bind fun s? hs => ?_
    split
    next s =>
      exact (gives_block fuel depth variadic).bind fun rest hrest =>
        .pure (hcons (hs s rfl) hrest)
    next => exact gives_block fuel depth variadic

theorem gives_returnStatement : (fuel depth : Nat) → (variadic : Bool) →
    Gives RegularStmt (returnStatement fuel depth variadic)
  | 0, _, _ => by
    rw [returnStatement]
    exact gives_exhausted
  | fuel + 1, depth, variadic => by
    have hend : ∀ (values : List Expr) (line : Nat), RegularExprs values → Gives RegularStmt (do
        let _ ← acceptSymbol .semicolon
        return .ret values line) := fun values line hvalues =>
      (passes_accept _).bind fun _ _ => .pure (by
        simpa only [RegularStmt, RegularExprs, Sites.stmt] using hvalues)
    have hnil : RegularExprs [] := by
      simpa only [RegularExprs, Sites.exprs] using RegularPart.nil
    rw [returnStatement]
    exact gives_advance.bind fun t _ => passes_blockEnds.bind fun _ _ =>
      (passes_check _).bind fun _ _ => .ite (fun _ => hend [] t.line hnil) fun _ => .ite
        (fun _ => hend [] t.line hnil)
        fun _ => (gives_expressions fuel depth variadic).bind fun es hes => hend es t.line hes

theorem gives_statement : (fuel depth : Nat) → (variadic : Bool) →
    Gives (fun s => ∀ x, s = some x → RegularStmt x) (statement fuel depth variadic)
  | 0, _, _ => by
    rw [statement]
    exact gives_exhausted
  | fuel + 1, depth, variadic => by
    have hnil : RegularExprs [] := by
      simpa only [RegularExprs, Sites.exprs] using RegularPart.nil
    rw [statement]
    refine (passes_enter depth).bind fun depth _ => gives_current.bind fun t _ => ?_
    split
    next => exact gives_advance.bind fun _ _ => .pure (by simp)
    next =>
      refine gives_advance.bind fun _ _ => (gives_binary fuel 0 depth variadic).bind fun e he =>
        (passes_consumeKeyword _).bind fun _ _ => (gives_block fuel depth variadic).bind
          fun body hbody => (gives_elseParts fuel depth variadic).bind fun r hr =>
            (passes_closing _ _ _).bind fun _ _ => .pure ?_
      rintro _ ⟨⟩
      obtain ⟨branches, otherwise⟩ := r
      have hfirst := (he.append hbody).append hr.1
      cases otherwise with
      | none => simpa only [RegularStmt, Sites.stmt, List.append_nil] using hfirst
      | some ss => simpa only [RegularStmt, Sites.stmt] using hfirst.append (hr.2 ss rfl)
    next =>
      refine gives_advance.bind fun _ _ => (gives_binary fuel 0 depth variadic).bind fun e he =>
        (passes_consumeKeyword _).bind fun _ _ => (gives_block fuel depth variadic).bind
          fun body hbody => (passes_closing _ _ _).bind fun _ _ => .pure ?_
      rintro _ ⟨⟩
      simpa only [RegularStmt, Sites.stmt] using he.append (hbody.within _)
    next =>
      refine gives_advance.bind fun _ _ => (gives_block fuel depth variadic).bind
        fun body hbody => (passes_closing _ _ _).bind fun _ _ => .pure ?_
      rintro _ ⟨⟩
      simpa only [RegularStmt, RegularStmts, Sites.stmt] using hbody
    next =>
      exact gives_advance.bind fun _ _ => (gives_forStatement fuel depth variadic _).bind
        fun s hs => .pure fun _ heq => Option.some.inj heq ▸ hs
    next =>
      refine gives_advance.bind fun _ _ => (gives_block fuel depth variadic).bind
        fun body hbody => (passes_closing _ _ _).bind fun _ _ =>
          (gives_binary fuel 0 depth variadic).bind fun e he => .pure ?_
      rintro _ ⟨⟩
      simpa only [RegularStmt, Sites.stmt] using (hbody.within _).append (he.within _)
    next =>
      refine gives_advance.bind fun _ _ => gives_identifier.bind fun name hname =>
        (gives_functionName fuel _ _ _ ⟨?_, rfl⟩).bind fun r hr =>
          (gives_functionBody fuel depth _ _ _).bind fun f hf => .pure ?_
      · simpa [RegularExpr, RegularPart, Sites.expr, Site.Regular] using fun _ => hname
      rintro _ ⟨⟩ env s hs
      simp only [Sites.stmt, List.cons_append, List.mem_cons, List.mem_append] at hs
      rcases hs with rfl | hs | hs
      · exact hr.2
      · exact hr.1 env s hs
      · exact hf env s hs
    next =>
      refine gives_advance.bind fun _ _ => (passes_accept _).bind fun _ _ => .ite (fun _ => ?_)
        fun _ => ?_
      · refine gives_identifier.bind fun name _ => (passes_binder _ _).bind fun b _ =>
          (gives_functionBody fuel depth _ _ _).bind fun f hf => .pure ?_
        rintro _ ⟨⟩
        simpa only [RegularStmt, Sites.stmt] using hf.within _
      · have hlocals : ∀ (bs : List Binder) (values : List Expr) (line : Nat),
            RegularExprs values → ∀ x, some (Stmt.locals bs values line) = some x →
              RegularStmt x := by
          rintro bs values line hvalues _ ⟨⟩
          simpa only [RegularStmt, RegularExprs, Sites.stmt] using hvalues
        exact (passes_attributed fuel).bind fun bs _ => (passes_accept _).bind fun _ _ => .ite
          (fun _ => (gives_expressions fuel depth variadic).bind fun es hes =>
            .pure (hlocals bs es _ hes))
          fun _ => (Gives.pure hnil).bind fun es hes => .pure (hlocals bs es _ hes)
    next =>
      refine gives_advance.bind fun _ _ => gives_identifier.bind fun _ _ =>
        (passes_consumeSymbol _).bind fun _ _ => .pure ?_
      rintro _ ⟨⟩
      simpa only [RegularStmt, Sites.stmt] using RegularPart.nil
    next =>
      refine gives_advance.bind fun _ _ => .pure ?_
      rintro _ ⟨⟩ env s hs
      obtain rfl := List.mem_singleton.mp hs
      trivial
    next =>
      refine gives_advance.bind fun _ _ => gives_identifier.bind fun _ _ => .pure ?_
      rintro _ ⟨⟩
      simpa only [RegularStmt, Sites.stmt] using RegularPart.nil
    next =>
      refine (gives_suffixed fuel depth variadic).bind fun first hfirst =>
        (passes_check _).bind fun _ _ => (passes_check _).bind fun _ _ => .ite (fun _ => ?_)
          fun _ => .ite (fun _ => .pure ?_) fun _ => gives_complain _
      · refine (gives_targetsAfter fuel depth variadic first hfirst).bind fun ts hts => .ite
          (fun _ => (gives_complain _).bind fun _ (h : False) => h.elim) fun hall =>
            (passes_consumeSymbol _).bind fun _ _ =>
              (gives_expressions fuel depth variadic).bind fun es hes => .pure ?_
        rintro _ ⟨⟩ env s hs
        simp only [Sites.stmt, List.mem_append, List.mem_map] at hs
        rcases hs with (⟨t, ht, rfl⟩ | hs) | hs
        · exact List.all_eq_true.mp (by simpa using hall) t ht
        · exact hts env s hs
        · exact hes env s hs
      · rintro _ ⟨⟩
        simpa only [RegularStmt, RegularExpr, Sites.stmt] using hfirst

theorem gives_elseParts : (fuel depth : Nat) → (variadic : Bool) →
    Gives (fun r => RegularBranches r.1 ∧ ∀ ss, r.2 = some ss → RegularStmts ss)
      (elseParts fuel depth variadic)
  | 0, _, _ => by
    rw [elseParts]
    exact gives_exhausted
  | fuel + 1, depth, variadic => by
    have hnil : RegularBranches [] := by
      simpa only [RegularBranches, Sites.branches] using RegularPart.nil
    rw [elseParts]
    refine (passes_accept _).bind fun _ _ => .ite (fun _ => ?_) fun _ =>
      (passes_accept _).bind fun _ _ => .ite (fun _ => ?_) fun _ => .pure ⟨hnil, by simp⟩
    · refine (gives_binary fuel 0 depth variadic).bind fun e he =>
        (passes_consumeKeyword _).bind fun _ _ => (gives_block fuel depth variadic).bind
          fun body hbody => (gives_elseParts fuel depth variadic).bind fun r hr => .pure ⟨?_, hr.2⟩
      simpa only [RegularBranches, Sites.branches, Sites.branch] using (he.append hbody).append hr.1
    · exact (gives_block fuel depth variadic).bind fun body hbody =>
        .pure ⟨hnil, fun _ heq => Option.some.inj heq ▸ hbody⟩

theorem gives_forStatement : (fuel depth : Nat) → (variadic : Bool) → (line : Nat) →
    Gives RegularStmt (forStatement fuel depth variadic line)
  | 0, _, _, _ => by
    rw [forStatement]
    exact gives_exhausted
  | fuel + 1, depth, variadic, line => by
    rw [forStatement]
    refine gives_identifier.bind fun _ _ => (passes_binder _ _).bind fun first _ =>
      (passes_accept _).bind fun _ _ => .ite (fun _ => ?_) fun _ => ?_
    · have hrest : ∀ (start stop : Expr) (step : Option Expr), RegularExpr start →
          RegularExpr stop → (∀ e, step = some e → RegularExpr e) → Gives RegularStmt (do
            consumeKeyword .kwDo
            let body ← block fuel depth variadic
            let _ ← closing .kwEnd "for" line
            return .numericFor first start stop step body line) := by
        intro start stop step hstart hstop hstep
        refine (passes_consumeKeyword _).bind fun _ _ => (gives_block fuel depth variadic).bind
          fun body hbody => (passes_closing _ _ _).bind fun _ _ => .pure ?_
        cases step with
        | none =>
          simpa only [RegularStmt, Sites.stmt, List.append_nil] using
            (hstart.append hstop).append (hbody.within _)
        | some e =>
          simpa only [RegularStmt, Sites.stmt] using
            ((hstart.append hstop).append (hstep e rfl)).append (hbody.within _)
      have hpure : ∀ step : Option Expr, (∀ e, step = some e → RegularExpr e) →
          Gives (fun s => ∀ e, s = some e → RegularExpr e) (pure step) := fun _ hstep => .pure hstep
      exact (gives_binary fuel 0 depth variadic).bind fun start hstart =>
        (passes_consumeSymbol _).bind fun _ _ => (gives_binary fuel 0 depth variadic).bind
          fun stop hstop => (passes_accept _).bind fun _ _ => .ite
            (fun _ => (gives_binary fuel 0 depth variadic).bind fun e he =>
              (hpure (some e) fun _ heq => Option.some.inj heq ▸ he).bind fun step hstep =>
                hrest start stop step hstart hstop hstep)
            fun _ => (hpure none (by simp)).bind fun step hstep =>
              hrest start stop step hstart hstop hstep
    · refine (passes_furtherNames fuel).bind fun more _ => (passes_consume _ _).bind fun _ _ =>
        (gives_expressions fuel depth variadic).bind fun es hes =>
          (passes_consumeKeyword _).bind fun _ _ => (gives_block fuel depth variadic).bind
            fun body hbody => (passes_closing _ _ _).bind fun _ _ => .pure ?_
      intro env s hs
      have hrest := hes.append (hbody.within fun env => env.counting.loop.declare (first :: more))
      simp only [Sites.stmt] at hs
      rcases List.mem_cons.mp hs with rfl | hs
      · exact List.cons_ne_nil _ _
      · exact hrest env s hs

theorem gives_targetsAfter : (fuel depth : Nat) → (variadic : Bool) → (first : Expr) →
    RegularExpr first → Gives RegularExprs (targetsAfter fuel depth variadic first)
  | 0, _, _, _, _ => by
    rw [targetsAfter]
    exact gives_exhausted
  | fuel + 1, depth, variadic, first, hfirst => by
    rw [targetsAfter]
    exact (passes_accept _).bind fun _ _ => .ite
      (fun _ => (gives_suffixed fuel depth variadic).bind fun next hnext =>
        (gives_targetsAfter fuel depth variadic next hnext).bind fun rest hrest => .pure (by
          simpa only [RegularExprs, Sites.exprs] using hfirst.append hrest))
      fun _ => .pure (by
        simpa only [RegularExprs, RegularExpr, Sites.exprs, List.append_nil] using hfirst)

end

theorem program_regular {ts : List Token} {body : Block} (hts : ∀ t ∈ ts, t.Named)
    (h : program ts = .ok body) : RegularStmts body := by
  unfold program at h
  simp only at h
  split at h
  next body' st hrun =>
    cases h
    have hgives : Gives RegularStmts (do
        checkError
        let body ← block (callsPerToken * (ts.length + 1)) 0 true
        if !(← check .endOfText) then complain (.expected "'<eof>'")
        return body) :=
      passes_checkError.bind fun _ _ => (gives_block _ 0 true).bind fun body hbody =>
        (passes_check _).bind fun _ _ => .ite
          (fun _ => (gives_complain _).bind fun _ (h : False) => h.elim) fun _ => .pure hbody
    exact (hgives ⟨ts, 0⟩ body st hts hrun).1
  next => cases h

end Parser

/-- Every place of a program that the parser accepts is regular. -/
theorem parse_regular {text : String} {program : Block} (h : parse text = .ok program) :
    ∀ s ∈ sites program, s.Regular :=
  Parser.program_regular (named_tokens text) h {}

end LuaMachine
