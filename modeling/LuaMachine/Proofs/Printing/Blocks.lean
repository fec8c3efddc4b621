import LuaMachine.Proofs.Printing.Expressions
import LuaMachine.Proofs.Printing.Names
/-! # Reading blocks

A statement is read where a semicolon or the end of its block comes next, a block where a word
comes next that ends it.

* `Parser.ReadsStmt`, `Parser.ReadsBlock`: how statements and blocks are read.
* `readsBlock`, `readsFunction`: blocks and functions, if their statements are read.
-/
set_option autoImplicit false

namespace LuaMachine
namespace Parser

/-! ## Where statements end and begin -/

/-- A block ends with this. -/
def endsBlock : TokenKind → Bool
  | .keyword .kwElse | .keyword .kwElseif | .keyword .kwEnd | .keyword .kwUntil => true
  | .endOfText => true
  | _ => false

/-- Behind a statement comes a semicolon or the end of the block. -/
def closes (k : TokenKind) : Bool := k = .symbol .semicolon || endsBlock k

theorem takes_blockEnds {p : Ahead} :
    Takes p blockEnds 0 (· = endsBlock (nextKind p.words)) p := by
  refine takes_currentKind.step fun k hk => ?_
  rw [← hk]
  clear hk
  split
  all_goals first
    | exact takes_pure rfl
    | exact takes_pure (by unfold endsBlock; split <;> simp_all)

theorem closes_of_endsBlock {k : TokenKind} (h : endsBlock k = true) : closes k = true := by
  rw [closes, h, Bool.or_true]

theorem closes_cases {k : TokenKind} (h : closes k = true) :
    k = .symbol .semicolon ∨ k = .endOfText ∨ k = .keyword .kwElse ∨ k = .keyword .kwElseif ∨
      k = .keyword .kwEnd ∨ k = .keyword .kwUntil := by
  simp only [closes, Bool.or_eq_true, decide_eq_true_eq] at h
  rcases h with h | h
  · exact .inl h
  · unfold endsBlock at h
    split at h
    all_goals simp_all

theorem stops_of_closes {k : TokenKind} (h : closes k = true) : Stops 0 k := by
  rcases closes_cases h with rfl | rfl | rfl | rfl | rfl | rfl <;> decide

theorem ne_of_closes {k : TokenKind} {s : Symbol} (h : closes k = true) (hs : s ≠ .semicolon) :
    k ≠ .symbol s := by
  rcases closes_cases h with rfl | rfl | rfl | rfl | rfl | rfl
  · exact fun heq => hs (TokenKind.symbol.inj heq).symm
  all_goals simp

theorem endsBlock_of_starts {k : TokenKind} (h : starts k = true) : endsBlock k = false := by
  unfold endsBlock
  split
  all_goals first | rfl | cases h

/-! ## How statements are read -/

abbrev SameStmt (n : Nat) (s s' : Stmt) : Prop :=
  Unlined.stmt s' = Unlined.stmt (Numbering.stmt n s).1

abbrev SameStmts (n : Nat) (ss ss' : List Stmt) : Prop :=
  Unlined.stmts ss' = Unlined.stmts (Numbering.stmts n ss).1

section Forms

variable (style : Style) (variadic : Bool)

/-- A block up to the word that ends it. -/
def ReadsBlock (ss : List Stmt) : Prop :=
  ∀ fuel depth n ws, depth ≤ maxLevels → Room 9 fuel (style.stmts ss ++ ws) →
    endsBlock (nextKind ws) = true →
    Takes ⟨style.stmts ss ++ ws, n⟩ (block fuel depth variadic)
      (depth + Nesting.stmts style ss) (SameStmts n ss) ⟨ws, (Numbering.stmts n ss).2⟩

/-- A statement other than `return`. -/
structure ReadsStatement (s : Stmt) : Prop where
  first : ∀ ws, endsBlock (nextKind (style.stmt s ++ ws)) = false ∧
    nextKind (style.stmt s ++ ws) ≠ .keyword .kwReturn
  levels : 1 ≤ Nesting.stmt style s
  reads : ∀ fuel depth n ws, Room 8 fuel (style.stmt s ++ ws) → closes (nextKind ws) = true →
    Takes ⟨style.stmt s ++ ws, n⟩ (statement fuel depth variadic)
      (depth + Nesting.stmt style s) (fun r => ∃ s', r = some s' ∧ SameStmt n s s')
      ⟨ws, (Numbering.stmt n s).2⟩

/-- A `return`, behind which the block ends. -/
def ReadsReturn (s : Stmt) : Prop :=
  ∀ fuel depth n ws, depth ≤ maxLevels → Room 1 fuel (style.stmt s ++ ws) →
    endsBlock (nextKind ws) = true →
    Takes ⟨style.stmt s ++ ws, n⟩ (returnStatement fuel depth variadic)
      (depth + Nesting.stmt style s) (SameStmt n s) ⟨ws, (Numbering.stmt n s).2⟩

def ReadsStmt (s : Stmt) : Prop :=
  if s.isReturn then ReadsReturn style variadic s else ReadsStatement style variadic s

def ReadsBranch : Branch → Prop
  | .mk condition body => Readable style variadic condition ∧ ReadsBlock style variadic body

end Forms

section Statements

variable {style : Style} {variadic : Bool} {line : Nat}

/-! ### Blocks -/

/-- A semicolon is no statement. -/
theorem takes_semicolon {fuel depth n : Nat} {ws : List Word}
    (hroom : Room 1 fuel (.symbol .semicolon :: ws)) :
    Takes ⟨.symbol .semicolon :: ws, n⟩ (statement fuel depth variadic) (depth + 1) (· = none)
      ⟨ws, n⟩ := by
  obtain ⟨fuel, rfl, -⟩ := hroom.call
  rw [statement]
  refine (takes_enter depth).done fun d hd => takes_current_word.step fun t ht => ?_
  obtain ⟨l, rfl⟩ := ht
  exact takes_advance.step fun _ _ => takes_pure rfl

theorem readsReturn {values : List Expr} (hvalues : ∀ e ∈ values, Readable style variadic e) :
    ReadsReturn style variadic (.ret values line) := by
  intro fuel depth n ws hdepth hroom hends
  obtain ⟨fuel, rfl, hcall⟩ := hroom.call
  change Room _ _ (.keyword .kwReturn :: (style.exprs values ++ ws)) at hcall
  change Takes ⟨.keyword .kwReturn :: (style.exprs values ++ ws), n⟩ _ _ _ _
  have hcloses := closes_of_endsBlock hends
  have hsemicolon : nextKind ws ≠ .symbol .semicolon := by
    intro heq
    rw [heq] at hends
    cases hends
  have hdone : ∀ es', SameExprs n values es' → ∀ l, Takes ⟨ws, (Numbering.exprs n values).2⟩ (do
      let _ ← acceptSymbol .semicolon
      return Stmt.ret es' l) 0 (SameStmt n (.ret values line)) ⟨ws, (Numbering.exprs n values).2⟩ :=
    fun es' hes' l => (takes_accept_none hsemicolon).step fun _ _ => takes_pure (by
      simp only [SameStmt, Unlined.stmt, Numbering.stmt, hes'])
  rw [returnStatement]
  refine takes_advance.step fun t ht => takes_blockEnds.step fun bare hbare => ?_
  by_cases hnil : values = []
  · subst hnil
    refine Takes.of_eq (Takes.raise ?_ hdepth) (Nat.max_zero _)
    refine (takes_check _).step fun c hc => ?_
    dsimp only
    rw [if_pos (hbare.trans hends)]
    exact (takes_pure (Q := (· = [])) rfl).step
      fun es' hes' => hdone es' (by subst hes'; rfl) t.line
  · have hstarts := exprs_starts hnil hvalues ws
    refine (takes_check _).step fun c hc => ?_
    dsimp only
    rw [hbare, if_neg (ne_true_of_eq_false (endsBlock_of_starts hstarts)), hc,
      if_neg (by simpa using ne_of_starts hstarts rfl)]
    exact (takes_expressions hnil hvalues (hcall.tail.le (by omega)) (stops_of_closes hcloses)
      (ne_of_closes hcloses (by decide))).done fun es' hes' => hdone es' hes' t.line

theorem ReadsStatement.words {s : Stmt} (h : ReadsStatement style variadic s) :
    ∃ w us, style.stmt s = w :: us := by
  cases hwords : style.stmt s with
  | nil =>
    have hfirst := (h.first []).1
    rw [hwords] at hfirst
    cases hfirst
  | cons w us => exact ⟨w, us, rfl⟩

theorem readsBlock_nil : ReadsBlock style variadic [] := by
  intro fuel depth n ws hdepth hroom hends
  obtain ⟨fuel, rfl, -⟩ := hroom.call
  change Takes ⟨ws, n⟩ _ _ _ _
  rw [block]
  refine Takes.of_eq (Takes.raise (takes_blockEnds.step fun b hb => ?_) hdepth) (Nat.max_zero _)
  rw [if_pos (hb.trans hends)]
  exact takes_pure rfl

theorem readsBlock_return {values : List Expr}
    (h : ReadsReturn style variadic (.ret values line)) :
    ReadsBlock style variadic [.ret values line] := by
  intro fuel depth n ws hdepth hroom hends
  obtain ⟨fuel, rfl, hcall⟩ := hroom.call
  have hwords : style.stmts [.ret values line] ++ ws = style.stmt (.ret values line) ++ ws := by
    rw [Style.stmts, Style.behind, List.append_nil]
  have hfirst : nextKind (style.stmt (.ret values line) ++ ws) = .keyword .kwReturn := rfl
  rw [hwords] at hcall ⊢
  rw [block]
  refine takes_blockEnds.step fun b hb => ?_
  rw [hb, hfirst, if_neg (by decide)]
  refine (takes_check _).step fun c hc => ?_
  rw [if_pos (hc.trans (decide_eq_true hfirst))]
  refine ((h fuel depth n ws hdepth (hcall.le (by omega)) hends).done fun s' hs' =>
    takes_pure ?_).of_eq ?_
  · simp only [SameStmts, Unlined.stmts, Numbering.stmts, hs']
  · rw [Nesting.stmts, Nesting.stmts, Nat.max_zero]

/-- A semicolon in front of a block. -/
theorem takes_block_semicolon {ss : List Stmt} (h : ReadsBlock style variadic ss)
    {fuel depth n : Nat} {ws : List Word} (hdepth : depth ≤ maxLevels)
    (hroom : Room 9 fuel (.symbol .semicolon :: (style.stmts ss ++ ws)))
    (hends : endsBlock (nextKind ws) = true) :
    Takes ⟨.symbol .semicolon :: (style.stmts ss ++ ws), n⟩ (block fuel depth variadic)
      (max (depth + 1) (depth + Nesting.stmts style ss)) (SameStmts n ss)
      ⟨ws, (Numbering.stmts n ss).2⟩ := by
  obtain ⟨fuel, rfl, hcall⟩ := hroom.call
  rw [block]
  refine takes_blockEnds.step fun b hb => ?_
  rw [hb, if_neg (by simp [endsBlock])]
  refine (takes_check _).step fun c hc => ?_
  rw [hc, if_neg (by simp)]
  refine (takes_semicolon (hcall.le (by omega))).bind fun s? hs? => ?_
  rw [hs?]
  exact h fuel depth n ws hdepth (hcall.tail.le (by omega)) hends

/-- A statement in front of a block, which begins with a semicolon if it has statements. -/
theorem readsBlock_cons {s : Stmt} {rest : List Stmt} (hs : ReadsStatement style variadic s)
    (hrest : ReadsBlock style variadic rest) : ReadsBlock style variadic (s :: rest) := by
  intro fuel depth n ws hdepth hroom hends
  obtain ⟨fuel, rfl, hcall⟩ := hroom.call
  have hwords : style.stmts (s :: rest) ++ ws =
      style.stmt s ++ (Style.behind .semicolon rest (style.stmts rest) ++ ws) := by
    rw [Style.stmts, List.append_assoc]
  rw [hwords] at hcall ⊢
  have hbehind : Room 32 fuel (Style.behind .semicolon rest (style.stmts rest) ++ ws) := by
    obtain ⟨w, us, hstmt⟩ := hs.words
    rw [hstmt, List.cons_append] at hcall
    exact hcall.tail.drop
  have hcloses :
      closes (nextKind (Style.behind .semicolon rest (style.stmts rest) ++ ws)) = true := by
    cases rest with
    | nil => exact closes_of_endsBlock hends
    | cons s₂ rest => rfl
  have hlevels := hs.levels
  rw [block]
  refine takes_blockEnds.step fun b hb => ?_
  rw [hb, if_neg (ne_true_of_eq_false (hs.first _).1)]
  refine (takes_check _).step fun c hc => ?_
  rw [hc, if_neg (by simpa using (hs.first _).2)]
  have hstmt := hs.reads fuel depth n _ (hcall.le (by omega)) hcloses
  cases rest with
  | nil =>
    refine (hstmt.bind fun s? hs? => ?_).of_eq (k := max (depth + Nesting.stmt style s)
      (depth + Nesting.stmts style [])) (Nat.add_max_add_left ..)
    obtain ⟨s', rfl, hs'⟩ := hs?
    refine (hrest fuel depth _ ws hdepth (hbehind.le (by omega)) hends).done
      fun ss' hss' => takes_pure ?_
    rw [SameStmts, Numbering.stmts, Unlined.stmts, Unlined.stmts, hs', hss']
  | cons s₂ rest =>
    refine (hstmt.bind fun s? hs? => ?_).of_eq (k := max (depth + Nesting.stmt style s)
      (max (depth + 1) (depth + Nesting.stmts style (s₂ :: rest)))) ?_
    · obtain ⟨s', rfl, hs'⟩ := hs?
      refine (takes_block_semicolon hrest hdepth (hbehind.le (by omega)) hends).done
        fun ss' hss' => takes_pure ?_
      rw [SameStmts, Numbering.stmts, Unlined.stmts, Unlined.stmts, hs', hss']
    · change _ = depth + max (Nesting.stmt style s) (Nesting.stmts style (s₂ :: rest))
      omega

theorem readsBlock : {ss : List Stmt} → Grammar.stmts style variadic ss →
    (∀ s ∈ ss, ReadsStmt style variadic s) → ReadsBlock style variadic ss
  | [], _, _ => readsBlock_nil
  | s :: rest, hgrammar, hread => by
    obtain ⟨hlast, -, hrest⟩ := hgrammar
    have hs := hread s List.mem_cons_self
    cases s with
    | ret values line =>
      obtain rfl := hlast rfl
      exact readsBlock_return hs
    | _ =>
      exact readsBlock_cons hs
        (readsBlock hrest fun s hs => hread s (List.mem_cons_of_mem _ hs))

/-! ### Functions -/

theorem readsFunction {method : Bool} {name : String} {params : List Binder} {body : List Stmt}
    {endLine : Nat} (hself : method = true → SelfParameter params)
    (hconstant : ∀ b ∈ params, b.constant = false) (hbody : ReadsBlock style variadic body) :
    ReadsFunction style method (.mk name params variadic body line endLine) := by
  intro fuel depth functionLine n ws hdepth hroom
  obtain ⟨fuel, rfl, hcall⟩ := hroom.call
  generalize hwritten : (if method then params.tail else params) = written
  have hwords : style.function method (.mk name params variadic body line endLine) ++ ws =
      .symbol .leftParen :: (Style.parameters written variadic ++ .symbol .rightParen ::
        (style.stmts body ++ .keyword .kwEnd :: ws)) := by
    rw [Style.function, hwritten]
    simp only [List.append_assoc, List.cons_append, List.nil_append]
  rw [hwords] at hcall ⊢
  have hlist : ∀ b ∈ written, b.constant = false := by
    intro b hb
    subst hwritten
    cases method with
    | true => exact hconstant b (List.mem_of_mem_tail hb)
    | false => exact hconstant b hb
  rw [functionBody]
  refine (takes_consumeSymbol _).step fun _ _ => ?_
  -- what is read behind the binder of `self`, if there is one
  have hrest : ∀ (self : List Binder) (m : Nat), self ++ Numbering.binders m written =
      Numbering.binders n params → m + written.length = n + params.length →
      Takes ⟨Style.parameters written variadic ++ .symbol .rightParen ::
        (style.stmts body ++ .keyword .kwEnd :: ws), m⟩ (do
          let none ← checkSymbol .rightParen
          let f : List Binder × Bool → Parse Function := fun r => do
            consumeSymbol .rightParen
            let body ← block fuel depth r.2
            let last ← closing .kwEnd "function" functionLine
            return .mk name (self ++ r.1) r.2 body functionLine last.line
          if none = true then pure ([], false) >>= f else parameters fuel >>= f)
        (depth + Nesting.stmts style body)
        (SameFunction n (.mk name params variadic body line endLine))
        ⟨ws, (Numbering.stmts (n + params.length) body).2⟩ := by
    intro self m hbinders hlength
    refine takes_parameterList hlist (hcall.tail.le (by omega)) ?_
    rw [hlength]
    refine (takes_consumeSymbol _).step fun _ _ => (hbody fuel depth _ _ hdepth
      (hcall.tail.drop.tail.le (by omega)) rfl).done fun body' hbody' => ?_
    refine (takes_consume _ rfl).step fun last _ => takes_pure ?_
    simp only [SameFunction, Unlined.function, Numbering.function, hbinders, hbody']
  cases method with
  | true =>
    obtain ⟨m, rest, rfl⟩ := hself rfl
    subst hwritten
    refine (takes_binder "self" false).step fun b hb => ?_
    rw [pure_bind, hb]
    exact hrest _ (n + 1) rfl (Nat.add_right_comm n 1 rest.length)
  | false =>
    subst hwritten
    exact hrest [] n rfl rfl

end Statements

end Parser
end LuaMachine
