import LuaMachine.Proofs.Printing.Blocks
/-! # Reading statements

Each kind of statement is read, if its parts are.

* `readsStatement_cond`, `readsStatement_assign` and the like: one for each kind of statement.
-/
set_option autoImplicit false

namespace LuaMachine
namespace Parser

section Statements

variable {style : Style} {variadic : Bool} {line : Nat}

/-! ## Simple statements -/

/-- A statement enters a level and looks at its first word. -/
theorem takes_entered {α : Type} {depth n peak : Nat} {w : Word} {ws : List Word}
    {f : Nat → Token → Parse α} {Q : α → Prop} {q : Ahead}
    (h : ∀ l, depth + 1 ≤ maxLevels → Takes ⟨w :: ws, n⟩ (f (depth + 1) (w.token l)) peak Q q) :
    Takes ⟨w :: ws, n⟩ (do
      let depth ← enter depth
      let t ← current
      f depth t) (max (depth + 1) peak) Q q := by
  refine (takes_enter depth).bind fun d hd => takes_current_word.step fun t ht => ?_
  obtain ⟨rfl, hdepth⟩ := hd
  obtain ⟨l, rfl⟩ := ht
  exact h l hdepth

/-- The keyword or symbol that a statement begins with. -/
theorem first_of_word {s : Stmt} {w : Word} {us : List Word} (hwords : style.stmt s = w :: us)
    (hends : endsBlock w.kind = false) (hreturn : w.kind ≠ .keyword .kwReturn) (ws : List Word) :
    endsBlock (nextKind (style.stmt s ++ ws)) = false ∧
      nextKind (style.stmt s ++ ws) ≠ .keyword .kwReturn := by
  rw [hwords]
  exact ⟨hends, hreturn⟩

theorem readsStatement_exit : ReadsStatement style variadic (.exit line) where
  first := first_of_word rfl rfl (by simp)
  levels := Nat.le_refl _
  reads := by
    intro fuel depth n ws hroom _
    obtain ⟨fuel, rfl, -⟩ := hroom.call
    rw [statement]
    refine (takes_entered (w := .keyword .kwBreak) fun l _ => ?_).of_eq (Nat.max_zero _)
    exact takes_advance.step fun _ _ => takes_pure ⟨_, rfl, rfl⟩

theorem readsStatement_goto {label : String} :
    ReadsStatement style variadic (.goto label line) where
  first := first_of_word rfl rfl (by simp)
  levels := Nat.le_refl _
  reads := by
    intro fuel depth n ws hroom _
    obtain ⟨fuel, rfl, -⟩ := hroom.call
    rw [statement]
    refine (takes_entered (w := .keyword .kwGoto) fun l _ => ?_).of_eq (Nat.max_zero _)
    exact takes_advance.step fun _ _ => (takes_identifier label).step fun t ht =>
      takes_pure ⟨_, rfl, congrArg (Stmt.goto · 0) ht⟩

theorem readsStatement_label {name : String} :
    ReadsStatement style variadic (.label name line) where
  first := first_of_word rfl rfl (by simp)
  levels := Nat.le_refl _
  reads := by
    intro fuel depth n ws hroom _
    obtain ⟨fuel, rfl, -⟩ := hroom.call
    rw [statement]
    refine (takes_entered (w := .symbol .colonColon) fun l _ => ?_).of_eq (Nat.max_zero _)
    exact takes_advance.step fun _ _ => (takes_identifier name).step fun t ht =>
      (takes_consumeSymbol _).step fun _ _ => takes_pure ⟨_, rfl, congrArg (Stmt.label · 0) ht⟩

/-! ## Statements with blocks -/

section Bodies

variable {body : List Stmt} {condition : Expr}

theorem readsStatement_block (hbody : ReadsBlock style variadic body) :
    ReadsStatement style variadic (.block body line) where
  first := first_of_word rfl rfl (by simp)
  levels := Nat.succ_pos _
  reads := by
    intro fuel depth n ws hroom _
    obtain ⟨fuel, rfl, hcall⟩ := hroom.call
    have hwords : style.stmt (.block body line) ++ ws =
        .keyword .kwDo :: (style.stmts body ++ .keyword .kwEnd :: ws) := by
      rw [Style.stmt]
      simp only [List.append_assoc, List.cons_append, List.nil_append]
    rw [hwords] at hcall ⊢
    rw [statement]
    refine (takes_entered fun l hdepth => takes_advance.step fun _ _ =>
      (hbody fuel _ n _ hdepth (hcall.tail.le (by omega)) rfl).done fun body' hbody' =>
        (takes_closing _ _ _).step fun _ _ => takes_pure ⟨_, rfl, ?_⟩).of_eq ?_
    · rw [Nesting.stmt]
      omega
    · simp only [SameStmt, Unlined.stmt, Numbering.stmt, hbody']

theorem readsStatement_while (hcondition : Readable style variadic condition)
    (hbody : ReadsBlock style variadic body) :
    ReadsStatement style variadic (.whileLoop condition body line) where
  first := first_of_word rfl rfl (by simp)
  levels := Nat.succ_pos _
  reads := by
    intro fuel depth n ws hroom _
    obtain ⟨fuel, rfl, hcall⟩ := hroom.call
    have hwords : style.stmt (.whileLoop condition body line) ++ ws =
        .keyword .kwWhile :: (style.expr condition ++ .keyword .kwDo ::
          (style.stmts body ++ .keyword .kwEnd :: ws)) := by
      rw [Style.stmt]
      simp only [List.append_assoc, List.cons_append, List.nil_append]
    rw [hwords] at hcall ⊢
    rw [statement]
    refine (takes_entered fun l hdepth => takes_advance.step fun _ _ =>
      (hcondition.whole (hcall.tail.le (by omega)) (stops_keyword (by decide))).bind
        fun condition' hcondition' => (takes_consumeKeyword _).step fun _ _ =>
          (hbody fuel _ _ _ hdepth (hcall.tail.drop.tail.le (by omega)) rfl).done
            fun body' hbody' => (takes_closing _ _ _).step fun _ _ =>
              takes_pure ⟨_, rfl, ?_⟩).of_eq ?_
    · rw [Nesting.stmt]
      omega
    · simp only [SameStmt, Unlined.stmt, Numbering.stmt, hcondition', hbody']

theorem readsStatement_repeat (hbody : ReadsBlock style variadic body)
    (hcondition : Readable style variadic condition) :
    ReadsStatement style variadic (.repeatLoop body condition line) where
  first := first_of_word rfl rfl (by simp)
  levels := Nat.succ_pos _
  reads := by
    intro fuel depth n ws hroom hcloses
    obtain ⟨fuel, rfl, hcall⟩ := hroom.call
    have hwords : style.stmt (.repeatLoop body condition line) ++ ws =
        .keyword .kwRepeat :: (style.stmts body ++ .keyword .kwUntil ::
          (style.expr condition ++ ws)) := by
      rw [Style.stmt]
      simp only [List.append_assoc, List.cons_append]
    rw [hwords] at hcall ⊢
    rw [statement]
    refine (takes_entered fun l hdepth => takes_advance.step fun _ _ =>
      (hbody fuel _ _ _ hdepth (hcall.tail.le (by omega)) rfl).bind fun body' hbody' =>
        (takes_closing _ _ _).step fun _ _ =>
          (hcondition.whole (hcall.tail.drop.tail.le (by omega)) (stops_of_closes hcloses)).done
            fun condition' hcondition' => takes_pure ⟨_, rfl, ?_⟩).of_eq ?_
    · rw [Nesting.stmt]
      omega
    · simp only [SameStmt, Unlined.stmt, Numbering.stmt, hcondition', hbody']

abbrev SameBranches (n : Nat) (bs bs' : List Branch) : Prop :=
  Unlined.branches bs' = Unlined.branches (Numbering.branches n bs).1

abbrev SameAlternative (n : Nat) (o o' : Option (List Stmt)) : Prop :=
  Unlined.alternative o' = Unlined.alternative (Numbering.alternative n o).1

/-- The first block of an `if` ends where its other parts begin. -/
theorem endsBlock_elseParts (style : Style) (more : List Branch) (otherwise : Option (List Stmt))
    (ws : List Word) : endsBlock (nextKind
      (style.branches more ++ (style.alternative otherwise ++ .keyword .kwEnd :: ws))) = true := by
  cases more with
  | nil => cases otherwise <;> rfl
  | cons b rest =>
    obtain ⟨_, _⟩ := b
    rfl

theorem takes_elseParts {more : List Branch} {otherwise : Option (List Stmt)}
    (hmore : ∀ b ∈ more, ReadsBranch style variadic b)
    (hotherwise : ∀ ss, otherwise = some ss → ReadsBlock style variadic ss) {fuel depth n : Nat}
    {ws : List Word} (hdepth : depth ≤ maxLevels)
    (hroom : Room 1 fuel
      (style.branches more ++ (style.alternative otherwise ++ .keyword .kwEnd :: ws))) :
    Takes ⟨style.branches more ++ (style.alternative otherwise ++ .keyword .kwEnd :: ws), n⟩
      (elseParts fuel depth variadic)
      (depth + max (Nesting.branches style more) (Nesting.alternative style otherwise))
      (fun r => SameBranches n more r.1 ∧
        SameAlternative (Numbering.branches n more).2 otherwise r.2)
      ⟨.keyword .kwEnd :: ws,
        (Numbering.alternative (Numbering.branches n more).2 otherwise).2⟩ := by
  induction more generalizing fuel n with
  | nil =>
    obtain ⟨fuel, rfl, hcall⟩ := hroom.call
    change Room _ _ (style.alternative otherwise ++ .keyword .kwEnd :: ws) at hcall
    change Takes ⟨style.alternative otherwise ++ .keyword .kwEnd :: ws, n⟩ _ _ _ _
    rw [elseParts]
    cases otherwise with
    | none =>
      refine Takes.of_eq (Takes.raise ?_ hdepth) (Nat.max_zero _)
      refine (takes_accept_none (by simp [Style.alternative])).step fun c hc => ?_
      rw [hc, if_neg Bool.false_ne_true]
      refine (takes_accept_none (by simp [Style.alternative])).step fun c hc => ?_
      rw [hc, if_neg Bool.false_ne_true]
      exact takes_pure ⟨rfl, rfl⟩
    | some body =>
      change Room _ _ (.keyword .kwElse :: (style.stmts body ++ .keyword .kwEnd :: ws)) at hcall
      refine (takes_accept_none (by simp [Style.alternative])).step fun c hc => ?_
      rw [hc, if_neg Bool.false_ne_true]
      refine (takes_accept rfl).step fun c hc => ?_
      rw [if_pos hc]
      refine ((hotherwise body rfl fuel depth n _ hdepth (hcall.tail.le (by omega)) rfl).done
        fun body' hbody' => takes_pure ⟨rfl, ?_⟩).of_eq ?_
      · rw [Nesting.branches, Nesting.alternative, Nat.zero_max]
      · rw [SameAlternative, Numbering.branches, Numbering.alternative, Unlined.alternative,
          Unlined.alternative, hbody']
  | cons b rest ih =>
    obtain ⟨condition, body⟩ := b
    obtain ⟨hcondition, hbody⟩ := hmore _ List.mem_cons_self
    obtain ⟨fuel, rfl, hcall⟩ := hroom.call
    have hwords : style.branches (.mk condition body :: rest) ++
        (style.alternative otherwise ++ .keyword .kwEnd :: ws) =
        .keyword .kwElseif :: (style.expr condition ++ .keyword .kwThen :: (style.stmts body ++
          (style.branches rest ++ (style.alternative otherwise ++ .keyword .kwEnd :: ws)))) := by
      rw [Style.branches, Style.branch]
      simp only [List.append_assoc, List.cons_append]
    have hends := endsBlock_elseParts style rest otherwise ws
    rw [hwords] at hcall ⊢
    rw [elseParts]
    refine (takes_accept rfl).step fun c hc => ?_
    rw [if_pos hc]
    refine ((hcondition.whole (hcall.tail.le (by omega)) (stops_keyword (by decide))).bind
      fun condition' hcondition' => (takes_consumeKeyword _).step fun _ _ =>
        (hbody fuel depth _ _ hdepth (hcall.tail.drop.tail.le (by omega)) hends).bind
          fun body' hbody' => (ih (fun b hb => hmore b (List.mem_cons_of_mem _ hb))
            (hcall.tail.drop.tail.drop.le (by omega))).done fun r hr =>
              takes_pure ⟨?_, hr.2⟩).of_eq ?_
    · rw [Nesting.branches, Nesting.branch]
      omega
    · rw [SameBranches, Numbering.branches, Numbering.branch, Unlined.branches, Unlined.branches,
        Unlined.branch, Unlined.branch, hcondition', hbody', hr.1]

theorem readsStatement_cond {more : List Branch} {otherwise : Option (List Stmt)}
    (hcondition : Readable style variadic condition) (hbody : ReadsBlock style variadic body)
    (hmore : ∀ b ∈ more, ReadsBranch style variadic b)
    (hotherwise : ∀ ss, otherwise = some ss → ReadsBlock style variadic ss) :
    ReadsStatement style variadic (.cond condition body more otherwise line) where
  first := first_of_word rfl rfl (by simp)
  levels := Nat.succ_pos _
  reads := by
    intro fuel depth n ws hroom _
    obtain ⟨fuel, rfl, hcall⟩ := hroom.call
    have hwords : style.stmt (.cond condition body more otherwise line) ++ ws =
        .keyword .kwIf :: (style.expr condition ++ .keyword .kwThen :: (style.stmts body ++
          (style.branches more ++ (style.alternative otherwise ++ .keyword .kwEnd :: ws)))) := by
      rw [Style.stmt]
      simp only [List.append_assoc, List.cons_append, List.nil_append]
    have hends := endsBlock_elseParts style more otherwise ws
    rw [hwords] at hcall ⊢
    rw [statement]
    refine (takes_entered fun l hdepth => takes_advance.step fun _ _ =>
      (hcondition.whole (hcall.tail.le (by omega)) (stops_keyword (by decide))).bind
        fun condition' hcondition' => (takes_consumeKeyword _).step fun _ _ =>
          (hbody fuel _ _ _ hdepth (hcall.tail.drop.tail.le (by omega)) hends).bind
            fun body' hbody' => (takes_elseParts hmore hotherwise hdepth
              (hcall.tail.drop.tail.drop.le (by omega))).done fun r hr =>
                (takes_closing _ _ _).step fun _ _ => takes_pure ⟨_, rfl, ?_⟩).of_eq ?_
    · rw [Nesting.stmt]
      omega
    · rw [SameStmt, Numbering.stmt, Unlined.stmt, Unlined.stmt, hcondition', hbody', hr.1, hr.2]

/-! ## Loops over numbers and lists -/

abbrev SameIncrement (n : Nat) (o o' : Option Expr) : Prop :=
  Unlined.increment o' = Unlined.increment (Numbering.increment n o).1

theorem readsStatement_numericFor {b : Binder} {start stop : Expr} {step : Option Expr}
    (hb : b.constant = false) (hstart : Readable style variadic start)
    (hstop : Readable style variadic stop)
    (hstep : ∀ e, step = some e → Readable style variadic e)
    (hbody : ReadsBlock style variadic body) :
    ReadsStatement style variadic (.numericFor b start stop step body line) where
  first := first_of_word rfl rfl (by simp)
  levels := Nat.succ_pos _
  reads := by
    intro fuel depth n ws hroom _
    obtain ⟨fuel, rfl, hcall⟩ := hroom.call
    have hwords : style.stmt (.numericFor b start stop step body line) ++ ws =
        .keyword .kwFor :: .name b.name :: .symbol .equal :: (style.expr start ++ .symbol .comma ::
          (style.expr stop ++ (style.increment step ++ .keyword .kwDo ::
            (style.stmts body ++ .keyword .kwEnd :: ws)))) := by
      rw [Style.stmt]
      simp only [List.append_assoc, List.cons_append, List.nil_append]
    have hbinder : Binder.mk b.name n false = { b with number := n } := by rw [← hb]
    have hstops : Stops 0 (nextKind (style.increment step ++ .keyword .kwDo ::
        (style.stmts body ++ .keyword .kwEnd :: ws))) := by
      cases step with
      | none => exact stops_keyword (by decide)
      | some e => exact stops_symbol (by decide)
    rw [hwords] at hcall ⊢
    rw [statement]
    refine (takes_entered fun l hdepth => takes_advance.step fun _ _ => ?_).of_eq
      (k := max (depth + 1) (max (depth + 1 + Nesting.expr style start)
        (max (depth + 1 + Nesting.expr style stop) (max (depth + 1 + Nesting.increment style step)
          (depth + 1 + Nesting.stmts style body))))) ?_
    · obtain ⟨fuel, rfl, hfor⟩ := (hcall.tail.le (show 0 + 1 ≤ 32 by omega)).call
      rw [forStatement]
      refine Takes.done ((takes_identifier b.name).step fun t ht => (takes_binder t.text false).step
        fun b' hb' => (takes_accept rfl).step fun c hc => ?_)
        fun s' (hs' : SameStmt n (.numericFor b start stop step body line) s') =>
          takes_pure ⟨s', rfl, hs'⟩
      rw [ht, hbinder] at hb'
      rw [if_pos hc]
      refine (hstart.whole (hfor.tail.tail.le (by omega)) (stops_symbol (by decide))).bind
        fun start' hstart' => (takes_consumeSymbol _).step fun _ _ =>
          (hstop.whole (hfor.tail.tail.drop.tail.le (by omega)) hstops).bind
            fun stop' hstop' => ?_
      have hrest : ∀ step',
          SameIncrement (Numbering.expr (Numbering.expr (n + 1) start).2 stop).2 step step' →
          Takes ⟨.keyword .kwDo :: (style.stmts body ++ .keyword .kwEnd :: ws),
            (Numbering.increment (Numbering.expr (Numbering.expr (n + 1) start).2 stop).2 step).2⟩
            (do
              consumeKeyword .kwDo
              let body ← block fuel (depth + 1) variadic
              let _ ← closing .kwEnd "for" ((Word.keyword .kwFor).token l).line
              return .numericFor b' start' stop' step' body ((Word.keyword .kwFor).token l).line)
            (depth + 1 + Nesting.stmts style body)
            (SameStmt n (.numericFor b start stop step body line))
            ⟨ws, (Numbering.stmt n (.numericFor b start stop step body line)).2⟩ := by
        intro step' hstep'
        refine (takes_consumeKeyword _).step fun _ _ => (hbody fuel _ _ _ hdepth
          (hfor.tail.tail.drop.tail.drop.drop.tail.le (by omega)) rfl).done
            fun body' hbody' => (takes_closing _ _ _).step fun _ _ => takes_pure ?_
        rw [SameStmt, Numbering.stmt, Unlined.stmt, Unlined.stmt, hb', hstart', hstop', hstep',
          hbody']
      cases step with
      | none =>
        refine Takes.raise ?_ hdepth
        refine (takes_accept_none (by simp [Style.increment])).step fun c hc => ?_
        dsimp only
        rw [hc, if_neg Bool.false_ne_true, pure_bind]
        exact hrest none rfl
      | some e =>
        refine (takes_accept rfl).step fun c hc => ?_
        dsimp only
        rw [if_pos hc]
        refine ((hstep e rfl).whole (hfor.tail.tail.drop.tail.drop.tail.le (by omega))
          (stops_keyword (by decide))).bind fun e' he' => ?_
        rw [pure_bind]
        exact hrest (some e') (by
          rw [SameIncrement, Numbering.increment, Unlined.increment, Unlined.increment, he'])
    · rw [Nesting.stmt]
      omega

theorem readsStatement_genericFor {bs : List Binder} {iterators : List Expr} (hbs : bs ≠ [])
    (hconstant : ∀ b ∈ bs, b.constant = false) (hiterators : iterators ≠ [])
    (hread : ∀ e ∈ iterators, Readable style variadic e) (hbody : ReadsBlock style variadic body) :
    ReadsStatement style variadic (.genericFor bs iterators body line) where
  first := first_of_word rfl rfl (by simp)
  levels := Nat.succ_pos _
  reads := by
    intro fuel depth n ws hroom _
    obtain ⟨fuel, rfl, hcall⟩ := hroom.call
    obtain ⟨b, rest, rfl⟩ := List.exists_cons_of_ne_nil hbs
    have hwords : style.stmt (.genericFor (b :: rest) iterators body line) ++ ws =
        .keyword .kwFor :: .name b.name :: (Style.behind .comma rest (Style.names rest) ++
          .keyword .kwIn :: (style.exprs iterators ++ .keyword .kwDo ::
            (style.stmts body ++ .keyword .kwEnd :: ws))) := by
      rw [Style.stmt, Style.names]
      simp only [List.append_assoc, List.cons_append, List.nil_append]
    have hb : b.constant = false := hconstant b List.mem_cons_self
    have hbinder : Binder.mk b.name n false = { b with number := n } := by rw [← hb]
    rw [hwords] at hcall ⊢
    rw [statement]
    refine (takes_entered fun l hdepth => takes_advance.step fun _ _ => ?_).of_eq
      (k := max (depth + 1) (max (depth + 1 + Nesting.exprs style iterators)
        (depth + 1 + Nesting.stmts style body))) ?_
    · obtain ⟨fuel, rfl, hfor⟩ := (hcall.tail.le (show 0 + 1 ≤ 32 by omega)).call
      rw [forStatement]
      refine Takes.done ((takes_identifier b.name).step fun t ht => (takes_binder t.text false).step
        fun b' hb' => (takes_accept_none ?_).step fun c hc => ?_)
        fun s' (hs' : SameStmt n (.genericFor (b :: rest) iterators body line) s') =>
          takes_pure ⟨s', rfl, hs'⟩
      · cases rest <;> simp [Style.behind]
      rw [ht, hbinder] at hb'
      rw [hc, if_neg Bool.false_ne_true]
      refine (takes_furtherNames (fun b hb => hconstant b (List.mem_cons_of_mem _ hb)) (by simp)
        (hfor.tail.le (by omega))).step fun more hmore => (takes_consume _ rfl).step fun _ _ =>
          (takes_expressions hiterators hread (hfor.tail.drop.tail.le (by omega))
            (stops_keyword (by decide)) (by simp)).bind fun its' hits' =>
              (takes_consumeKeyword _).step fun _ _ => ?_
      have hlength : n + 1 + rest.length = n + (b :: rest).length :=
        Nat.add_right_comm n 1 rest.length
      rw [hlength] at hits' ⊢
      refine (hbody fuel _ _ _ hdepth (hfor.tail.drop.tail.drop.tail.le (by omega)) rfl).done
        fun body' hbody' => (takes_closing _ _ _).step fun _ _ => takes_pure ?_
      rw [SameStmt, Numbering.stmt, Unlined.stmt, Unlined.stmt, hb', hmore, hits', hbody']
      rfl
    · rw [Nesting.stmt]
      omega

end Bodies

/-! ## Declarations -/

theorem readsStatement_localFunction {b : Binder} {f : Function} (hb : b.constant = false)
    (hname : f.name = b.name) (hf : ReadsFunction style false f) :
    ReadsStatement style variadic (.localFunction b f line) where
  first := first_of_word rfl rfl (by simp)
  levels := Nat.succ_pos _
  reads := by
    intro fuel depth n ws hroom _
    obtain ⟨fuel, rfl, hcall⟩ := hroom.call
    have hwords : style.stmt (.localFunction b f line) ++ ws = .keyword .kwLocal ::
        .keyword .kwFunction :: .name b.name :: (style.function false f ++ ws) := by
      rw [Style.stmt]
      simp only [List.cons_append]
    have hbinder : Binder.mk b.name n false = { b with number := n } := by rw [← hb]
    rw [hwords] at hcall ⊢
    rw [statement]
    refine (takes_entered fun l hdepth => takes_advance.step fun _ _ =>
      (takes_accept rfl).step fun c hc => ?_).of_eq
        (k := max (depth + 1) (depth + 1 + Nesting.function style f)) ?_
    · rw [if_pos hc]
      refine (takes_identifier b.name).step fun t ht => (takes_binder t.text false).step
        fun b' hb' => ?_
      rw [ht, hbinder] at hb'
      rw [ht, ← hname]
      refine (hf fuel _ _ _ ws hdepth (hcall.tail.tail.tail.le (by omega))).done
        fun f' hf' => takes_pure ⟨_, rfl, ?_⟩
      rw [SameStmt, Numbering.stmt, Unlined.stmt, Unlined.stmt, hb', hf']
    · rw [Nesting.stmt]
      omega

theorem readsStatement_function {target : Expr} {f : Function} (hpath : target.isPath = true)
    (hname : f.isMethodOf target = false → f.name = target.dotted)
    (hf : ReadsFunction style (f.isMethodOf target) f) :
    ReadsStatement style variadic (.function target f line) where
  first := first_of_word rfl rfl (by simp)
  levels := Nat.succ_pos _
  reads := by
    intro fuel depth n ws hroom _
    obtain ⟨fuel, rfl, hcall⟩ := hroom.call
    have hwords : style.stmt (.function target f line) ++ ws = .keyword .kwFunction ::
        ((if f.isMethodOf target then Style.methodPath target else Style.path target) ++
          (style.function (f.isMethodOf target) f ++ ws)) := by
      rw [Style.stmt]
      simp only [List.append_assoc, List.cons_append]
    have hfirst : nextKind (style.function (f.isMethodOf target) f ++ ws) = .symbol .leftParen := by
      cases f
      rfl
    rw [hwords] at hcall ⊢
    rw [statement]
    refine (takes_entered fun l hdepth => takes_advance.step fun _ _ => ?_).of_eq
        (k := max (depth + 1) (depth + 1 + Nesting.function style f)) ?_
    · have htarget := takes_functionName (n := n) ((Word.keyword .kwFunction).token l).line hpath
        hname (hfirst ▸ by simp) (hfirst ▸ by simp)
        (hcall.tail.le (show 1 ≤ 32 by omega))
      refine Takes.assoc (htarget.step fun r hr => ?_)
      obtain ⟨target', full, method⟩ := r
      obtain ⟨htarget', hrest⟩ := hr
      obtain ⟨rfl, rfl⟩ := Prod.mk.inj hrest
      refine (hf fuel _ _ _ ws hdepth (hcall.tail.drop.le (by omega))).done
        fun f' hf' => takes_pure ⟨_, rfl, ?_⟩
      rw [SameStmt, Numbering.stmt, Unlined.stmt, Unlined.stmt, htarget', hf']
    · rw [Nesting.stmt]
      omega

theorem readsStatement_locals {bs : List Binder} {values : List Expr} (hbs : bs ≠ [])
    (hvalues : ∀ e ∈ values, Readable style variadic e) :
    ReadsStatement style variadic (.locals bs values line) where
  first := first_of_word rfl rfl (by simp)
  levels := Nat.succ_pos _
  reads := by
    intro fuel depth n ws hroom hcloses
    obtain ⟨fuel, rfl, hcall⟩ := hroom.call
    obtain ⟨b, rest, rfl⟩ := List.exists_cons_of_ne_nil hbs
    rw [statement]
    cases values with
    | nil =>
      have hwords : style.stmt (.locals (b :: rest) [] line) ++ ws =
          .keyword .kwLocal :: (Style.locals (b :: rest) ++ ws) := by
        rw [Style.stmt, List.append_nil]
        rfl
      rw [hwords] at hcall ⊢
      refine (takes_entered fun l hdepth => takes_advance.step fun _ _ =>
        (takes_accept_none (by simp [Style.locals, Style.attributed])).step fun c hc => ?_).of_eq
          (Nat.max_zero _)
      rw [hc, if_neg Bool.false_ne_true]
      refine (takes_attributed hbs (ne_of_closes hcloses (by decide))
        (ne_of_closes hcloses (by decide)) (hcall.tail.le (by omega))).step fun bs' hbs' =>
          (takes_accept_none (ne_of_closes hcloses (by decide))).step fun c hc => ?_
      dsimp only
      rw [hc, if_neg Bool.false_ne_true, pure_bind]
      exact takes_pure ⟨_, rfl, by rw [hbs']; rfl⟩
    | cons e values =>
      have hwords : style.stmt (.locals (b :: rest) (e :: values) line) ++ ws =
          .keyword .kwLocal :: (Style.locals (b :: rest) ++ .symbol .equal ::
            (style.exprs (e :: values) ++ ws)) := by
        rw [Style.stmt]
        simp only [List.append_assoc, List.cons_append]
      rw [hwords] at hcall ⊢
      refine (takes_entered fun l hdepth => takes_advance.step fun _ _ =>
        (takes_accept_none (by simp [Style.locals, Style.attributed])).step fun c hc => ?_).of_eq
          (k := max (depth + 1) (depth + 1 + Nesting.exprs style (e :: values))) ?_
      · rw [hc, if_neg Bool.false_ne_true]
        refine (takes_attributed hbs (by simp) (by simp) (hcall.tail.le (by omega))).step
          fun bs' hbs' => (takes_accept rfl).step fun c hc => ?_
        dsimp only
        rw [if_pos hc]
        refine (takes_expressions (by simp) hvalues (hcall.tail.drop.tail.le (by omega))
          (stops_of_closes hcloses) (ne_of_closes hcloses (by decide))).done
            fun es' hes' => takes_pure ⟨_, rfl, ?_⟩
        rw [SameStmt, Numbering.stmt, Unlined.stmt, Unlined.stmt, hbs', hes']
      · rw [Nesting.stmt]
        omega

/-! ## Calls and assignments -/

theorem isCall_of_same {n : Nat} {e e' : Expr} (h : SameExpr n e e') : e'.isCall = e.isCall := by
  have hunlined : ∀ e : Expr, (Unlined.expr e).isCall = e.isCall := by
    intro e
    cases e <;> rfl
  have hnumbered : (Numbering.expr n e).1.isCall = e.isCall := by
    cases e <;> rfl
  rw [← hunlined e', h, hunlined, hnumbered]

theorem isTarget_of_same {n : Nat} {e e' : Expr} (h : SameExpr n e e') :
    e'.isTarget = e.isTarget := by
  have hunlined : ∀ e : Expr, (Unlined.expr e).isTarget = e.isTarget := by
    intro e
    cases e <;> rfl
  have hnumbered : (Numbering.expr n e).1.isTarget = e.isTarget := by
    cases e <;> rfl
  rw [← hunlined e', h, hunlined, hnumbered]

/-- What can have suffixes is what a statement can begin with. -/
theorem first_of_suffixed {s : Stmt} {e : Expr} {us : List Word}
    (hwords : style.stmt s = style.expr e ++ us) (he : Readable style variadic e)
    (hrank : e.rank = Rank.suffixed) (ws : List Word) :
    endsBlock (nextKind (style.stmt s ++ ws)) = false ∧
      nextKind (style.stmt s ++ ws) ≠ .keyword .kwReturn := by
  obtain ⟨w, vs, hfront, hopens⟩ := he.opening
  rw [hwords, hfront]
  rcases hopens.starts.suffixed (Nat.le_of_eq hrank.symm) with hw | hw
  · exact ⟨by rw [List.append_assoc, List.cons_append, nextKind_cons, hw]; rfl,
      by rw [List.append_assoc, List.cons_append, nextKind_cons, hw]; simp⟩
  · exact ⟨by rw [List.append_assoc, List.cons_append, nextKind_cons, hw]; rfl,
      by rw [List.append_assoc, List.cons_append, nextKind_cons, hw]; simp⟩

theorem rank_of_isCall {e : Expr} (h : e.isCall = true) : e.rank = Rank.suffixed := by
  cases e <;> first | rfl | cases h

theorem rank_of_isTarget {e : Expr} (h : e.isTarget = true) : e.rank = Rank.suffixed := by
  cases e <;> first | rfl | cases h

/-- What a statement does behind its first operand. -/
def behindOperand (fuel depth : Nat) (variadic : Bool) (line : Nat) (first : Expr) :
    Parse (Option Stmt) := do
  let assigns := (← checkSymbol .equal) || (← checkSymbol .comma)
  if assigns then
    let targets ← targetsAfter fuel depth variadic first
    if !targets.all Expr.isTarget then complain .syntaxError
    consumeSymbol .equal
    let values ← expressions fuel depth variadic
    return some (.assign targets values line)
  else if first.isCall then return some (.expr first line)
  else complain .syntaxError

theorem takes_operand {e : Expr} (he : Readable style variadic e) (hrank : e.rank = Rank.suffixed)
    {fuel depth n peak : Nat} {ws : List Word} {Q : Option Stmt → Prop} {q : Ahead}
    (hroom : Room 7 fuel (style.expr e ++ ws)) (hstops : opensSuffix (nextKind ws) = false)
    (h : ∀ l first, depth + 1 ≤ maxLevels → SameExpr n e first →
      Takes ⟨ws, (Numbering.expr n e).2⟩ (behindOperand fuel (depth + 1) variadic l first)
        peak Q q) :
    Takes ⟨style.expr e ++ ws, n⟩ (statement (fuel + 1) depth variadic)
      (max (depth + Nesting.expr style e) peak) Q q := by
  obtain ⟨w, us, hwords, hopens⟩ := he.opening
  have hfirst := hopens.starts.suffixed (Nat.le_of_eq hrank.symm)
  have hpos := nesting_pos style e
  have hread := fun hdepth : depth + 1 ≤ maxLevels =>
    (he.suffixed hrank).alone (n := n) hdepth hroom hstops
  rw [hwords] at hread ⊢
  rw [statement]
  refine (takes_entered fun l hdepth => ?_).of_eq
    (k := max (depth + 1) (max (depth + Nesting.expr style e) peak)) (by omega)
  have hgo := (hread hdepth).bind fun first hsame => h l first hdepth hsame
  have hkind : (w.token l).kind = w.kind := rfl
  rw [hkind]
  rcases hfirst with hw | hw <;> rw [hw] <;> exact hgo

theorem readsStatement_expr {e : Expr} (hcall : e.isCall = true)
    (he : Readable style variadic e) : ReadsStatement style variadic (.expr e line) where
  first := first_of_suffixed (List.append_nil _).symm he (rank_of_isCall hcall)
  levels := nesting_pos style e
  reads := by
    intro fuel depth n ws hroom hcloses
    obtain ⟨fuel, rfl, hread⟩ := hroom.call
    refine (takes_operand he (rank_of_isCall hcall) hread (stops_of_closes hcloses).1
      fun l first hdepth hfirst => ?_).of_eq (Nat.max_zero _)
    refine (takes_check _).step fun b hb => (takes_check _).step fun c hc => ?_
    have hequal : nextKind ws ≠ .symbol .equal := ne_of_closes hcloses (by decide)
    have hcomma : nextKind ws ≠ .symbol .comma := ne_of_closes hcloses (by decide)
    rw [hb, hc, decide_eq_false hequal, decide_eq_false hcomma]
    dsimp only
    rw [Bool.or_self, if_neg Bool.false_ne_true, if_pos ((isCall_of_same hfirst).trans hcall)]
    exact takes_pure ⟨_, rfl, by rw [SameStmt, Numbering.stmt, Unlined.stmt, Unlined.stmt, hfirst]⟩

theorem takes_targetsAfter {rest : List Expr} (hrest : ∀ e ∈ rest, Readable style variadic e)
    (htargets : ∀ e ∈ rest, e.isTarget = true) {fuel depth n : Nat} {ws : List Word} {first : Expr}
    (hdepth : depth + 1 ≤ maxLevels)
    (hroom : Room 1 fuel (Style.behind .comma rest (style.exprs rest) ++ .symbol .equal :: ws)) :
    Takes ⟨Style.behind .comma rest (style.exprs rest) ++ .symbol .equal :: ws, n⟩
      (targetsAfter fuel (depth + 1) variadic first) (depth + Nesting.exprs style rest)
      (fun ts => ∃ rest', ts = first :: rest' ∧ SameExprs n rest rest' ∧
        rest'.all Expr.isTarget = true)
      ⟨.symbol .equal :: ws, (Numbering.exprs n rest).2⟩ := by
  induction rest generalizing fuel n first with
  | nil =>
    obtain ⟨fuel, rfl, -⟩ := hroom.call
    rw [targetsAfter]
    refine Takes.of_eq (Takes.raise ?_ (Nat.le_of_succ_le hdepth)) (Nat.max_zero _)
    refine (takes_accept_none (by simp [Style.behind])).step fun c hc => ?_
    rw [hc, if_neg Bool.false_ne_true]
    exact takes_pure ⟨[], rfl, rfl, rfl⟩
  | cons e rest ih =>
    obtain ⟨fuel, rfl, hcall⟩ := hroom.call
    have he := hrest e List.mem_cons_self
    have htarget := htargets e List.mem_cons_self
    have hwords : Style.behind .comma (e :: rest) (style.exprs (e :: rest)) ++
        .symbol .equal :: ws = .symbol .comma :: (style.expr e ++
          (Style.behind .comma rest (style.exprs rest) ++ .symbol .equal :: ws)) := by
      rw [Style.behind, Style.exprs, List.cons_append, List.append_assoc]
    have hstops : opensSuffix (nextKind
        (Style.behind .comma rest (style.exprs rest) ++ .symbol .equal :: ws)) = false := by
      cases rest <;> rfl
    rw [hwords] at hcall ⊢
    rw [targetsAfter]
    refine (takes_accept rfl).step fun c hc => ?_
    rw [if_pos hc]
    refine ((he.suffixed (rank_of_isTarget htarget)).alone hdepth (hcall.tail.le (by omega))
      hstops |>.bind fun e' he' => (ih (fun e he => hrest e (List.mem_cons_of_mem _ he))
        (fun e he => htargets e (List.mem_cons_of_mem _ he))
        (hcall.tail.drop.le (by omega))).done fun ts hts => ?_).of_eq (Nat.add_max_add_left ..)
    obtain ⟨rest', rfl, hrest', hall⟩ := hts
    refine takes_pure ⟨e' :: rest', rfl, ?_, ?_⟩
    · rw [SameExprs, Numbering.exprs, Unlined.exprs, Unlined.exprs, he', hrest']
    · rw [List.all_cons, isTarget_of_same he', htarget, hall]
      rfl

theorem readsStatement_assign {targets values : List Expr} (hne : targets ≠ [])
    (htargets : ∀ e ∈ targets, e.isTarget = true)
    (hread : ∀ e ∈ targets, Readable style variadic e) (hvalues : values ≠ [])
    (hreadValues : ∀ e ∈ values, Readable style variadic e) :
    ReadsStatement style variadic (.assign targets values line) := by
  obtain ⟨e, rest, rfl⟩ := List.exists_cons_of_ne_nil hne
  have he := hread e List.mem_cons_self
  have htarget := htargets e List.mem_cons_self
  have hstmt : style.stmt (.assign (e :: rest) values line) = style.expr e ++
      (Style.behind .comma rest (style.exprs rest) ++ .symbol .equal :: style.exprs values) := by
    rw [Style.stmt, Style.exprs, List.append_assoc]
  refine ⟨first_of_suffixed hstmt he (rank_of_isTarget htarget), ?_,
    fun fuel depth n ws hroom hcloses => ?_⟩
  · rw [Nesting.stmt]
    omega
  obtain ⟨fuel, rfl, hcall⟩ := hroom.call
  rw [hstmt] at hcall ⊢
  simp only [List.append_assoc, List.cons_append] at hcall ⊢
  have hstops : opensSuffix (nextKind (Style.behind .comma rest (style.exprs rest) ++
      .symbol .equal :: (style.exprs values ++ ws))) = false := by
    cases rest <;> rfl
  refine (takes_operand he (rank_of_isTarget htarget) hcall hstops
    fun l first hdepth hfirst => ?_).of_eq
      (k := max (depth + Nesting.expr style e) (max (depth + Nesting.exprs style rest)
        (depth + 1 + Nesting.exprs style values))) ?_
  · refine (takes_check _).step fun b hb => (takes_check _).step fun c hc => ?_
    have hassigns : (b || c) = true := by
      rw [hb, hc]
      cases rest <;> rfl
    dsimp only
    rw [if_pos hassigns]
    refine (takes_targetsAfter (fun e he => hread e (List.mem_cons_of_mem _ he))
      (fun e he => htargets e (List.mem_cons_of_mem _ he)) hdepth
      (hcall.drop.le (by omega))).bind fun ts hts => ?_
    obtain ⟨rest', rfl, hrest', hall⟩ := hts
    have hgood : ¬(!(first :: rest').all Expr.isTarget) = true := by
      rw [List.all_cons, isTarget_of_same hfirst, htarget, hall]
      decide
    rw [if_neg hgood]
    refine (takes_consumeSymbol _).step fun _ _ => (takes_expressions hvalues hreadValues
      (hcall.drop.drop.tail.le (by omega)) (stops_of_closes hcloses)
      (ne_of_closes hcloses (by decide))).done fun values' hvalues' => takes_pure ⟨_, rfl, ?_⟩
    rw [SameStmt, Numbering.stmt, Unlined.stmt, Unlined.stmt, Numbering.exprs, Unlined.exprs,
      Unlined.exprs, hfirst, hrest', hvalues']
  · rw [Nesting.stmt, Nesting.exprs]
    omega

end Statements

end Parser
end LuaMachine