import LuaMachine.Proofs.Generator.Functions
/-! # Whole programs

The cases come together in one induction over trees: whatever the compiler accepts becomes
well-formed code.

* `Generator.exprSound`, `Generator.bodySound`: every expression and every statement.
* `generate_wellFormed`, `compile_wellFormed`: the prototype of a program.
-/
set_option autoImplicit false

namespace LuaMachine
namespace Generator

variable {Good : Prototype → Prop}

/-! ## Jumps and lists of statements -/

theorem declares_exit (line : Nat) : Declares Good 0 (statement (.exit line)) := by
  intro ps st st' u hs htop h
  rw [statement] at h
  exact (compileBreak_moves h hs).cast htop rfl

theorem declares_goto (name : String) (line : Nat) :
    Declares Good 0 (statement (.goto name line)) := by
  intro ps st st' u hs htop h
  rw [statement] at h
  exact (compileGoto_moves h hs).cast htop rfl

theorem declares_compileLabel (name : String) (line : Nat) (atEnd : Bool) :
    Declares Good 0 (compileLabel name line atEnd) :=
  fun _ _ _ _ hs htop h => (compileLabel_moves h hs).cast htop rfl

theorem declares_label (name : String) (line : Nat) :
    Declares Good 0 (statement (.label name line)) := by
  rw [statement]
  exact declares_compileLabel name line false

theorem declares_nil (ends : Bool) : Declares Good 0 (statements ends []) := by
  intro ps st st' u hs htop h
  rw [statements, pure_ok] at h
  obtain ⟨-, rfl⟩ := h
  exact (Moves.refl hs).cast htop rfl

theorem BodySound.andThen {first second : Gen Unit} (h₁ : BodySound Good first)
    (h₂ : BodySound Good second) : BodySound Good (do first; second) := by
  intro ps st st' u hs htop h
  rw [bind_ok] at h
  obtain ⟨_, st₁, hfirst, hsecond⟩ := h
  obtain ⟨n, hmove⟩ := h₁ _ _ _ _ hs htop hfirst
  obtain ⟨m, hmove'⟩ := h₂ _ _ _ _ hmove.sound (hmove.top_eq.trans hmove.level_eq.symm) hsecond
  exact ⟨m, hmove.trans hmove'⟩

theorem Declares.andThen {first second : Gen Unit} {n m : Nat} (h₁ : Declares Good n first)
    (h₂ : Declares Good m second) : Declares Good (n + m) (do first; second) := by
  intro ps st st' u hs htop h
  rw [bind_ok] at h
  obtain ⟨_, st₁, hfirst, hsecond⟩ := h
  have hmove := h₁ _ _ _ _ hs htop hfirst
  have hlevel := hmove.level_eq
  exact (hmove.trans (h₂ _ _ _ _ hmove.sound (hmove.top_eq.trans hlevel.symm) hsecond)).cast
    (by omega) (by omega)

theorem declares_cons {s : Stmt} {rest : List Stmt} (ends : Bool)
    (hs : Declares Good s.declared.length (statement s))
    (hrest : Declares Good (rest.flatMap Stmt.declared).length (statements ends rest)) :
    Declares Good ((s :: rest).flatMap Stmt.declared).length (statements ends (s :: rest)) := by
  rw [List.flatMap_cons, List.length_append]
  by_cases hlabel : ∃ name line, s = .label name line
  · obtain ⟨name, line, rfl⟩ := hlabel
    rw [statements]
    exact (declares_compileLabel name line _).andThen hrest
  · rw [statements.eq_3 _ _ _ fun name line heq => hlabel ⟨name, line, heq⟩]
    exact hs.andThen hrest

theorem functionSound_mk {name : String} {params : List Binder} {variadic : Bool}
    {body : List Stmt} {line endLine : Nat} (hgood : Closed Good)
    (hbody : BodySound Good (statements true body)) :
    FunctionSound Good (.mk name params variadic body line endLine) := by
  intro ps st st' n hs h
  rw [function] at h
  refine compileFunction_step h hs rfl (fun source outer => ⟨rfl, rfl, rfl, ?_, ?_, ?_⟩) hbody hgood
  · change 2 ≤ 250
    omega
  · change 0 ≤ 255
    omega
  · intro u hu
    change u ∈ #[] at hu
    simp at hu

/-! ## The induction -/

mutual

theorem exprSound (hgood : Closed Good) : (e : Expr) → ExprSound Good e
  | .literal v line => exprSound_literal v line
  | .str s line => exprSound_str s line
  | .unary op e line => exprSound_unary op line (exprSound hgood e)
  | .binary op a b line => exprSound_binary op line (exprSound hgood a) (exprSound hgood b)
  | .name n line => exprSound_name n line
  | .vararg line => exprSound_vararg line
  | .paren e line => exprSound_paren line (exprSound hgood e)
  | .call f args line => exprSound_call line (exprSound hgood f) (itemsSound hgood args)
  | .method e name args line =>
    exprSound_method name line (exprSound hgood e) (itemsSound hgood args)
  | .table fs line => exprSound_table line (fieldsSound hgood fs)
  | .index e k line => exprSound_index line (exprSound hgood e) (exprSound hgood k)
  | .function f => exprSound_function (functionSound hgood f)

theorem itemsSound (hgood : Closed Good) : (es : List Expr) → ItemsSound Good es (items es)
  | [] => itemsSound_nil
  | e :: rest => itemsSound_cons (exprSound hgood e) (itemsSound hgood rest)

theorem fieldsSound (hgood : Closed Good) : (fs : List Field) → FieldsSound Good fs
  | [] => fieldsSound_nil
  | .pair k e :: rest =>
    fieldsSound_pair (exprSound hgood k) (exprSound hgood e) (fieldsSound hgood rest)
  | .item e :: rest => fieldsSound_item (exprSound hgood e) (fieldsSound hgood rest)

theorem functionSound (hgood : Closed Good) : (f : Function) → FunctionSound Good f
  | .mk _ _ _ body _ _ => functionSound_mk hgood (declaresAll hgood true body).sound

theorem targetSound (hgood : Closed Good) : (e : Expr) → TargetSound Good e
  | .name n line => targetSound_name n line
  | .index e k line => targetSound_index line (exprSound hgood e) (exprSound hgood k)
  | .literal _ _ | .str _ _ | .unary _ _ _ | .binary _ _ _ _ | .vararg _ | .paren _ _
  | .call _ _ _ | .method _ _ _ _ | .table _ _ | .function _ =>
    targetSound_other (by simp) (by simp)

theorem targetsSound (hgood : Closed Good) : (es : List Expr) → TargetsSound Good es
  | [] => targetsSound_nil
  | e :: rest => targetsSound_cons (targetSound hgood e) (targetsSound hgood rest)

theorem branchesSound (hgood : Closed Good) (hasElse : Bool) :
    (bs : List Branch) → ClauseSound Good (branches bs hasElse)
  | [] => branchesSound_nil hasElse
  | .mk condition body :: rest =>
    branchesSound_cons hasElse (exprSound hgood condition) (declaresAll hgood true body).sound
      (branchesSound hgood hasElse rest)

theorem declares (hgood : Closed Good) : (s : Stmt) → Declares Good s.declared.length (statement s)
  | .expr e line => declares_expr line (exprSound hgood e)
  | .assign left right line =>
    declares_assign line (targetsSound hgood left) (itemsSound hgood right)
  | .locals _ values line => declares_locals line (itemsSound hgood values)
  | .localFunction _ f line => declares_localFunction line (functionSound hgood f)
  | .function left f line =>
    declares_function line (targetSound hgood left) (functionSound hgood f)
  | .block body line => declares_block line (declaresAll hgood true body).sound
  | .cond condition body more otherwise line =>
    declares_cond line (exprSound hgood condition) (declaresAll hgood true body).sound
      (fun hasElse => branchesSound hgood hasElse more)
      (match otherwise with
        | some ss => fun _ heq => Option.some.inj heq ▸ (declaresAll hgood true ss).sound
        | none => (by simp))
  | .whileLoop condition body line =>
    declares_while line (exprSound hgood condition) (declaresAll hgood true body).sound
  | .repeatLoop body condition line =>
    declares_repeat line (exprSound hgood condition) (declaresAll hgood false body).sound
  | .numericFor _ start stop step body line =>
    declares_numericFor line (exprSound hgood start) (exprSound hgood stop)
      (match step with
        | some e => fun _ heq => Option.some.inj heq ▸ exprSound hgood e
        | none => (by simp))
      (declaresAll hgood true body).sound
  | .genericFor _ iterators body line =>
    declares_genericFor line (itemsSound hgood iterators) (declaresAll hgood true body).sound
  | .ret values line => declares_ret line (itemsSound hgood values)
  | .exit line => declares_exit line
  | .goto name line => declares_goto name line
  | .label name line => declares_label name line

theorem declaresAll (hgood : Closed Good) (ends : Bool) : (ss : List Stmt) →
    Declares Good (ss.flatMap Stmt.declared).length (statements ends ss)
  | [] => declares_nil ends
  | s :: rest => declares_cons ends (declares hgood s) (declaresAll hgood ends rest)

end

theorem bodySound (hgood : Closed Good) (s : Stmt) : BodySound Good (statement s) :=
  (declares hgood s).sound

theorem statementsSound (hgood : Closed Good) (ends : Bool) (ss : List Stmt) :
    BodySound Good (statements ends ss) :=
  (declaresAll hgood ends ss).sound

end Generator

open Generator in
/-- Code is well-formed as soon as it is valid and the functions inside of it are well-formed. -/
theorem closed_wellFormed : Closed Prototype.WellFormed :=
  fun _ hcode _ hchildren => .intro hcode (fun c hc => (hchildren c hc).1) fun c hc =>
    (hchildren c hc).2

open Generator in
/-- What the compiler gives for a program is good. -/
theorem generate_good {Good : Prototype → Prop} (hgood : Closed Good) {program : Block}
    {name : String} {p : Prototype} (h : generate program name = .ok p) : Good p := by
  unfold generate at h
  split at h
  next => cases h
  next captured hcaptured =>
    simp only at h
    split at h
    next proto st hrun =>
      cases h
      simp only [EStateM.run, bind_ok, scope_ok, pure_ok, and_assoc, exists_and_left,
        exists_eq_left] at hrun
      obtain ⟨_, st₁, hbegin, _, st₂, hbody, _, st₃, hret, block, st₄, hend, rfl, rfl⟩ := hrun
      have hs₀ : Sound Good []
          ⟨[FunctionScope.create (mainPrototype name)], 1, captured⟩ := create_sound (fresh_main name) .nil
      obtain ⟨hs₁, htop₁, hlevel₁, -⟩ := beginBlock_sound hbegin hs₀
      obtain ⟨n, hmove⟩ := statementsSound hgood true program _ _ _ _ hs₁
        (htop₁.trans hlevel₁.symm) hbody
      obtain ⟨hmove', -, hvalid⟩ := finish_spec hbegin hs₀ hmove.extends' hmove.sound hret hend
      have hparams := hmove'.grows.params
      refine hgood _ hvalid ?_ hmove'.sound.current.proto.children
      rw [hparams]
      exact Nat.zero_le _
    next => cases h

/-- What the compiler gives for a program is well-formed. -/
theorem generate_wellFormed {program : Block} {name : String} {p : Prototype}
    (h : generate program name = .ok p) : p.WellFormed :=
  generate_good closed_wellFormed h

theorem generate_roomy {program : Block} {name : String} {p : Prototype}
    (h : generate program name = .ok p) : p.Roomy :=
  generate_good (fun _ _ hparams hchildren => .intro hparams fun c hc => (hchildren c hc).2) h

/-- A text that compiles is a program. -/
theorem exists_generate {text name : String} {p : Prototype} (h : compile text name = .ok p) :
    ∃ program, generate program name = .ok p := by
  unfold compile at h
  split at h
  next program _ => exact ⟨program, h⟩
  next => cases h

/-- What the compiler gives for a text is well-formed. -/
theorem compile_wellFormed {text name : String} {p : Prototype}
    (h : compile text name = .ok p) : p.WellFormed := by
  obtain ⟨program, hprogram⟩ := exists_generate h
  exact generate_wellFormed hprogram

theorem compile_wellFormed_counter :
    ∃ p, compile "local x local f = function() return x end while f do x = not x end" "counter" =
      .ok p ∧ p.WellFormed := by
  have hok : (compile "local x local f = function() return x end while f do x = not x end"
      "counter").toBool = true := by decide +kernel
  cases h : compile "local x local f = function() return x end while f do x = not x end"
      "counter" with
  | ok p => exact ⟨p, rfl, compile_wellFormed h⟩
  | error e =>
    rw [h] at hok
    cases hok

open Generator in
theorem closed_runnable : Closed Prototype.Runnable := fun _ hcode hparams hchildren =>
  ⟨.intro hcode (fun c hc => (hchildren c hc).1) fun c hc => (hchildren c hc).2.wellFormed,
    .intro hparams fun c hc => (hchildren c hc).2.roomy⟩

theorem compile_runnable {text name : String} {p : Prototype} (h : compile text name = .ok p) :
    p.Runnable := by
  obtain ⟨program, hprogram⟩ := exists_generate h
  exact ⟨generate_wellFormed hprogram, generate_roomy hprogram⟩

end LuaMachine
