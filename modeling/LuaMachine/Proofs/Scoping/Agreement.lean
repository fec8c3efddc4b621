import LuaMachine.Proofs.Scoping.Analysis
import LuaMachine.Proofs.Scoping.Control
import LuaMachine.Proofs.Scoping.Parsing
/-! # The analysis and the compiler agree

The analysis and the compiler look names up in different structures, and the compiler leaves out
branches that are never taken. Still, whatever the analysis accepts the compiler either compiles or
complains about as a fault of the program, and an inner function takes from registers only what the
analysis has recorded.

* `Generator.functionFlawless_mk`: functions, in scopes of their own.
* `Generator.exprFlawless`, `Generator.stmtsFlawless`: the induction over trees.
* `generate_agrees`: whole programs.
-/
set_option autoImplicit false

namespace LuaMachine
namespace Generator

variable {P Good : Prototype → Prop} {S : Setting} {env env' : Surroundings} {ps : List Nat}
  {st st' st₁ : State} {u : Unit} {proto fresh q : Prototype} {captured : Std.HashSet Nat}
  {outer : List FunctionScope} {frames : List (List Slot)} {line endLine : Nat}
  {params : List Binder} {body : Gen Unit}

/-! ## The scope of a function -/

/-- In the block of a function that has just begun. -/
theorem at_created (hfresh : Fresh fresh outer) (hnested : FunctionScope.Nested outer)
    (hframes : List.Forall₂ (FunctionScope.Holds captured) outer frames)
    (hgiven : FunctionScope.given (FunctionScope.create fresh :: outer) =
      some #[⟨"_ENV", false, 0⟩])
    (h : beginBlock false ⟨FunctionScope.create fresh :: outer, line, captured⟩ = .ok u st) :
    At Prototype.WellFormed captured { outer := frames } [] st ∧ st.top = 0 ∧ st.level = 0 := by
  obtain ⟨hsound, htop, hlevel, -⟩ := beginBlock_sound h (create_sound hfresh hnested)
  refine ⟨⟨hsound, ?_⟩, htop, hlevel⟩
  obtain rfl := beginBlock_ok h
  have hs : (⟨FunctionScope.create fresh :: outer, line, captured⟩ : State).scopes ≠ [] :=
    List.cons_ne_nil _ _
  exact {
    marks := rfl
    own := rfl
    outer := hframes
    given := (given_mapCurrent hs rfl).trans hgiven
    loop := nofun
    block := List.cons_ne_nil _ _ }

theorem given_of_created (h : FunctionScope.given outer = some #[⟨"_ENV", false, 0⟩]) :
    FunctionScope.given (FunctionScope.create fresh :: outer) = some #[⟨"_ENV", false, 0⟩] := by
  cases outer with
  | nil => cases h
  | cons s rest => rwa [FunctionScope.given_cons_cons]

/-- The parameters get the first registers, and the body follows. -/
theorem functionBody_flawless
    (hfresh : Fresh fresh outer) (hnested : FunctionScope.Nested outer)
    (hframes : List.Forall₂ (FunctionScope.Holds S.captured) outer frames)
    (hgiven : FunctionScope.given outer = some #[⟨"_ENV", false, 0⟩])
    (hbody : Follows S (Surroundings.declare { outer := frames } params) env' body) :
    S.Flawless (functionBody proto params body endLine)
      ⟨FunctionScope.create fresh :: outer, line, S.captured⟩ := by
  refine setLine_flawless.bind fun _ st₁ hline => beginBlock_flawless.bind fun _ st₂ hbegin =>
    reserve_flawless.bind fun r st₃ hreserve => ?_
  simp only [setLine, modify_ok] at hline
  subst hline
  obtain ⟨h₂, htop₂, hlevel₂⟩ := at_created hfresh hnested hframes (given_of_created hgiven) hbegin
  have hstep₃ := (reserve_step hreserve h₂.sound).1
  have htop₃ := hstep₃.top_eq
  have hlevel₃ := hstep₃.level
  refine (addBinders_flawless hstep₃.sound (by omega)).bind fun _ st₄ hbinders => ?_
  have hmove₄ := addBinders_moves hbinders hstep₃.sound
  have htop₄ := hmove₄.top_eq
  have hlevel₄ := hmove₄.level_eq
  have h₄ := (h₂.step hstep₃).addBinders hbinders
  exact (hbody _ _ h₄ (by omega)).1.bind fun _ _ _ => setLine_flawless.bind fun _ _ _ =>
    emitAbc_flawless.bind fun _ _ _ => endBlock_flawless.bind fun _ _ _ => .pure _

/-- What an upvalue takes from a register is a captured variable in scope. -/
theorem takes_declared (h : S.At env ps st) {scopes : List FunctionScope} {v : UpvalueSource}
    (hw : List.Forall₂ FunctionScope.Widens st.scopes scopes) (hv : v.ComesFrom scopes)
    (hreg : v.fromRegister = true) : ∃ b : Binder,
      env.own.reverse[v.index]? = some (.declared b) ∧ b.name = v.name ∧
        S.captured.contains b.number = true := by
  rw [State.scopes_eq h.sound.exists_scope] at hw
  cases hw with
  | @cons _ s _ rest hs _ =>
  obtain ⟨l, hl, hcaptured, hindex, hname⟩ := hv.1 hreg
  rw [hs.locals] at hl
  obtain ⟨n, hn⟩ := List.mem_iff_getElem?.mp (Array.mem_toList_iff.mpr hl)
  rw [Array.getElem?_toList] at hn
  obtain rfl : n = v.index := (h.sound.current.locals n l hn).symm.trans hindex
  obtain ⟨x, hx, hxname, hxcaptured⟩ := h.tracks.own.slot hn
  cases x with
  | hidden =>
    rw [hcaptured] at hxcaptured
    cases hxcaptured
  | declared b => exact ⟨b, hx, hxname.trans hname, hxcaptured.trans hcaptured⟩

/-- A child that is as it should be is added to the innermost function. -/
theorem addChild_flawless (hq : q.Everywhere P) : Flawless P (addChild q line) st := by
  have hadd : ∀ {st : State}, Flawless P (modifyScope fun s =>
      { s with proto := { s.proto with children := s.proto.children.push q } }) st := by
    refine .modifyScope ⟨rfl, fun c hc => ?_⟩
    rcases Array.mem_push.mp hc with hc | rfl
    · exact .inl hc
    · exact .inr hq
  exact Flawless.scope.bind fun _ _ _ =>
    .ite (fun _ => Flawless.complain.bind fun _ _ h => (throw_ok.mp h).elim) fun _ =>
      hadd.bind fun _ _ _ => .pure _

theorem modify_safe (f : State → State) : Safe (modify f : Gen Unit) st := nofun

/-- An action between two changes of the scopes, which are undone together. -/
theorem Flawless.between {enter leave : State → State} {act : Gen Unit} {α : Type}
    {rest : FunctionScope → Gen α} (hsafe : Safe act (enter st))
    (hleaves : ∀ u st', act (enter st) = .ok u st' →
      List.Forall₂ (FunctionScope.Evolves P) st.scopes (leave st').scopes ∧
        Flawless P (rest st'.current) (leave st')) :
    Flawless P (do
      modify enter
      act
      let s ← Generator.scope
      modify leave
      rest s) st where
  safe := by
    refine (modify_safe enter).bind fun _ st₁ henter => ?_
    obtain rfl := modify_ok.mp henter
    refine hsafe.bind fun u st₂ hact => Flawless.scope (P := P).safe.bind fun s st₃ hscope => ?_
    obtain ⟨rfl, rfl⟩ := scope_ok.mp hscope
    refine (modify_safe leave).bind fun _ st₄ hleave => ?_
    obtain rfl := modify_ok.mp hleave
    exact (hleaves u _ hact).2.safe
  evolves a st' hok := by
    simp only [bind_ok, modify_ok, scope_ok, and_assoc, exists_and_left, exists_eq_left,
      exists_const] at hok
    obtain ⟨u, st₂, hact, hrest⟩ := hok
    obtain ⟨hleave, hflawless⟩ := hleaves u st₂ hact
    exact evolves_trans hleave (hflawless.evolves a st' hrest)

/-- What is known when the scope of a function is left: the finished function closes over what is
in scope around it, and the functions around are as they were. -/
theorem functionBody_leaves {name : String} {variadic : Bool} {ss : List Stmt}
    (h : S.At env ps st)
    (hsite : Site.function env (.mk name params variadic ss proto.line endLine) ∈ S.places)
    (hheader : fresh.header = (name, proto.line, params.length, variadic))
    (hfresh : Fresh fresh st.scopes)
    (hbody : S.Flawless (functionBody proto params (statements true ss) endLine)
      ⟨FunctionScope.create fresh :: st.scopes, st.line, st.captured⟩)
    (hok : functionBody proto params (statements true ss) endLine
      ⟨FunctionScope.create fresh :: st.scopes, st.line, st.captured⟩ = .ok u st') :
    st'.current.proto.Everywhere S.child ∧
      List.Forall₂ (FunctionScope.Evolves S.child) st.scopes st'.scopes.tail := by
  have hparams : fresh.params = params.length := congrArg (·.2.2.1) hheader
  obtain ⟨hmove, -, -⟩ := functionBody_moves hok hfresh h.sound.nested hparams
    (statementsSound closed_wellFormed true ss)
  have hevolves := hbody.evolves _ _ hok
  have hscopes := State.scopes_eq hmove.sound.exists_scope
  have hnested := hmove.sound.nested
  rw [hscopes] at hevolves hnested
  cases hevolves with
  | cons hinner houter =>
  cases hnested with
  | cons _ _ hsources _ =>
  refine ⟨.intro (S.child_of _ ⟨env, name, params, variadic, ss, proto.line, endLine, hsite,
    hinner.header.trans hheader, fun v hv hreg =>
      takes_declared h hmove.extends'.outer (hsources v hv) hreg⟩
    ⟨env, name, params, variadic, ss, proto.line, endLine, proto, fresh, st.scopes, st.line, st',
      hsite, hfresh, h.sound.nested, h.tracks.marks ▸ hok, rfl⟩) fun c hc => ?_, houter⟩
  rcases hinner.children c hc with hc | hc
  · rw [FunctionScope.create, hfresh.children] at hc
    simp at hc
  · exact hc

theorem compileFunction_flawless {name : String} {variadic : Bool} {ss : List Stmt}
    (h : S.At env ps st)
    (hsite : Site.function env (.mk name params variadic ss proto.line endLine) ∈ S.places)
    (hheader : proto.header = (name, proto.line, params.length, variadic))
    (hfresh : ∀ source outer, Fresh { proto with source := source } outer)
    (hbody : Follows S (env.inside params) env' (statements true ss)) :
    S.Flawless (compileFunction proto params (statements true ss) endLine) st := by
  have hframes : List.Forall₂ (FunctionScope.Holds S.captured) st.scopes (env.own :: env.outer) :=
    by
      rw [State.scopes_eq h.sound.exists_scope]
      exact .cons h.tracks.own h.tracks.outer
  have hbody' : Follows S (Surroundings.declare { outer := env.own :: env.outer } params) env'
      (statements true ss) := by
    have hinside : Surroundings.declare { outer := env.own :: env.outer } params =
        env.inside params := by
      simp [Surroundings.declare, Surroundings.inside]
    rwa [hinside]
  have hinner : S.Flawless (functionBody proto params (statements true ss) endLine)
      ⟨FunctionScope.create { proto with source := st.current.proto.source } :: st.scopes,
        st.line, st.captured⟩ := by
    rw [h.tracks.marks]
    exact functionBody_flawless (hfresh _ _) h.sound.nested hframes h.tracks.given hbody'
  rw [compileFunction_eq]
  refine currentLine_flawless.bind fun saved st₀ hline => Flawless.scope.bind fun s st₁ hscope => ?_
  obtain ⟨rfl, rfl⟩ := currentLine_ok.mp hline
  obtain ⟨rfl, rfl⟩ := scope_ok.mp hscope
  have hheader' : ({ proto with source := st₁.current.proto.source } : Prototype).header =
      (name, proto.line, params.length, variadic) := hheader
  refine Flawless.between hinner.safe fun u st₂ hok => ?_
  obtain ⟨hchild, houter⟩ := functionBody_leaves h hsite hheader' (hfresh _ _) hinner hok
  exact ⟨houter, addChild_flawless hchild⟩

theorem functionFlawless_mk {name : String} {variadic : Bool} {ss : List Stmt}
    (hbody : StmtsFlawless S true ss) :
    FunctionFlawless S (.mk name params variadic ss line endLine) := by
  intro env hsites ps st h
  rw [Sites.function, List.cons_subset] at hsites
  rw [function]
  refine compileFunction_flawless h hsites.1 rfl (fun source outer => ⟨rfl, rfl, rfl, ?_, ?_, ?_⟩)
    (hbody _ hsites.2)
  · change 2 ≤ 250
    omega
  · change 0 ≤ 255
    omega
  · intro u hu
    change u ∈ #[] at hu
    simp at hu

/-! ## The induction -/

mutual

theorem exprFlawless (S : Setting) : (e : Expr) → ExprFlawless S e
  | .literal v line => exprFlawless_literal v line
  | .str s line => exprFlawless_str s line
  | .unary op e line => exprFlawless_unary op line (exprFlawless S e)
  | .binary op a b line => exprFlawless_binary op line (exprFlawless S a) (exprFlawless S b)
  | .name n line => exprFlawless_name n line
  | .vararg line => exprFlawless_vararg line
  | .paren e line => exprFlawless_paren line (exprFlawless S e)
  | .call f args line => exprFlawless_call line (exprFlawless S f) (itemsFlawless S args)
  | .method e name args line =>
    exprFlawless_method name line (exprFlawless S e) (itemsFlawless S args)
  | .table fs line => exprFlawless_table line (fieldsFlawless S fs)
  | .index e k line => exprFlawless_index line (exprFlawless S e) (exprFlawless S k)
  | .function f => exprFlawless_function (functionFlawless S f)

theorem itemsFlawless (S : Setting) : (es : List Expr) → ItemsFlawless S es
  | [] => itemsFlawless_nil
  | e :: rest => itemsFlawless_cons (exprFlawless S e) (itemsFlawless S rest)

theorem fieldsFlawless (S : Setting) : (fs : List Field) → FieldsFlawless S fs
  | [] => fieldsFlawless_nil
  | .pair k e :: rest =>
    fieldsFlawless_pair (exprFlawless S k) (exprFlawless S e) (fieldsFlawless S rest)
  | .item e :: rest => fieldsFlawless_item (exprFlawless S e) (fieldsFlawless S rest)

theorem functionFlawless (S : Setting) : (f : Function) → FunctionFlawless S f
  | .mk _ _ _ body _ _ => functionFlawless_mk (stmtsFlawless S true body)

theorem targetFlawless (S : Setting) : (e : Expr) → TargetFlawless S e
  | .name n line => targetFlawless_name n line
  | .index e k line => targetFlawless_index line (exprFlawless S e) (exprFlawless S k)
  | .literal _ _ | .str _ _ | .unary _ _ _ | .binary _ _ _ _ | .vararg _ | .paren _ _
  | .call _ _ _ | .method _ _ _ _ | .table _ _ | .function _ => targetFlawless_other rfl

theorem targetsFlawless (S : Setting) : (es : List Expr) → TargetsFlawless S es
  | [] => targetsFlawless_nil
  | e :: rest => targetsFlawless_cons (targetFlawless S e) (targetsFlawless S rest)

theorem branchesFlawless (S : Setting) : (bs : List Branch) → BranchesFlawless S bs
  | [] => branchesFlawless_nil
  | .mk condition body :: rest =>
    branchesFlawless_cons (exprFlawless S condition) (stmtsFlawless S true body)
      (branchesFlawless S rest)

theorem stmtFlawless (S : Setting) : (s : Stmt) → StmtFlawless S s
  | .expr e line => stmtFlawless_expr line (exprFlawless S e)
  | .assign left right line =>
    stmtFlawless_assign line (targetsFlawless S left) (itemsFlawless S right)
  | .locals _ values line => stmtFlawless_locals line (itemsFlawless S values)
  | .localFunction _ f line => stmtFlawless_localFunction line (functionFlawless S f)
  | .function left f line =>
    stmtFlawless_function line (targetFlawless S left) (functionFlawless S f)
  | .block body line => stmtFlawless_block line (stmtsFlawless S true body)
  | .cond condition body more otherwise line =>
    stmtFlawless_cond line (exprFlawless S condition) (stmtsFlawless S true body)
      (branchesFlawless S more)
      (match otherwise with
        | some ss => fun _ heq => Option.some.inj heq ▸ stmtsFlawless S true ss
        | none => (by simp))
  | .whileLoop condition body line =>
    stmtFlawless_while line (exprFlawless S condition) (stmtsFlawless S true body)
  | .repeatLoop body condition line =>
    stmtFlawless_repeat line (exprFlawless S condition) (stmtsFlawless S false body)
  | .numericFor _ start stop step body line =>
    stmtFlawless_numericFor line (exprFlawless S start) (exprFlawless S stop)
      (match step with
        | some e => fun _ heq => Option.some.inj heq ▸ exprFlawless S e
        | none => (by simp))
      (stmtsFlawless S true body)
  | .genericFor _ iterators body line =>
    stmtFlawless_genericFor line (itemsFlawless S iterators) (stmtsFlawless S true body)
  | .ret values line => stmtFlawless_ret line (itemsFlawless S values)
  | .exit line => stmtFlawless_exit line
  | .goto name line => stmtFlawless_goto name line
  | .label name line => stmtFlawless_label name line

theorem stmtsFlawless (S : Setting) (ends : Bool) : (ss : List Stmt) → StmtsFlawless S ends ss
  | [] => stmtsFlawless_nil ends
  | s :: rest => stmtsFlawless_cons (stmtFlawless S s) (stmtsFlawless S ends rest)

end

/-! ## Whole programs -/

/-- The compiler at the main program. -/
theorem main_flawless {program : Block} (name : String)
    (hplaces : Sites.stmts {} program ⊆ S.places) :
    S.Flawless (do
      beginBlock false
      statements true program
      emitAbc .ret 0 1 0
      let _ ← endBlock
      return (← scope).proto : Gen Prototype)
      ⟨[FunctionScope.create (mainPrototype name)], 1, S.captured⟩ := by
  refine beginBlock_flawless.bind fun _ st₁ hbegin => ?_
  obtain ⟨h₁, htop₁, hlevel₁⟩ := at_created (fresh_main name) .nil .nil rfl hbegin
  exact (stmtsFlawless S true program {} hplaces _ _ h₁ (htop₁.trans hlevel₁.symm)).1.bind
    fun _ _ _ => emitAbc_flawless.bind fun _ _ _ => endBlock_flawless.bind fun _ _ _ =>
      Flawless.scope.bind fun _ _ _ => .pure _

/-- The upvalues of the main program are the given ones. -/
theorem main_upvalues {program : Block} {name : String} {p : Prototype}
    (h : (do
      beginBlock false
      statements true program
      emitAbc .ret 0 1 0
      let _ ← endBlock
      return (← scope).proto : Gen Prototype)
      ⟨[FunctionScope.create (mainPrototype name)], 1, captured⟩ = .ok p st) :
    p = st.current.proto ∧ p.upvalues = #[⟨"_ENV", false, 0⟩] ∧
      ∃ s, st.scopes = [s] := by
  simp only [bind_ok, scope_ok, pure_ok, and_assoc, exists_and_left, exists_eq_left] at h
  obtain ⟨_, st₁, hbegin, _, st₂, hbody, _, st₃, hret, block, st₄, hend, rfl, rfl⟩ := h
  have hs₀ : Sound Prototype.WellFormed []
      ⟨[FunctionScope.create (mainPrototype name)], 1, captured⟩ := create_sound (fresh_main name) .nil
  obtain ⟨hs₁, htop₁, hlevel₁, -⟩ := beginBlock_sound hbegin hs₀
  obtain ⟨n, hmove⟩ := statementsSound closed_wellFormed true program _ _ _ _ hs₁
    (htop₁.trans hlevel₁.symm) hbody
  obtain ⟨hmove', -, -⟩ := finish_spec hbegin hs₀ hmove.extends' hmove.sound hret hend
  have hscopes := State.scopes_eq hmove'.sound.exists_scope
  have hgiven := hmove'.extends'.given
  have houter : st.outer = [] := List.forall₂_nil_left_iff.mp hmove'.extends'.outer
  rw [houter] at hscopes
  rw [hscopes] at hgiven
  exact ⟨rfl, Option.some.inj hgiven, _, hscopes⟩

end Generator

open Generator in
/-- What the analysis accepts the compiler compiles as well, or it complains about the program; it
never finds itself in disorder. And what a function takes from a register of the function around it
is a variable in scope there that the analysis has recorded. -/
theorem generate_agrees {text : String} {program : Block} {captured : Std.HashSet Nat}
    (name : String) (hparse : parse text = .ok program)
    (hanalysis : capturedBinders program = .ok captured) :
    (∃ p, generate program name = .ok p ∧ (∀ u ∈ p.upvalues, u.fromRegister = false) ∧
      ∀ q ∈ p.children, q.Everywhere (Prototype.Closes captured (sites program))) ∨
    ∃ e, generate program name = .error (.error e) := by
  have hregular := parse_regular hparse
  let S : Setting := {
    captured := captured
    places := sites program
    heeded := capturedBinders_heeded hanalysis hregular
    regular := hregular }
  obtain ⟨hsafe, hevolves⟩ := main_flawless (S := S) name (List.Subset.refl (sites program))
  unfold generate
  rw [hanalysis]
  simp only [EStateM.run]
  split
  next p st hrun =>
    obtain ⟨rfl, hupvalues, s, hscopes⟩ := main_upvalues hrun
    refine .inl ⟨_, rfl, fun u hu => ?_, fun q hq => ?_⟩
    · rw [hupvalues, Array.mem_singleton] at hu
      rw [hu]
    · have hmain := hevolves _ _ hrun
      rw [hscopes] at hmain
      have hcurrent : st.current = s := by
        unfold State.current
        rw [hscopes]
        rfl
      obtain ⟨hs, -⟩ := List.forall₂_cons.mp hmain
      rw [hcurrent] at hq
      rcases hs.children q hq with hq | hq
      · change q ∈ #[] at hq
        simp at hq
      · exact hq
  next e st hrun =>
    cases e with
    | error e => exact .inr ⟨e, rfl⟩
    | defect why => exact absurd hrun (hsafe why st)

theorem generate_agrees_counter : ∃ program captured,
    parse "local n = 0 local function inc() n = n + 1 return n end print(inc())" = .ok program ∧
      capturedBinders program = .ok captured ∧
      ((∃ p, generate program "counter" = .ok p ∧ (∀ u ∈ p.upvalues, u.fromRegister = false) ∧
        ∀ q ∈ p.children, q.Everywhere (Prototype.Closes captured (sites program))) ∨
        ∃ e, generate program "counter" = .error (.error e)) := by
  have hok : ((parse "local n = 0 local function inc() n = n + 1 return n end print(inc())").toOption.any
      fun program => (capturedBinders program).toBool) = true := by decide +kernel
  cases hparse : parse "local n = 0 local function inc() n = n + 1 return n end print(inc())" with
  | error e =>
    rw [hparse] at hok
    cases hok
  | ok program =>
    rw [hparse] at hok
    change (capturedBinders program).toBool = true at hok
    cases hanalysis : capturedBinders program with
    | ok captured =>
      exact ⟨program, captured, rfl, hanalysis, generate_agrees "counter" hparse hanalysis⟩
    | error e =>
      rw [hanalysis] at hok
      cases hok

end LuaMachine
