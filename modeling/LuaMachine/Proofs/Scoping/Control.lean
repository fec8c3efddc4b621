import LuaMachine.Proofs.Scoping.Statements
/-! # Blocks and loops without defects

A block inside of another one hands its pending jumps on when it ends, a `break` finds the loop
around it, and the parts of conditions and loops stand where the analysis saw them.

* `closeBlock_flawless`, `inBlock_flawless`: the end of a block.
* `stmtFlawless_cond`, `stmtFlawless_numericFor` and the like: the cases of the induction.
-/
set_option autoImplicit false

namespace LuaMachine
namespace Generator

variable {P : Prototype → Prop} {S : Setting} {env env' : Surroundings} {ps ps' : List Nat}
  {st st' st₀ st₁ : State} {u : Unit} {line n r : Nat} {condition : Expr} {act : Evaluation}
  {body : Gen Unit} {isLoop : Bool} {b : ScopeBlock} {i : Instruction}

/-! ## Open blocks -/

/-- The number of blocks that are open in the innermost function. -/
def State.depth (st : State) : Nat := st.current.blocks.length

theorem Extends.depth (h : Extends st st') : st'.depth = st.depth :=
  (List.Forall₂.length_eq h.current.blocks).symm

theorem beginBlock_depth (h : beginBlock isLoop st = .ok u st') (hs : st.scopes ≠ []) :
    st'.depth = st.depth + 1 := by
  obtain rfl := beginBlock_ok h
  unfold State.depth
  rw [State.current_mapCurrent hs]
  rfl

theorem At.depth_pos (h : S.At env ps st) : 0 < st.depth :=
  List.length_pos_iff.mpr h.tracks.block

theorem mapCurrent_depth {f : FunctionScope → FunctionScope} (hs : st.scopes ≠ [])
    (hf : (f st.current).blocks = st.current.blocks) : (st.mapCurrent f).depth = st.depth := by
  unfold State.depth
  rw [State.current_mapCurrent hs, hf]

theorem emit_depth (h : emit i st = .ok n st') (hs : st.scopes ≠ []) :
    st'.scopes ≠ [] ∧ st'.depth = st.depth := by
  obtain ⟨-, rfl⟩ := emit_ok h
  exact ⟨State.scopes_mapCurrent_ne hs, mapCurrent_depth hs rfl⟩

theorem patchWithin_depth {limit target : Nat} {f : Instruction → Int → Instruction}
    (h : patchWithin limit n target f st = .ok u st') (hs : st.scopes ≠ []) :
    st'.scopes ≠ [] ∧ st'.depth = st.depth := by
  obtain ⟨-, rfl⟩ := patchWithin_ok h
  exact ⟨State.scopes_mapCurrent_ne hs, mapCurrent_depth hs rfl⟩

theorem patchAll_depth {ns : List Nat} (h : ns.forM patchJumpHere st = .ok u st')
    (hs : st.scopes ≠ []) : st'.scopes ≠ [] ∧ st'.depth = st.depth := by
  induction ns generalizing st with
  | nil =>
    simp only [List.forM_eq_forM, List.forM_nil, pure_ok] at h
    obtain ⟨-, rfl⟩ := h
    exact ⟨hs, rfl⟩
  | cons n ns ih =>
    obtain ⟨st₁, hn, hrest⟩ := forM_ok h
    obtain ⟨hs₁, hdepth₁⟩ := patchWithin_depth (patchJumpHere_ok hn) hs
    obtain ⟨hs', hdepth⟩ := ih hrest hs₁
    exact ⟨hs', hdepth.trans hdepth₁⟩

theorem setLine_depth (h : setLine line st = .ok u st') (hs : st.scopes ≠ []) :
    st'.scopes ≠ [] ∧ st'.depth = st.depth := by
  simp only [setLine, modify_ok] at h
  subst h
  exact ⟨hs, rfl⟩

/-- A block that is not the outermost one hands its jumps on to the one around it. -/
theorem closeBlock_flawless (hs : st.scopes ≠ []) (hdepth : 2 ≤ st.depth) :
    Flawless P closeBlock st := by
  refine currentBlock_flawless.bind fun open' st₀ hcurrent => ?_
  obtain ⟨rfl, -⟩ := currentBlock_ok hcurrent
  refine closeIf_flawless.bind fun _ st₁ hclose => endBlock_flawless.bind fun block st₂ hend =>
    Flawless.scope.bind fun s st₃ hscope => ?_
  obtain ⟨rfl, rfl⟩ := scope_ok.mp hscope
  have hclosed : st₁.scopes ≠ [] ∧ st₁.depth = st₀.depth := by
    unfold closeIf at hclose
    split at hclose
    · obtain ⟨n, hclose⟩ := emitAbc_ok hclose
      exact emit_depth hclose hs
    · obtain ⟨-, rfl⟩ := pure_ok.mp hclose
      exact ⟨hs, rfl⟩
  refine .ite (fun hempty => ?_) fun _ => modifyBlock_flawless.bind fun _ _ _ => .pure _
  exfalso
  obtain ⟨rfl, -⟩ := endBlock_ok hend
  rw [State.current_mapCurrent hclosed.1] at hempty
  have hdepth₁ := hclosed.2
  unfold State.depth at hdepth hdepth₁
  unfold FunctionScope.endBlock at hempty
  split at hempty
  next hnil =>
    rw [hnil] at hdepth₁
    simp only [List.length_nil] at hdepth₁
    omega
  next hcons =>
    rw [hcons] at hdepth₁
    obtain rfl := List.isEmpty_iff.mp hempty
    simp only [List.length_cons, List.length_nil] at hdepth₁
    omega

theorem inBlock_flawless (h : S.At env ps st) (htop : st.top = st.level)
    (hbody : Follows S (if isLoop then env.loop else env) env' body)
    (hsound : BodySound Prototype.WellFormed body) : S.Flawless (inBlock isLoop body) st := by
  refine beginBlock_flawless.bind fun _ st₁ hbegin => ?_
  have h₁ := h.beginBlock hbegin
  obtain ⟨-, htop₁, hlevel₁, -⟩ := beginBlock_sound hbegin h.sound
  refine (hbody _ _ h₁ (by omega)).1.bind fun _ st₂ hinner => ?_
  obtain ⟨m, hmove⟩ := hsound _ _ _ _ h₁.sound (by omega) hinner
  have hdepth := hmove.extends'.depth
  have hdepth₁ := beginBlock_depth hbegin h.sound.exists_scope
  have hpos := At.depth_pos h
  exact closeBlock_flawless hmove.sound.exists_scope (by omega)

/-- The body of a block, at the place of its surroundings. -/
theorem enclosed_flawless {ss : List Stmt} (h : S.At env ps st) (htop : st.top = st.level)
    (hbody : StmtsFlawless S true ss) (hsites : Sites.stmts env ss ⊆ S.places) :
    S.Flawless (do let _ ← inBlock false (statements true ss)) st := by
  have hinner : Follows S (if false = true then env.loop else env) (env.after ss)
      (statements true ss) := hbody env hsites
  exact (inBlock_flawless h htop hinner (statementsSound closed_wellFormed true ss)).bind
    fun _ _ _ => .pure ()

theorem stmtFlawless_block {ss : List Stmt} (line : Nat) (hbody : StmtsFlawless S true ss) :
    StmtFlawless S (.block ss line) := by
  refine stmtFlawless_of_declares rfl fun env hsites ps st h htop => ?_
  rw [Sites.stmt] at hsites
  rw [statement]
  refine setLine_flawless.bind fun _ st₁ hline => ?_
  have hstep₁ := setLine_step hline h.sound
  have htop₁ := hstep₁.top_eq
  have hlevel₁ := hstep₁.level
  exact enclosed_flawless (h.step hstep₁) (by omega) hbody hsites

/-! ## Jumps -/

theorem stmtFlawless_exit (line : Nat) : StmtFlawless S (.exit line) := by
  refine stmtFlawless_of_declares rfl fun env hsites ps st h htop => ?_
  have hloop : env.inLoop = true := S.heeded (.exit env) (hsites (by simp [Sites.stmt]))
  rw [statement]
  refine setLine_flawless.bind fun _ st₁ hline => Flawless.scope.bind fun s st₂ hscope => ?_
  obtain ⟨rfl, rfl⟩ := scope_ok.mp hscope
  have h₁ := h.step (setLine_step hline h.sound)
  split
  next hnone =>
    obtain ⟨b, hb, hb'⟩ := h₁.tracks.loop hloop
    have hall := List.find?_eq_none.mp hnone b hb
    simp [hb'] at hall
  next =>
    exact Flawless.scope.bind fun _ _ _ => closeIf_flawless.bind fun _ _ _ =>
      emitJump_flawless.bind fun _ _ _ => .modifyScope ⟨rfl, fun _ hq => .inl hq⟩

theorem stmtFlawless_goto (name : String) (line : Nat) : StmtFlawless S (.goto name line) :=
  stmtFlawless_of_declares rfl fun _ _ _ _ _ _ => by
    rw [statement]
    exact compileGoto_flawless

theorem stmtFlawless_label (name : String) (line : Nat) : StmtFlawless S (.label name line) :=
  stmtFlawless_of_declares rfl fun _ _ _ _ _ _ => by
    rw [statement]
    exact compileLabel_flawless

/-! ## Conditions -/

theorem clause_flawless {ss : List Stmt} {more : Bool} (h : S.At env ps st)
    (htop : st.top = st.level) (hcondition : ExprFlawless S condition)
    (hbody : StmtsFlawless S true ss) (hsites₁ : Sites.expr env condition ⊆ S.places)
    (hsites₂ : Sites.stmts env ss ⊆ S.places) :
    S.Flawless (clause condition (fun t => evaluate condition (.register t))
      (do let _ ← inBlock false (statements true ss)) more) st := by
  unfold clause
  split
  · exact .ite (fun _ => .pure _) fun _ =>
      (enclosed_flawless h htop hbody hsites₂).bind fun _ _ _ => .pure _
  · have he := hcondition.evaluates hsites₁
    refine (jumpIfFalse_flawless h he fun s hs => S.heeded s (hsites₁ hs)).bind
      fun next st₁ hnext => ?_
    have hstep₁ := (jumpIfFalse_step hnext h.sound he.sound).1
    have htop₁ := hstep₁.top_eq
    have hlevel₁ := hstep₁.level
    exact (enclosed_flawless (h.step hstep₁) (by omega) hbody hsites₂).bind fun _ _ _ =>
      jumpOver_flawless.bind fun _ _ _ => patchJumpHere_flawless.bind fun _ _ _ => .pure _

theorem clause_moves {ss : List Stmt} {more : Bool} {condition : Expr} {ps : List Nat}
    {st st' : State} {x : Bool × List Nat}
    (hok : clause condition (fun t => evaluate condition (.register t))
      (do let _ ← inBlock false (statements true ss)) more st = .ok x st')
    (hs : Sound Prototype.WellFormed ps st) (htop : st.top = st.level) :
    Moves Prototype.WellFormed ps st st' st.level st.level :=
  (guardSound more (exprSound closed_wellFormed condition)
    (statementsSound closed_wellFormed true ss) _ _ _ _ hs htop hok).1

theorem branchesFlawless_nil : BranchesFlawless S [] := by
  intro env _ hasElse ps st _ _
  rw [branches]
  exact .pure _

theorem branchesFlawless_cons {ss : List Stmt} {rest : List Branch}
    (hcondition : ExprFlawless S condition) (hbody : StmtsFlawless S true ss)
    (hrest : BranchesFlawless S rest) : BranchesFlawless S (.mk condition ss :: rest) := by
  intro env hsites hasElse ps st h htop
  rw [Sites.branches, Sites.branch, List.append_subset, List.append_subset] at hsites
  obtain ⟨⟨hsites₁, hsites₂⟩, hsites₃⟩ := hsites
  rw [branches]
  refine (clause_flawless h htop hcondition hbody hsites₁ hsites₂).bind fun x st₁ hclause => ?_
  have hmove := clause_moves hclause h.sound htop
  have htop₁ := hmove.top_eq
  have hlevel₁ := hmove.level_eq
  obtain ⟨decided, jumps⟩ := x
  exact .ite (fun _ => .pure _) fun _ =>
    (hrest env hsites₃ hasElse _ _ (h.moves hmove) (by omega)).bind fun _ _ _ => .pure _

theorem stmtFlawless_cond {ss : List Stmt} {more : List Branch} {otherwise : Option Block}
    (line : Nat) (hcondition : ExprFlawless S condition) (hbody : StmtsFlawless S true ss)
    (hmore : BranchesFlawless S more)
    (hotherwise : ∀ ss', otherwise = some ss' → StmtsFlawless S true ss') :
    StmtFlawless S (.cond condition ss more otherwise line) := by
  refine stmtFlawless_of_declares rfl fun env hsites ps st h htop => ?_
  rw [Sites.stmt.eq_def] at hsites
  simp only [List.append_subset] at hsites
  obtain ⟨⟨⟨hsites₁, hsites₂⟩, hsites₃⟩, hsites₄⟩ := hsites
  rw [statement.eq_def]
  refine setLine_flawless.bind fun _ st₁ hline => ?_
  have hstep₁ := setLine_step hline h.sound
  have htop₁ := hstep₁.top_eq
  have hlevel₁ := hstep₁.level
  have h₁ := h.step hstep₁
  refine (clause_flawless h₁ (by omega) hcondition hbody hsites₁ hsites₂).bind
    fun x st₂ hclause => ?_
  have hmove := clause_moves hclause h₁.sound (by omega)
  have htop₂ := hmove.top_eq
  have hlevel₂ := hmove.level_eq
  have h₂ := h₁.moves hmove
  obtain ⟨decided, jumps⟩ := x
  refine Flawless.bind (.ite (fun _ => .pure _) fun _ =>
    hmore env hsites₃ otherwise.isSome _ _ h₂ (by omega)) fun x st₃ hfurther => ?_
  have hmove₃ : Moves Prototype.WellFormed ps st₂ st₃ st₂.level st₂.level := by
    split at hfurther
    · obtain ⟨-, rfl⟩ := pure_ok.mp hfurther
      exact (Moves.refl h₂.sound).cast (by omega) rfl
    · exact (branchesSound closed_wellFormed otherwise.isSome more _ _ _ _ h₂.sound (by omega)
        hfurther).1
  have htop₃ := hmove₃.top_eq
  have hlevel₃ := hmove₃.level_eq
  obtain ⟨decided', further⟩ := x
  refine Flawless.bind ?_ fun _ _ _ => .forM (fun _ _ => patchJumpHere_flawless) _
  cases otherwise with
  | none => exact .pure ()
  | some ss' =>
    exact .ite (fun _ => .pure ()) fun _ =>
      enclosed_flawless (h₂.moves hmove₃) (by omega) (hotherwise ss' rfl) hsites₄

/-! ## Loops with a condition -/

theorem stmtFlawless_while {ss : List Stmt} (line : Nat) (hcondition : ExprFlawless S condition)
    (hbody : StmtsFlawless S true ss) : StmtFlawless S (.whileLoop condition ss line) := by
  refine stmtFlawless_of_declares rfl fun env hsites ps st h htop => ?_
  rw [Sites.stmt, List.append_subset] at hsites
  have hloop : ∀ st, S.At env ps st → st.top = st.level →
      S.Flawless (inBlock true (statements true ss)) st := fun st h htop => by
    have hinner : Follows S (if true = true then env.loop else env) (env.loop.after ss)
        (statements true ss) := hbody env.loop hsites.2
    exact inBlock_flawless h htop hinner (statementsSound closed_wellFormed true ss)
  rw [statement]
  refine setLine_flawless.bind fun _ st₁ hline => ?_
  have hstep₁ := setLine_step hline h.sound
  have htop₁ := hstep₁.top_eq
  have hlevel₁ := hstep₁.level
  have h₁ := h.step hstep₁
  split
  · refine .ite (fun _ => .pure ()) fun _ => here_flawless.bind fun start st₀ hhere => ?_
    obtain ⟨-, rfl⟩ := here_ok.mp hhere
    exact (hloop _ h₁ (by omega)).bind fun _ _ _ => setLine_flawless.bind fun _ _ _ =>
      jumpBack_flawless.bind fun _ _ _ => patchBreaks_flawless
  · refine here_flawless.bind fun start st₀ hhere => ?_
    obtain ⟨-, rfl⟩ := here_ok.mp hhere
    have he := hcondition.evaluates hsites.1
    refine (jumpIfFalse_flawless h₁ he fun s hs => S.heeded s (hsites.1 hs)).bind
      fun leave st₂ hleave => ?_
    have hstep₂ := (jumpIfFalse_step hleave h₁.sound he.sound).1
    have htop₂ := hstep₂.top_eq
    have hlevel₂ := hstep₂.level
    exact (hloop _ (h₁.step hstep₂) (by omega)).bind fun _ _ _ => setLine_flawless.bind
      fun _ _ _ => jumpBack_flawless.bind fun _ _ _ => patchJumpHere_flawless.bind
        fun _ _ _ => patchBreaks_flawless

theorem repeatUntil_flawless {start : Nat} (h : S.At env ps st)
    (hcondition : ExprFlawless S condition) (hsites : Sites.expr env condition ⊆ S.places)
    (hstart : st.current.proto.Landing start) :
    S.Flawless (repeatUntil start condition fun t => evaluate condition (.register t)) st := by
  refine currentBlock_flawless.bind fun block st₀ hblock => ?_
  obtain ⟨rfl, -⟩ := currentBlock_ok hblock
  split
  · exact .ite (fun _ => setLine_flawless.bind fun _ _ _ => closeIf_flawless.bind fun _ _ _ =>
      jumpBack_flawless) fun _ => .pure ()
  · refine free_flawless.bind fun saved st₁ hfree => ?_
    obtain ⟨rfl, rfl⟩ := free_ok.mp hfree
    refine (operand_flawless h hcondition hsites).bind fun r st₂ hvalue => setLine_flawless.bind
      fun _ st₃ hline => ?_
    obtain ⟨t, hstep₂, hr, hle⟩ := operand_step hvalue h.sound
    have hstep₃ := hstep₂.trans (setLine_step hline hstep₂.sound)
    have htop₂ := hstep₂.top_eq
    have htop₃ := hstep₃.top_eq
    have hlevel₃ := hstep₃.level
    have hregisters := hstep₃.sound.top_le
    have hlevel := h.sound.level_le
    refine .ite (fun _ => emitAbc_flawless.bind fun _ st₄ htest => emitJump_flawless.bind
      fun leave st₅ hleave => ?_) fun _ => emitAbc_flawless.bind fun _ st₄ htest => ?_
    · have hmove := (emitTest_moves htest hleave hstep₃.sound (by omega) (by omega)).1
      have htop₅ := hmove.top_eq
      have hlevel₅ := hmove.level_eq
      exact (release_flawless hmove.sound (by omega) (by omega)).bind fun _ _ _ =>
        emitAbc_flawless.bind fun _ _ _ => jumpBack_flawless.bind fun _ _ _ =>
          patchJumpHere_flawless
    · refine jumpBack_flawless.bind fun _ st₅ hback => ?_
      simp only [jumpBack, bind_ok] at hback
      obtain ⟨jump, st₄', hjump, hpatch⟩ := hback
      obtain ⟨hmove, hop⟩ := emitTest_moves htest hjump hstep₃.sound (by omega) (by omega)
      have hback := hmove.followed (patchJump_moves hpatch hmove.sound hop
        ((hstep₃.moves.followed hmove).grows.landing hstart))
      have htop₅ := hback.top_eq
      have hlevel₅ := hback.level_eq
      exact release_flawless hback.sound (by omega) (by omega)

theorem stmtFlawless_repeat {ss : List Stmt} (line : Nat) (hcondition : ExprFlawless S condition)
    (hbody : StmtsFlawless S false ss) : StmtFlawless S (.repeatLoop ss condition line) := by
  refine stmtFlawless_of_declares rfl fun env hsites ps st h htop => ?_
  rw [Sites.stmt, List.append_subset] at hsites
  rw [statement]
  refine setLine_flawless.bind fun _ st₀ hline => here_flawless.bind fun start st₁ hhere => ?_
  obtain ⟨rfl, rfl⟩ := here_ok.mp hhere
  have hstep₁ := setLine_step hline h.sound
  have htop₁ := hstep₁.top_eq
  have hlevel₁ := hstep₁.level
  have h₁ := h.step hstep₁
  refine beginBlock_flawless.bind fun _ st₂ hbegin => ?_
  have h₂ : S.At env.loop ps st₂ := h₁.beginBlock hbegin
  obtain ⟨hs₂, htop₂, hlevel₂, hproto₂⟩ := beginBlock_sound hbegin h₁.sound
  obtain ⟨hinner, hbehind⟩ := hbody env.loop hsites.1 _ _ h₂ (by omega)
  refine hinner.bind fun _ st₃ hstatements => ?_
  have h₃ := hbehind _ _ hstatements
  obtain ⟨m, hmove₃⟩ := statementsSound closed_wellFormed false ss _ _ _ _ hs₂ (by omega)
    hstatements
  have hstart : st₃.current.proto.Landing st₁.current.proto.chunk.size := by
    refine hmove₃.grows.landing ?_
    rw [hproto₂]
    exact h₁.sound.current.settled
  refine (repeatUntil_flawless h₃ hcondition hsites.2 hstart).bind fun _ st₄ huntil => ?_
  have hmove₄ := hmove₃.trans (repeatUntil_moves huntil hmove₃.sound
    (exprSound closed_wellFormed condition).evaluation hstart)
  have hdepth₂ := beginBlock_depth hbegin h₁.sound.exists_scope
  have hdepth₄ := hmove₄.extends'.depth
  have hpos := h₁.depth_pos
  exact (closeBlock_flawless hmove₄.sound.exists_scope (by omega)).bind fun _ _ _ =>
    patchBreaks_flawless

/-! ## Counting loops and loops over iterators -/

/-- The step of a counting loop is one if none is given. -/
theorem stepValue_flawless {step : Option Expr} (h : S.At env ps st) :
    (∀ e, step = some e → ExprFlawless S e) →
    (∀ e, step = some e → Sites.expr env e ⊆ S.places) →
    S.Flawless (match step with
      | some e => toTemporary e.line fun t => evaluate e (.register t)
      | none => toTemporary line fun r => loadConstant r (.int 1) : Gen Nat) st := by
  intro hstep hsites
  cases step with
  | some e => exact toTemporary_flawless h ((hstep e rfl).evaluates (hsites e rfl))
  | none => exact reserve_flawless.bind fun _ _ _ => loadConstant_flawless.bind fun _ _ _ => .pure _

theorem stepValue_step {step : Option Expr} {r : Nat}
    (hok : (match step with
      | some e => toTemporary e.line fun t => evaluate e (.register t)
      | none => toTemporary line fun r => loadConstant r (.int 1) : Gen Nat) st = .ok r st')
    (hs : Sound Prototype.WellFormed ps st) :
    Step Prototype.WellFormed ps st st' (st.top + 1) := by
  cases step with
  | some e =>
    exact (toTemporary_step hok hs (exprSound closed_wellFormed e).evaluation).1
  | none =>
    exact (toTemporary_step hok hs fun _ _ _ _ _ hs' hr h' => loadConstant_step h' hs' hr).1

/-- The variables of a loop are declared in its block. -/
theorem loopVariables_at {bs : List Binder} {u₁ u₂ : Unit} {st₂ st₃ : State} {t : Nat}
    (h : S.At env ps st) (hbegin : beginBlock true st = .ok u₁ st₁)
    (hroom : Step Prototype.WellFormed ps st₁ st₂ t)
    (hbinders : bs.forM addBinder st₂ = .ok u₂ st₃) :
    S.At (env.loop.declare bs) ps st₃ ∧ st₃.top = t ∧ st₃.level = st.level + bs.length ∧
      st₃.depth = st.depth + 1 := by
  have h₁ : S.At env.loop ps st₁ := h.beginBlock hbegin
  have hmove := hroom.moves.trans (addBinders_moves hbinders hroom.sound)
  have hlevel₁ := (beginBlock_sound hbegin h.sound).2.2.1
  have hlevel₂ := hroom.level
  have htop := hmove.top_eq
  have htop₂ := hroom.top_eq
  have hlevel := hmove.level_eq
  exact ⟨(h₁.step hroom).addBinders hbinders, by omega, by omega,
    hmove.extends'.depth.trans (beginBlock_depth hbegin h.sound.exists_scope)⟩

theorem stmtFlawless_numericFor {binder : Binder} {start stop : Expr} {by' : Option Expr}
    {ss : List Stmt} (line : Nat) (hstart : ExprFlawless S start) (hstop : ExprFlawless S stop)
    (hby : ∀ e, by' = some e → ExprFlawless S e) (hbody : StmtsFlawless S true ss) :
    StmtFlawless S (.numericFor binder start stop by' ss line) := by
  refine stmtFlawless_of_declares rfl fun env hsites ps st h htop => ?_
  rw [Sites.stmt.eq_def] at hsites
  simp only [List.append_subset] at hsites
  obtain ⟨⟨⟨hsites₁, hsites₂⟩, hsites₃⟩, hsites₄⟩ := hsites
  rw [statement.eq_def]
  refine setLine_flawless.bind fun _ st₁ hline => beginBlock_flawless.bind fun _ st₂ hbegin => ?_
  have hstep₁ := setLine_step hline h.sound
  have h₁ := h.step hstep₁
  have htop₁ := hstep₁.top_eq
  have hlevel₁ := hstep₁.level
  have h₂ : S.At env ps st₂ := h₁.beginBlock hbegin
  obtain ⟨-, htop₂, hlevel₂, -⟩ := beginBlock_sound hbegin h₁.sound
  have hdepth₂ := beginBlock_depth hbegin h₁.sound.exists_scope
  have hpos := h₁.depth_pos
  -- the three values of the loop become its first variables
  refine (toTemporary_flawless h₂ (hstart.evaluates hsites₁)).bind fun base st₃ hfirst => ?_
  obtain ⟨hstep₃, -⟩ := toTemporary_step hfirst h₂.sound
    (exprSound closed_wellFormed start).evaluation
  refine (toTemporary_flawless (h₂.step hstep₃) (hstop.evaluates hsites₂)).bind
    fun _ st₄ hsecond => ?_
  have hstep₄ := hstep₃.trans (toTemporary_step hsecond hstep₃.sound
    (exprSound closed_wellFormed stop).evaluation).1
  refine (stepValue_flawless (h₂.step hstep₄) hby fun e heq => ?_).bind fun _ st₅ hthird => ?_
  · subst heq
    exact hsites₃
  have hstep₅ := hstep₄.trans (stepValue_step hthird hstep₄.sound)
  have htop₃ := hstep₃.top_eq
  have htop₄ := hstep₄.top_eq
  have htop₅ := hstep₅.top_eq
  have hlevel₅ := hstep₅.level
  refine (addLoopState_flawless hstep₅.sound (by omega)).bind fun _ st₆ hstate =>
    setLine_flawless.bind fun _ st₇ hline₂ => emitLoop_flawless.bind fun prepare st₈ hprepare => ?_
  have h₆ := (h₂.step hstep₅).addLoopState hstate
  have hmove₇ := (addLoopState_moves hstate hstep₅.sound).followed
    (setLine_step hline₂ h₆.sound).moves
  have h₇ := h₆.step (setLine_step hline₂ h₆.sound)
  have hmove₈' := (emitLoop_moves hprepare h₇.sound (by simp)).1
  have hmove₈ := hmove₇.followed hmove₈'
  have h₈ := h₇.moves hmove₈'
  have htop₈ := hmove₈.top_eq
  have hlevel₈ := hmove₈.level_eq
  have hdepth₈ := (hstep₅.moves.trans hmove₈).extends'.depth
  -- the block with the variable of the loop
  refine beginBlock_flawless.bind fun _ st₉ hbegin' => reserve_flawless.bind
    fun r st₁₀ hreserve => ?_
  obtain ⟨hs₉, htop₉, hlevel₉, -⟩ := beginBlock_sound hbegin' h₈.sound
  have hroom := (reserve_step hreserve hs₉).1
  have htop₁₀ := hroom.top_eq
  have hlevel₁₀ := hroom.level
  refine (addBinder_flawless hroom.sound (by omega)).bind fun _ st₀ hbinder =>
    here_flawless.bind fun bodyStart st₁₁ hhere => ?_
  obtain ⟨rfl, rfl⟩ := here_ok.mp hhere
  have hreserve' : reserve [binder].length line st₉ = .ok r st₁₀ := hreserve
  have hbinders : [binder].forM addBinder st₁₀ = .ok () st₁₁ := by simpa using hbinder
  obtain ⟨h₁₁, htop₁₁, hlevel₁₁, hdepth₁₁⟩ := loopVariables_at h₈ hbegin' hroom hbinders
  simp only [List.length_singleton] at hlevel₁₁
  refine (hbody _ hsites₄ _ _ h₁₁ (by omega)).1.bind fun _ st₁₂ hinner => ?_
  have hsound := statementsSound closed_wellFormed true ss
  obtain ⟨m, hmove₁₂⟩ := hsound _ _ _ _ h₁₁.sound (by omega) hinner
  have hdepth₁₂ := hmove₁₂.extends'.depth
  refine (closeBlock_flawless hmove₁₂.sound.exists_scope (by omega)).bind fun loop st₁₃ hclose => ?_
  have hmove₁₃ := (loopBlock_moves hbegin' hreserve' (fun _ hs' => .refl hs') hbinders hinner hclose
    h₈.sound (by omega) hsound).1
  have hdepth₁₃ := hmove₁₃.extends'.depth
  -- the block around it ends with the loop
  refine setLine_flawless.bind fun _ st₁₄ hline₃ => emitLoop_flawless.bind fun back st₁₅ hback =>
    patchLoop_flawless.bind fun _ st₁₆ hpatch => patchLoop_flawless.bind fun _ st₁₇ hpatch' =>
      patchBreaks_flawless.bind fun _ st₁₈ hbreaks => ?_
  obtain ⟨hs₁₄, hdepth₁₄⟩ := setLine_depth hline₃ hmove₁₃.sound.exists_scope
  obtain ⟨hs₁₅, hdepth₁₅⟩ := emit_depth hback hs₁₄
  obtain ⟨hs₁₆, hdepth₁₆⟩ := patchWithin_depth hpatch hs₁₅
  obtain ⟨hs₁₇, hdepth₁₇⟩ := patchWithin_depth hpatch' hs₁₆
  obtain ⟨hs₁₈, hdepth₁₈⟩ := patchAll_depth hbreaks hs₁₇
  exact (closeBlock_flawless hs₁₈ (by omega)).bind fun _ _ _ => .pure _

theorem stmtFlawless_genericFor {bs : List Binder} {iterators : List Expr} {ss : List Stmt}
    (line : Nat) (hiterators : ItemsFlawless S iterators) (hbody : StmtsFlawless S true ss) :
    StmtFlawless S (.genericFor bs iterators ss line) := by
  refine stmtFlawless_of_declares rfl fun env hsites ps st h htop => ?_
  rw [Sites.stmt, List.cons_subset, List.append_subset] at hsites
  have hsites := hsites.2
  rw [statement]
  refine setLine_flawless.bind fun _ st₁ hline => beginBlock_flawless.bind fun _ st₀ hbegin =>
    free_flawless.bind fun base st₂ hfree => ?_
  obtain ⟨rfl, rfl⟩ := free_ok.mp hfree
  have hstep₁ := setLine_step hline h.sound
  have h₁ := h.step hstep₁
  have htop₁ := hstep₁.top_eq
  have hlevel₁ := hstep₁.level
  have h₂ : S.At env ps st₂ := h₁.beginBlock hbegin
  obtain ⟨-, htop₂, hlevel₂, -⟩ := beginBlock_sound hbegin h₁.sound
  have hdepth₂ := beginBlock_depth hbegin h₁.sound.exists_scope
  have hpos := h₁.depth_pos
  -- the three values of the loop become its first variables
  have hitems := hiterators.itemsOf hsites.1
  refine (adjusted_flawless h₂ hitems).bind fun count st₃ hlist => ?_
  obtain ⟨t, hstep₃, -, -, hwanted⟩ := adjusted_step hlist h₂.sound hitems.sound
  have hwanted' := hwanted 3 rfl
  have htop₃ := hstep₃.top_eq
  have hlevel₃ := hstep₃.level
  refine (addLoopState_flawless hstep₃.sound (by omega)).bind fun _ st₄ hstate =>
    setLine_flawless.bind fun _ st₅ hline₂ => emitJump_flawless.bind fun enter st₆ henter => ?_
  have h₄ := (h₂.step hstep₃).addLoopState hstate
  have hmove₅ := (addLoopState_moves hstate hstep₃.sound).followed
    (setLine_step hline₂ h₄.sound).moves
  have h₅ := h₄.step (setLine_step hline₂ h₄.sound)
  have hmove₆' := (emitJump_moves henter h₅.sound).1
  have hmove₆ := hmove₅.followed hmove₆'
  have h₆ := h₅.moves hmove₆'
  have htop₆ := hmove₆.top_eq
  have hlevel₆ := hmove₆.level_eq
  have hdepth₆ := (hstep₃.moves.trans hmove₆).extends'.depth
  -- the block with the variables of the loop
  refine beginBlock_flawless.bind fun _ st₇ hbegin' => reserve_flawless.bind
    fun r st₈ hreserve => ensureRegisters_flawless.bind fun _ st₉ hensure => ?_
  obtain ⟨hs₇, htop₇, hlevel₇, -⟩ := beginBlock_sound hbegin' h₆.sound
  have hroom₈ := (reserve_step hreserve hs₇).1
  have hroom₉ : Step Prototype.WellFormed ps st₈ st₉ st₈.top :=
    (ensureRegisters_step hensure hroom₈.sound).1
  have hroom := hroom₈.trans hroom₉
  have htop₈ := hroom₈.top_eq
  have htop₉ := hroom.top_eq
  have hlevel₉ := hroom.level
  refine (addBinders_flawless hroom.sound (by omega)).bind fun _ st₀ hbinders =>
    here_flawless.bind fun bodyStart st₁₀ hhere => ?_
  obtain ⟨rfl, rfl⟩ := here_ok.mp hhere
  obtain ⟨h₁₀, htop₁₀, hlevel₁₀, hdepth₁₀⟩ := loopVariables_at h₆ hbegin' hroom hbinders
  refine (hbody _ hsites.2 _ _ h₁₀ (by omega)).1.bind fun _ st₁₁ hinner => ?_
  have hsound := statementsSound closed_wellFormed true ss
  obtain ⟨m, hmove₁₁⟩ := hsound _ _ _ _ h₁₀.sound (by omega) hinner
  have hdepth₁₁ := hmove₁₁.extends'.depth
  refine (closeBlock_flawless hmove₁₁.sound.exists_scope (by omega)).bind fun loop st₁₂ hclose => ?_
  have hmove₁₂ := (loopBlock_moves hbegin' hreserve (fun _ _ => hroom₉) hbinders hinner hclose
    h₆.sound (by omega) hsound).1
  have hdepth₁₂ := hmove₁₂.extends'.depth
  -- the block around it ends with the loop
  refine setLine_flawless.bind fun _ st₁₃ hline₃ => patchJumpHere_flawless.bind
    fun _ st₁₄ hpatch => emitAbc_flawless.bind fun _ st₁₅ hcall => emitLoop_flawless.bind
      fun back st₁₆ hback => patchLoop_flawless.bind fun _ st₁₇ hpatch' =>
        patchBreaks_flawless.bind fun _ st₁₈ hbreaks => ?_
  obtain ⟨hs₁₃, hdepth₁₃⟩ := setLine_depth hline₃ hmove₁₂.sound.exists_scope
  obtain ⟨hs₁₄, hdepth₁₄⟩ := patchWithin_depth (patchJumpHere_ok hpatch) hs₁₃
  obtain ⟨n, hcall'⟩ := emitAbc_ok hcall
  obtain ⟨hs₁₅, hdepth₁₅⟩ := emit_depth hcall' hs₁₄
  obtain ⟨hs₁₆, hdepth₁₆⟩ := emit_depth hback hs₁₅
  obtain ⟨hs₁₇, hdepth₁₇⟩ := patchWithin_depth hpatch' hs₁₆
  obtain ⟨hs₁₈, hdepth₁₈⟩ := patchAll_depth hbreaks hs₁₇
  exact (closeBlock_flawless hs₁₈ (by omega)).bind fun _ _ _ => .pure _

/-! ## Lists of statements -/

theorem stmtsFlawless_nil (ends : Bool) : StmtsFlawless S ends [] := by
  intro env _ ps st h _
  rw [statements]
  refine ⟨.pure _, fun u st' hok => ?_⟩
  obtain ⟨-, rfl⟩ := pure_ok.mp hok
  simpa [Surroundings.after] using h

theorem Follows.andThen {env₁ : Surroundings} {n : Nat} {first second : Gen Unit}
    (h₁ : Follows S env env₁ first) (hd : Declares Prototype.WellFormed n first)
    (h₂ : Follows S env₁ env' second) : Follows S env env' (do first; second) := by
  intro ps st h htop
  obtain ⟨hfirst, hbehind⟩ := h₁ ps st h htop
  have hrest : ∀ {u : Unit} {st₁ : State}, first st = .ok u st₁ →
      S.Flawless second st₁ ∧ ∀ u st', second st₁ = .ok u st' → S.At env' ps st' := fun hok => by
    have hmove := hd _ _ _ _ h.sound htop hok
    exact h₂ _ _ (hbehind _ _ hok) (hmove.top_eq.trans hmove.level_eq.symm)
  refine ⟨hfirst.bind fun _ _ hok => (hrest hok).1, fun u st' hok => ?_⟩
  rw [bind_ok] at hok
  obtain ⟨_, st₁, hok₁, hok₂⟩ := hok
  exact (hrest hok₁).2 _ _ hok₂

theorem stmtsFlawless_cons {s : Stmt} {rest : List Stmt} {ends : Bool} (hs : StmtFlawless S s)
    (hrest : StmtsFlawless S ends rest) : StmtsFlawless S ends (s :: rest) := by
  intro env hsites
  rw [Sites.stmts, List.append_subset] at hsites
  have hafter : env.after (s :: rest) = (env.declare s.declared).after rest := by
    unfold Surroundings.after
    rw [List.flatMap_cons, Surroundings.declare_append]
  rw [hafter]
  have hbehind := hrest _ hsites.2
  by_cases hlabel : ∃ name line, s = .label name line
  · obtain ⟨name, line, rfl⟩ := hlabel
    rw [statements]
    have hd : Declares Prototype.WellFormed 0
        (compileLabel name line (ends && rest.all Stmt.isLabel)) :=
      declares_compileLabel name line _
    refine Follows.andThen ?_ hd hbehind
    have hnone : env.declare (Stmt.label name line).declared = env := env.declare_nil
    rw [hnone]
    exact .of_declares hd fun _ _ _ _ => compileLabel_flawless
  · rw [statements.eq_3 _ _ _ fun name line heq => hlabel ⟨name, line, heq⟩]
    exact (hs env hsites.1).andThen (declares closed_wellFormed s) hbehind

end Generator
end LuaMachine
