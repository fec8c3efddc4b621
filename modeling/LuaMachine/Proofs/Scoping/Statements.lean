import LuaMachine.Proofs.Scoping.Expressions
/-! # Statements without defects

One lemma for each form of statement: if the places inside of it are places of a program that was
analyzed, compiling it ends in no defect and leaves the compiler at the place behind it.

* `StmtFlawless`, `StmtsFlawless`, `TargetFlawless`: the statements of the lemmas.
* `stmtFlawless_assign`, `stmtFlawless_locals` and the like: the cases of the induction.
-/
set_option autoImplicit false

namespace LuaMachine
namespace Generator

/-! ## What is assumed of the parts -/

/-- From one place to another, with only variables in use before. -/
def Follows (S : Setting) (env env' : Surroundings) (act : Gen Unit) : Prop :=
  ∀ ps st, S.At env ps st → st.top = st.level →
    S.Flawless act st ∧ ∀ u st', act st = .ok u st' → S.At env' ps st'

def StmtFlawless (S : Setting) (s : Stmt) : Prop :=
  ∀ env, Sites.stmt env s ⊆ S.places → Follows S env (env.declare s.declared) (statement s)

def StmtsFlawless (S : Setting) (ends : Bool) (ss : List Stmt) : Prop :=
  ∀ env, Sites.stmts env ss ⊆ S.places → Follows S env (env.after ss) (statements ends ss)

def BranchesFlawless (S : Setting) (bs : List Branch) : Prop :=
  ∀ env, Sites.branches env bs ⊆ S.places → ∀ hasElse ps st, S.At env ps st →
    st.top = st.level → S.Flawless (branches bs hasElse) st

def TargetFlawless (S : Setting) (e : Expr) : Prop :=
  ∀ env, Sites.expr env e ⊆ S.places → e.isTarget = true → ∀ several ps st, S.At env ps st →
    S.Flawless (target e several) st ∧
      ∀ x st', target e several st = .ok x st' → Storable S.captured env x

def TargetsFlawless (S : Setting) (es : List Expr) : Prop :=
  ∀ env, Sites.exprs env es ⊆ S.places → (∀ e ∈ es, e.isTarget = true) →
    ∀ several ps st, S.At env ps st → S.Flawless (targets es several) st ∧
      ∀ xs st', targets es several st = .ok xs st' → ∀ x ∈ xs, Storable S.captured env x

variable {S : Setting} {env env' : Surroundings} {ps ps' : List Nat} {st st' st₀ st₁ : State}
  {u : Unit} {line n r : Nat} {e k condition : Expr} {act : Evaluation} {body : Gen Unit}
  {isLoop : Bool} {b : ScopeBlock}

/-- A statement that declares nothing. -/
theorem Follows.of_declares (hd : Declares Prototype.WellFormed 0 body)
    (hf : ∀ ps st, S.At env ps st → st.top = st.level → S.Flawless body st) :
    Follows S env env body :=
  fun ps st h htop => ⟨hf ps st h htop, fun _ _ hok =>
    h.moves (hd _ _ _ _ h.sound htop hok)⟩

theorem stmtFlawless_of_declares {s : Stmt} (hnone : s.declared = [])
    (hf : ∀ env, Sites.stmt env s ⊆ S.places → ∀ ps st, S.At env ps st → st.top = st.level →
      S.Flawless (statement s) st) : StmtFlawless S s := by
  intro env hsites
  have hd := declares closed_wellFormed s
  rw [hnone] at hd ⊢
  rw [Surroundings.declare_nil]
  exact .of_declares hd (hf env hsites)

/-! ## Expressions and assignments -/

theorem stmtFlawless_expr (line : Nat) (he : ExprFlawless S e) : StmtFlawless S (.expr e line) := by
  refine stmtFlawless_of_declares rfl fun env hsites ps st h htop => ?_
  rw [Sites.stmt] at hsites
  rw [statement]
  refine setLine_flawless.bind fun _ st₁ hline => free_flawless.bind fun saved st₂ hfree => ?_
  obtain ⟨rfl, rfl⟩ := free_ok.mp hfree
  have hstep₁ := setLine_step hline h.sound
  have h₁ := h.step hstep₁
  refine (he env hsites _ _ (.values (some 0)) h₁ trivial).bind fun _ st₃ hvalue => ?_
  have hstep := exprSound closed_wellFormed e _ _ _ (.values (some 0)) _ h₁.sound trivial hvalue
  exact release_saved_flawless h₁.sound hstep (Nat.le_refl _)

theorem targetFlawless_name (n : String) (line : Nat) : TargetFlawless S (.name n line) := by
  intro env hsites _ several ps st h
  have hname : Site.Heeded S.captured (.name env n) :=
    S.heeded _ (hsites (by simp [Sites.expr]))
  rw [target]
  exact ⟨nameTarget_flawless h hname, fun _ _ => nameTarget_storable h hname⟩

theorem targetFlawless_index (line : Nat) (he : ExprFlawless S e) (hk : ExprFlawless S k) :
    TargetFlawless S (.index e k line) := by
  intro env hsites _ several ps st h
  rw [Sites.expr, List.append_subset] at hsites
  have hheeded : ∀ {x : Expr}, Sites.expr env x ⊆ S.places →
      ∀ s ∈ Sites.expr env x, s.Heeded S.captured := fun hx s hs => S.heeded s (hx hs)
  rw [target]
  refine ⟨?_, fun x st' hok => ?_⟩
  · refine (toOperand_flawless h (he.evaluates hsites.1) (hheeded hsites.1)).bind
      fun table st₁ htable => fieldPlace?_flawless.bind fun place st₂ hplace => ?_
    obtain ⟨t, hstep₁, -⟩ := toOperand_step htable h.sound (he.evaluates hsites.1).sound
    have hstep₂ := hstep₁.trans (fieldPlace?_step hplace hstep₁.sound).1
    split
    · exact .pure _
    · exact (toOperand_flawless (h.step hstep₂) (hk.evaluates hsites.2) (hheeded hsites.2)).bind
        fun _ _ _ => .pure _
  · simp only [bind_ok] at hok
    obtain ⟨table, st₁, -, place, st₂, -, hok⟩ := hok
    split at hok
    · simp only [pure_ok] at hok
      obtain ⟨rfl, -⟩ := hok
      trivial
    · simp only [bind_ok, pure_ok] at hok
      obtain ⟨key, st₃, -, rfl, -⟩ := hok
      trivial

theorem targetFlawless_other (h : e.isTarget = false) : TargetFlawless S e := by
  intro env _ htarget
  rw [h] at htarget
  cases htarget

theorem targetsFlawless_nil : TargetsFlawless S [] := by
  intro env _ _ several ps st _
  rw [targets]
  refine ⟨.pure _, fun xs st' hok => ?_⟩
  obtain ⟨rfl, -⟩ := pure_ok.mp hok
  simp

theorem targetsFlawless_cons {es : List Expr} (he : TargetFlawless S e)
    (hes : TargetsFlawless S es) : TargetsFlawless S (e :: es) := by
  intro env hsites htargets several ps st h
  rw [Sites.exprs, List.append_subset] at hsites
  obtain ⟨htarget, htargets⟩ := List.forall_mem_cons.mp htargets
  obtain ⟨hfirst, hstorable⟩ := he env hsites.1 htarget several ps st h
  have hrest : ∀ {x : Target} {st₁ : State}, target e several st = .ok x st₁ →
      S.Flawless (targets es several) st₁ ∧ ∀ xs st', targets es several st₁ = .ok xs st' →
        ∀ x ∈ xs, Storable S.captured env x := fun hx => by
    obtain ⟨t, hstep, -⟩ := targetSound closed_wellFormed e _ _ _ _ _ h.sound hx
    exact hes env hsites.2 htargets several ps _ (h.step hstep)
  rw [targets]
  refine ⟨hfirst.bind fun x st₁ hx => (hrest hx).1.bind fun _ _ _ => .pure _, ?_⟩
  intro xs st' hok
  simp only [bind_ok, pure_ok] at hok
  obtain ⟨x, st₁, hx, rest, st₂, hrest', rfl, rfl⟩ := hok
  exact List.forall_mem_cons.mpr ⟨hstorable x st₁ hx, (hrest hx).2 rest _ hrest'⟩

theorem stmtFlawless_assign {left right : List Expr} (line : Nat) (hleft : TargetsFlawless S left)
    (hright : ItemsFlawless S right) : StmtFlawless S (.assign left right line) := by
  refine stmtFlawless_of_declares rfl fun env hsites ps st h htop => ?_
  rw [Sites.stmt, List.append_subset, List.append_subset] at hsites
  obtain ⟨⟨htargets, hsites₁⟩, hsites₂⟩ := hsites
  have hregular : ∀ e ∈ left, e.isTarget = true := fun e he =>
    S.regular (.target e) (htargets (List.mem_map_of_mem he))
  rw [statement]
  refine setLine_flawless.bind fun _ st₁ hline => free_flawless.bind fun saved st₀ hfree => ?_
  obtain ⟨rfl, rfl⟩ := free_ok.mp hfree
  have hstep₁ := setLine_step hline h.sound
  have h₁ := h.step hstep₁
  obtain ⟨hprepare, hstorable⟩ := hleft env hsites₁ hregular (1 < left.length) _ _ h₁
  refine hprepare.bind fun prepared st₂ htargets' => free_flawless.bind fun base st₀ hfree => ?_
  obtain ⟨rfl, rfl⟩ := free_ok.mp hfree
  obtain ⟨t, hstep₂, hle, hlength, hwithin⟩ :=
    targetsSound closed_wellFormed left _ _ _ _ _ h₁.sound htargets'
  have htop₂ := hstep₂.top_eq
  have hitems := hright.itemsOf hsites₂
  refine (adjusted_flawless (h₁.step hstep₂) hitems).bind fun count st₃ hvalues =>
    setLine_flawless.bind fun _ st₄ hline' => ?_
  obtain ⟨t', hstep₃, -, -, hwanted⟩ := adjusted_step hvalues hstep₂.sound hitems.sound
  have htop₃ := hstep₃.top_eq
  have hwanted' := hwanted _ rfl
  have hline'' := setLine_step hline' hstep₃.sound
  have hstep₄ := (hstep₂.trans hstep₃).trans hline''
  have htop₄ := hstep₄.top_eq
  have hxs : ∀ x ∈ prepared, TargetWithin st₄.current.proto st₄.top x ∧
      Storable S.captured env x := fun x hx =>
    ⟨(hwithin x hx).mono (hstep₃.trans hline'').grows (by omega),
      hstorable prepared _ htargets' x hx⟩
  refine (storeAll_flawless (h₁.step hstep₄) hxs (by omega)).bind fun _ st₅ hstore => ?_
  have hstep₅ := hstep₄.trans
    (storeAll_step hstore hstep₄.sound (fun x hx => (hxs x hx).1) (by omega))
  exact release_saved_flawless h₁.sound hstep₅ (by omega)

theorem stmtFlawless_locals {bs : List Binder} {values : List Expr} (line : Nat)
    (hvalues : ItemsFlawless S values) : StmtFlawless S (.locals bs values line) := by
  intro env hsites ps st h htop
  rw [Sites.stmt] at hsites
  have hitems := hvalues.itemsOf hsites
  have hadjust : ∀ {st₁ st₂ : State} {u : Unit} {count : Option Nat},
      setLine line st = .ok u st₁ →
      adjusted values (some bs.length) (fun last => items values last) st₁ = .ok count st₂ →
      S.At env ps st₂ ∧ st₂.level + bs.length = st₂.top := by
    intro st₁ st₂ u count hline hlist
    have hstep₁ := setLine_step hline h.sound
    obtain ⟨t, hstep₂, -, -, hwanted⟩ := adjusted_step hlist hstep₁.sound hitems.sound
    have htop₁ := hstep₁.top_eq
    have htop₂ := hstep₂.top_eq
    have hlevel := (hstep₁.trans hstep₂).level
    have hwanted' := hwanted _ rfl
    exact ⟨h.step (hstep₁.trans hstep₂), by omega⟩
  rw [statement]
  refine ⟨setLine_flawless.bind fun _ st₁ hline => ?_, fun u st' hok => ?_⟩
  · refine (adjusted_flawless (h.step (setLine_step hline h.sound)) hitems).bind
      fun count st₂ hlist => ?_
    obtain ⟨h₂, htop₂⟩ := hadjust hline hlist
    exact addBinders_flawless h₂.sound (Nat.le_of_eq htop₂)
  · simp only [bind_ok] at hok
    obtain ⟨_, st₁, hline, count, st₂, hlist, hbinders⟩ := hok
    exact (hadjust hline hlist).1.addBinders hbinders

theorem stmtFlawless_localFunction {binder : Binder} {f : Function} (line : Nat)
    (hf : FunctionFlawless S f) : StmtFlawless S (.localFunction binder f line) := by
  intro env hsites ps st h htop
  rw [Sites.stmt] at hsites
  have hbound : ∀ {st₁ st₂ : State} {r : Nat} {u : Unit}, setLine line st = .ok u st₁ →
      reserve 1 line st₁ = .ok r st₂ → S.At env ps st₂ ∧ st₂.level + 1 = st₂.top ∧
        r + 1 = st₂.top := by
    intro st₁ st₂ r u hline hreserve
    have hstep₁ := setLine_step hline h.sound
    obtain ⟨hstep₂, rfl⟩ := reserve_step hreserve hstep₁.sound
    have htop₁ := hstep₁.top_eq
    have htop₂ := hstep₂.top_eq
    have hlevel := (hstep₁.trans hstep₂).level
    exact ⟨h.step (hstep₁.trans hstep₂), by omega, by omega⟩
  rw [statement]
  refine ⟨setLine_flawless.bind fun _ st₁ hline => reserve_flawless.bind fun r st₂ hreserve => ?_,
    fun u st' hok => ?_⟩
  · obtain ⟨h₂, htop₂, -⟩ := hbound hline hreserve
    refine (addBinder_flawless h₂.sound (by omega)).bind fun _ st₃ hbinder => ?_
    exact closureOf_flawless (h₂.addBinder hbinder) hf hsites
  · rw [bind_ok] at hok
    obtain ⟨_, st₁, hline, hok⟩ := hok
    rw [bind_ok] at hok
    obtain ⟨r, st₂, hreserve, hok⟩ := hok
    rw [bind_ok] at hok
    obtain ⟨_, st₃, hbinder, hclosure⟩ := hok
    obtain ⟨h₂, htop₂, hr⟩ := hbound hline hreserve
    have h₃ := h₂.addBinder hbinder
    have htop₃ := (addBinder_moves hbinder h₂.sound).top_eq
    exact h₃.step (closureOf_step hclosure h₃.sound (functionSound closed_wellFormed f)
      (by omega))

theorem stmtFlawless_function {left : Expr} {f : Function} (line : Nat)
    (hleft : TargetFlawless S left) (hf : FunctionFlawless S f) :
    StmtFlawless S (.function left f line) := by
  refine stmtFlawless_of_declares rfl fun env hsites ps st h htop => ?_
  rw [Sites.stmt, List.cons_append, List.cons_subset, List.append_subset] at hsites
  obtain ⟨htarget, hsites₁, hsites₂⟩ := hsites
  rw [statement]
  refine setLine_flawless.bind fun _ st₁ hline => free_flawless.bind fun saved st₀ hfree => ?_
  obtain ⟨rfl, rfl⟩ := free_ok.mp hfree
  have hstep₁ := setLine_step hline h.sound
  have h₁ := h.step hstep₁
  obtain ⟨hprepare, hstorable⟩ := hleft env hsites₁ (S.regular _ htarget) false _ _ h₁
  refine hprepare.bind fun x st₂ htarget' => reserve_flawless.bind fun value st₃ hreserve => ?_
  obtain ⟨t, hstep₂, hle, hx⟩ := targetSound closed_wellFormed left _ _ _ _ _ h₁.sound htarget'
  obtain ⟨hstep₃, rfl⟩ := reserve_step hreserve hstep₂.sound
  have htop₂ := hstep₂.top_eq
  have htop₃ := hstep₃.top_eq
  have h₃ := h₁.step (hstep₂.trans hstep₃)
  refine (hf env hsites₂ _ _ h₃).bind fun place st₄ hfunction => setLine_flawless.bind
    fun _ st₅ hline' => emitAbx_flawless.bind fun _ st₆ hclosure => ?_
  have hclosure' := closureOf_step (bind_ok.mpr ⟨place, st₄, hfunction,
    bind_ok.mpr ⟨(), st₅, hline', hclosure⟩⟩) h₃.sound (functionSound closed_wellFormed f)
    (by omega)
  have hstep₆ := (hstep₂.trans hstep₃).trans hclosure'
  have htop₆ := hstep₆.top_eq
  refine (store_flawless (h₁.step hstep₆) (hstorable _ _ htarget') (by omega)).bind
    fun _ st₇ hstore => ?_
  have hstep₇ := hstep₆.trans (store_step hstore hstep₆.sound
    (hx.mono (hstep₃.trans hclosure').grows (by omega)) (by omega))
  exact release_saved_flawless h₁.sound hstep₇ (by omega)

/-! ## Returning -/

theorem returnedVariable_flawless {values : List Expr} (h : S.At env ps st)
    (hsites : Sites.exprs env values ⊆ S.places) :
    S.Flawless (returnedVariable values) st := by
  unfold returnedVariable
  split
  next n line =>
    have hname : Site.Heeded S.captured (.name env n) :=
      S.heeded _ (hsites (by simp [Sites.exprs, Sites.expr]))
    refine (resolve_flawless h hname.1).bind fun reference _ _ => ?_
    split <;> exact .pure _
  next => exact .pure _

theorem stmtFlawless_ret {values : List Expr} (line : Nat) (hvalues : ItemsFlawless S values) :
    StmtFlawless S (.ret values line) := by
  refine stmtFlawless_of_declares rfl fun env hsites ps st h htop => ?_
  rw [Sites.stmt] at hsites
  rw [statement]
  refine setLine_flawless.bind fun _ st₁ hline => ?_
  have hstep₁ := setLine_step hline h.sound
  have h₁ := h.step hstep₁
  refine (returnedVariable_flawless h₁ hsites).bind fun found st₂ hfound => ?_
  have hstep₂ := (returnedVariable_step hfound h₁.sound).1
  split
  · exact emitAbc_flawless
  · exact emitAbc_flawless
  · refine free_flawless.bind fun base st₀ hfree => ?_
    obtain ⟨rfl, rfl⟩ := free_ok.mp hfree
    have hitems := hvalues.itemsOf hsites
    refine (adjusted_flawless (h₁.step hstep₂) hitems).bind fun count st₃ hlist =>
      setLine_flawless.bind fun _ st₄ hline' => emitAbc_flawless.bind fun _ st₅ hreturn => ?_
    obtain ⟨t, hstep₃, hle, hcount, -⟩ := adjusted_step hlist hstep₂.sound hitems.sound
    have hstep₄ := hstep₃.trans (setLine_step hline' hstep₃.sound)
    have htop₄ := hstep₄.top_eq
    have htop₃ := hstep₃.top_eq
    have hregisters := hstep₄.sound.top_le
    have hmax := hstep₄.sound.registers_le
    have hmove := emitReturn_moves hreturn hstep₄.sound (by omega) (by
      rcases count with _ | c
      · exact .inl rfl
      · have hc := hcount c rfl
        refine .inr ?_
        change _ + (c + 1 - 1) ≤ _
        omega)
    have htop₅ := hmove.top_eq
    have hlevel₅ := hmove.level_eq
    have hlevel₄ := hstep₄.level
    have hlevel := hstep₂.sound.level_le
    exact release_flawless hmove.sound (by omega) (by omega)

end Generator
end LuaMachine
