import LuaMachine.Proofs.Scoping.Tracking
/-! # Values without defects

What expressions are put together from ends in no defect, if the expressions inside of them do not.

* `Evaluates`, `CallsOn`, `ItemsOf`: what is assumed of an action that is passed on.
* `toAnyRegister_flawless`, `called_flawless`, `adjusted_flawless`: values at their destination.
* `compileName_flawless`, `store_flawless`: variables and globals.
-/
set_option autoImplicit false

namespace LuaMachine
namespace Generator

/-! ## Actions that are passed on -/

/-- At this place the action leaves a value in a register that is in use, without a defect. -/
structure Evaluates (Good P : Prototype → Prop) (captured : Std.HashSet Nat) (env : Surroundings)
    (e : Evaluation) : Prop where
  sound : EvaluationSound Good e
  flawless : ∀ (ps : List Nat) (st : State) (r : Nat), At Good captured env ps st → r < st.top →
    Flawless P (e r) st

structure CallsOn (Good P : Prototype → Prop) (captured : Std.HashSet Nat) (env : Surroundings)
    (call : Option Nat → Gen Unit) : Prop where
  sound : CallSound Good call
  flawless : ∀ (results : Option Nat) (ps : List Nat) (st : State), At Good captured env ps st →
    Flawless P (call results) st

structure ListsOf (Good P : Prototype → Prop) (captured : Std.HashSet Nat) (env : Surroundings)
    (list : Gen (Option Nat)) : Prop where
  sound : ListSound Good list
  flawless : ∀ (ps : List Nat) (st : State), At Good captured env ps st → Flawless P list st

structure ItemsOf (Good P : Prototype → Prop) (captured : Std.HashSet Nat) (env : Surroundings)
    (list : List Expr) (items : Option Nat → Gen Unit) : Prop where
  sound : ItemsSound Good list items
  flawless : ∀ (last : Option Nat) (ps : List Nat) (st : State), At Good captured env ps st →
    Flawless P (items last) st

variable {captured : Std.HashSet Nat} {env : Surroundings} {Good P : Prototype → Prop}
  {ps : List Nat} {st st' : State} {e : Evaluation} {line r n : Nat}

/-! ## Registers for values -/

theorem toTemporary_flawless (h : At Good captured env ps st)
    (he : Evaluates Good P captured env e) : Flawless P (toTemporary line e) st := by
  refine reserve_flawless.bind fun r st₁ hreserve => ?_
  obtain ⟨hstep, rfl⟩ := reserve_step hreserve h.sound
  have htop := hstep.top_eq
  exact (he.flawless _ _ _ (h.step hstep) (by omega)).bind fun _ _ _ => .pure _

theorem toAnyRegister_flawless {node : Expr} (h : At Good captured env ps st)
    (he : Evaluates Good P captured env e)
    (hnode : ∀ s ∈ Sites.expr env node, s.Heeded captured) :
    Flawless P (toAnyRegister node e) st := by
  unfold toAnyRegister
  split
  next name line =>
    have hname : Site.Heeded captured (.name env name) := hnode _ (by simp [Sites.expr])
    refine (resolve_flawless h hname.1).bind fun reference st₁ hresolve => ?_
    have hstep := (resolve_step hresolve h.sound).1
    split
    · exact .pure _
    · exact toTemporary_flawless (h.step hstep) he
  next => exact toTemporary_flawless h he

theorem toOperand_flawless {own : Bool} {node : Expr} (h : At Good captured env ps st)
    (he : Evaluates Good P captured env e)
    (hnode : ∀ s ∈ Sites.expr env node, s.Heeded captured) :
    Flawless P (toOperand own node e) st :=
  .ite (fun _ => toTemporary_flawless h he) fun _ => toAnyRegister_flawless h he hnode

theorem single_flawless {d : Destination} (h : At Good captured env ps st)
    (he : Evaluates Good P captured env e) (hd : d.InUse st.top) :
    Flawless P (single line d e) st := by
  unfold single
  split
  next r => exact he.flawless _ _ _ h hd
  next r => exact he.flawless _ _ _ h hd
  next =>
    refine free_flawless.bind fun saved st₁ hfree => ?_
    obtain ⟨rfl, rfl⟩ := free_ok.mp hfree
    refine (toTemporary_flawless h he).bind fun r st₂ htemporary => ?_
    exact release_saved_flawless h.sound (toTemporary_step htemporary h.sound he.sound).1
      (Nat.le_succ _)
  next => exact (toTemporary_flawless h he).bind fun _ _ _ => padNils_flawless

/-! ## Calls -/

theorem finishCall_flawless {base : Nat} {args results : Option Nat} (hs : Sound Good ps st)
    (hlevel : st.level ≤ base) (hbase : base ≤ st.top) :
    Flawless P (finishCall base line args results) st := by
  refine setLine_flawless.bind fun _ st₁ hline => emitAbc_flawless.bind fun _ st₂ hcall => ?_
  have hstep := setLine_step hline hs
  obtain ⟨n, hcall⟩ := emitAbc_ok hcall
  have hopen := emit_sound_open hcall hstep.sound (by simp)
  have htop : st₂.top = st.top := (emit_top hcall hstep.sound).trans hstep.top_eq
  have hlevel' : st₂.level = st.level := by
    rw [← hstep.level]
    unfold State.level
    rw [(emit_adds hcall hstep.sound).locals]
  exact (release_flawless hopen (by omega) (by omega)).bind fun _ _ _ =>
    .ite (fun _ => reserve_flawless.bind fun _ _ _ => .pure ()) fun _ => .pure ()

theorem callsOn_compileCall {callee : Evaluation} {args : Gen (Option Nat)}
    (hcallee : Evaluates Good P captured env callee) (hargs : ListsOf Good P captured env args) :
    CallsOn Good P captured env (compileCall line callee args) where
  sound := compileCall_step hcallee.sound hargs.sound
  flawless results ps st h := by
    refine reserve_flawless.bind fun base st₁ hreserve => ?_
    obtain ⟨hstep₁, rfl⟩ := reserve_step hreserve h.sound
    have htop₁ := hstep₁.top_eq
    have h₁ := h.step hstep₁
    refine (hcallee.flawless _ _ _ h₁ (by omega)).bind fun _ st₂ hvalue => ?_
    have hstep₂ := hstep₁.trans (hcallee.sound _ _ _ _ _ h₁.sound (by omega) hvalue)
    have htop₂ := hstep₂.top_eq
    refine (hargs.flawless _ _ (h.step hstep₂)).bind fun n st₃ hlist => ?_
    obtain ⟨t, hstep₃, hle, -⟩ := hargs.sound _ _ _ _ hstep₂.sound hlist
    have hstep := hstep₂.trans hstep₃
    have htop := hstep.top_eq
    refine finishCall_flawless hstep.sound ?_ (by omega)
    rw [hstep.level]
    exact h.sound.level_le

theorem callsOn_compileMethod {object : Evaluation} {name : String} {args : Gen (Option Nat)}
    (hobject : Evaluates Good P captured env object) (hargs : ListsOf Good P captured env args) :
    CallsOn Good P captured env (compileMethod line object name args) where
  sound := compileMethod_step hobject.sound hargs.sound
  flawless results ps st h := by
    refine reserve_flawless.bind fun base st₁ hreserve => ?_
    obtain ⟨hstep₁, rfl⟩ := reserve_step hreserve h.sound
    have htop₁ := hstep₁.top_eq
    have h₁ := h.step hstep₁
    refine (hobject.flawless _ _ _ h₁ (by omega)).bind fun _ st₂ hvalue => ?_
    have hstep₂ := hstep₁.trans (hobject.sound _ _ _ _ _ h₁.sound (by omega) hvalue)
    have htop₂ := hstep₂.top_eq
    refine reserve_flawless.bind fun _ st₃ hfunction => reserve_flawless.bind fun key st₄ hkey =>
      setLine_flawless.bind fun _ st₅ hline => addConstant_flawless.bind fun place st₆ hplace =>
        emitAbx_flawless.bind fun _ st₇ hload => emitAbc_flawless.bind fun _ st₈ hself => ?_
    obtain ⟨hstep₈', rfl⟩ :=
      method_step hfunction hkey hline hplace hload hself hstep₂.sound (by omega)
    have hstep₈ := hstep₂.trans hstep₈'
    have htop₈ := hstep₈.top_eq
    have hlevel₈ := hstep₈.level
    have hlevel := h.sound.level_le
    refine (release_flawless hstep₈.sound (by omega) (by omega)).bind fun _ st₉ hrelease => ?_
    have hstep₉ := hstep₈.trans (release_step hrelease hstep₈.sound).1
    have htop₉ := hstep₉.top_eq
    refine (hargs.flawless _ _ (h.step hstep₉)).bind fun n st₁₀ hlist => ?_
    obtain ⟨t, hstep₁₀, hle, -⟩ := hargs.sound _ _ _ _ hstep₉.sound hlist
    have hstep := hstep₉.trans hstep₁₀
    have htop := hstep.top_eq
    refine finishCall_flawless hstep.sound ?_ (by omega)
    rw [hstep.level]
    exact hlevel

theorem callTo_flawless {call : Option Nat → Gen Unit} (h : At Good captured env ps st)
    (hcall : CallsOn Good P captured env call) (hr : r < st.top) :
    Flawless P (callTo r call) st := by
  refine isTop_flawless.bind fun b st₁ htop => ?_
  obtain ⟨rfl, hb⟩ := isTop_ok htop h.sound
  refine .ite (fun hb' => ?_) fun _ => ?_
  · obtain ⟨htop, hlevel⟩ := hb hb'
    refine (release_flawless h.sound hlevel (by omega)).bind fun _ st₂ hrelease => ?_
    exact hcall.flawless _ _ _ (h.step (release_step hrelease h.sound).1)
  · refine free_flawless.bind fun base st₂ hfree => ?_
    obtain ⟨rfl, rfl⟩ := free_ok.mp hfree
    refine (hcall.flawless _ _ _ h).bind fun _ st₃ hvalue => emitAbc_flawless.bind
      fun _ st₄ hmove => ?_
    have hstep := hcall.sound _ _ _ _ _ h.sound hvalue
    have htop := hstep.top_eq
    simp only [Option.getD_some] at htop
    have hmove' := emitMove_step hmove hstep.sound (by omega) (by omega)
    exact release_saved_flawless h.sound (hstep.trans hmove') (by omega)

theorem called_flawless {d : Destination} {call : Option Nat → Gen Unit}
    (h : At Good captured env ps st) (hcall : CallsOn Good P captured env call)
    (hd : d.InUse st.top) : Flawless P (called d call) st := by
  unfold called
  split
  next r => exact callTo_flawless h hcall hd
  next r => exact callTo_flawless h hcall hd
  next count => exact hcall.flawless _ _ _ h

/-! ## Lists of values -/

theorem adjusted_flawless {list : List Expr} {wanted : Option Nat}
    {items : Option Nat → Gen Unit} (h : At Good captured env ps st)
    (hitems : ItemsOf Good P captured env list items) :
    Flawless P (adjusted list wanted items) st := by
  refine free_flawless.bind fun base st₁ hfree => ?_
  obtain ⟨rfl, rfl⟩ := free_ok.mp hfree
  split
  next =>
    exact currentLine_flawless.bind fun _ _ _ => padNils_flawless.bind fun _ _ _ => .pure _
  next last _ =>
    refine (hitems.flawless _ _ _ h).bind fun _ st₂ hvalues => ?_
    have hstep := hitems.sound _ _ _ _ _ h.sound hvalues
    split
    next => exact .pure _
    next w =>
      refine currentLine_flawless.bind fun _ st₃ hline => padNils_flawless.bind
        fun _ st₄ hpad => ?_
      obtain ⟨-, rfl⟩ := currentLine_ok.mp hline
      have hstep₄ := hstep.trans (padNils_step hpad hstep.sound)
      refine (releaseAbove_flawless hstep₄.sound ?_).bind fun _ _ _ => .pure _
      rw [hstep₄.level]
      exact Nat.le_add_right_of_le h.sound.level_le

theorem listsOf_adjusted {list : List Expr} {items : Option Nat → Gen Unit}
    (hitems : ItemsOf Good P captured env list items) :
    ListsOf Good P captured env (adjusted list none items) where
  sound := listSound_adjusted hitems.sound
  flawless _ _ h := adjusted_flawless h hitems

/-! ## Globals and names -/

theorem globalAccess_flawless {name : String} {field element upvalueField : Nat → Nat → Gen Unit}
    (h : At Good captured env ps st) (henv : env.Recorded captured "_ENV")
    (ha : AccessSound Good st.top field element upvalueField)
    (hfield : ∀ r k st, Flawless P (field r k) st)
    (helement : ∀ r k st, Flawless P (element r k) st)
    (hupvalue : ∀ v k st, Flawless P (upvalueField v k) st) :
    Flawless P (globalAccess name field element upvalueField) st := by
  refine currentLine_flawless.bind fun line st₀ hline => ?_
  obtain ⟨-, rfl⟩ := currentLine_ok.mp hline
  refine (resolve_flawless h henv).bind fun reference st₁ hresolve => keyPlace?_flawless.bind
    fun key st₂ hkey => ?_
  obtain ⟨hstep₁, hregister, hup⟩ := resolve_step hresolve h.sound
  have hstep' := (keyPlace?_step hkey hstep₁.sound).1
  have hstep₂ := hstep₁.trans hstep'
  have htop₁ := hstep₁.top_eq
  have htop₂ := hstep₂.top_eq
  have hlevel := h.sound.level_le
  split
  next r c k => exact hfield r k st₂
  next r c =>
    have hr := hregister _ _ rfl
    refine reserve_flawless.bind fun keyRegister st₃ hreserve => addConstant_flawless.bind
      fun place st₄ hconst => emitAbx_flawless.bind fun _ st₅ hload =>
        (helement _ _ _).bind fun _ st₆ hread => ?_
    obtain ⟨hstep₃, rfl⟩ := reserve_step hreserve hstep₂.sound
    have htop₃ := hstep₃.top_eq
    have hstep₅ := hstep₃.trans
      (loadPool_step (bind_ok.mpr ⟨place, st₄, hconst, hload⟩) hstep₃.sound (by omega))
    have htop₅ := hstep₅.top_eq
    have hstep₆ := hstep₅.trans
      (ha.element _ _ _ _ _ _ hstep₅.sound (by omega) (by omega) (by omega) hread)
    exact release_saved_flawless hstep₂.sound hstep₆ (by omega)
  next v c k => exact hupvalue v k st₂
  next v c =>
    have hv := hup _ _ rfl
    refine reserve_flawless.bind fun r st₃ hreserve => emitAbc_flawless.bind fun _ st₄ hget =>
      addConstant_flawless.bind fun place st₅ hconst => emitAbx_flawless.bind fun _ st₆ hload =>
        (helement _ _ _).bind fun _ st₇ hread => ?_
    obtain ⟨hstep₃, rfl⟩ := reserve_step hreserve hstep₂.sound
    have htop₃ := hstep₃.top_eq
    have hgrow := (hstep'.trans hstep₃).grows.upvalues_size_le
    have hstep₄ := hstep₃.trans
      (emitUpvalue_step hget (.inl rfl) hstep₃.sound (by omega) (by omega))
    have htop₄ := hstep₄.top_eq
    have hstep₆ := hstep₄.trans
      (loadPool_step (bind_ok.mpr ⟨place, st₅, hconst, hload⟩) hstep₄.sound (by omega))
    have htop₆ := hstep₆.top_eq
    have hstep₇ := hstep₆.trans
      (ha.element _ _ _ _ _ _ hstep₆.sound (by omega) (by omega) (by omega) hread)
    exact release_saved_flawless hstep₂.sound hstep₇ (by omega)
  next => exact absurd rfl (resolve_global h hresolve).2

theorem globalGet_flawless {name : String} (h : At Good captured env ps st)
    (henv : env.Recorded captured "_ENV") (hr : r < st.top) : Flawless P (globalGet name r) st :=
  globalAccess_flawless h henv (accessSound_get hr) (fun _ _ _ => emitAbc_flawless)
    (fun _ _ _ => emitAbc_flawless) fun _ _ _ => emitAbc_flawless

theorem globalSet_flawless {name : String} (h : At Good captured env ps st)
    (henv : env.Recorded captured "_ENV") (hr : r < st.top) : Flawless P (globalSet name r) st :=
  globalAccess_flawless h henv (accessSound_set hr) (fun _ _ _ => emitAbc_flawless)
    (fun _ _ _ => emitAbc_flawless) fun _ _ _ => emitAbc_flawless

/-- A name that is no variable is a field of `_ENV`, which is then recorded as well. -/
theorem compileName_flawless {name : String} (h : At Good captured env ps st)
    (hname : Site.Heeded captured (.name env name)) (hr : r < st.top) :
    Flawless P (compileName name line r) st := by
  refine setLine_flawless.bind fun _ st₁ hline => ?_
  have hstep₁ := setLine_step hline h.sound
  have h₁ := h.step hstep₁
  refine (resolve_flawless h₁ hname.1).bind fun reference st₂ hresolve => ?_
  have hstep₂ := hstep₁.trans (resolve_step hresolve h₁.sound).1
  have htop₁ := hstep₁.top_eq
  have htop₂ := hstep₂.top_eq
  split
  · exact .ite (fun _ => emitAbc_flawless) fun _ => .pure ()
  · exact emitAbc_flawless
  · exact globalGet_flawless (h.step hstep₂) (hname.2 (resolve_global h₁ hresolve).1) (by omega)

/-! ## Assignment -/

/-- A global can be stored to once `_ENV` is recorded. -/
def Storable (captured : Std.HashSet Nat) (env : Surroundings) : Target → Prop
  | .variable .global _ => env.Recorded captured "_ENV"
  | _ => True

theorem nameTarget_flawless {name : String} (h : At Good captured env ps st)
    (hname : Site.Heeded captured (.name env name)) : Flawless P (nameTarget name line) st :=
  (resolve_flawless h hname.1).bind fun _ _ _ => .ite
    (fun _ => Flawless.complain.bind fun _ _ _ => .pure _) fun _ => .pure _

theorem nameTarget_storable {name : String} {x : Target} (h : At Good captured env ps st)
    (hname : Site.Heeded captured (.name env name)) (hok : nameTarget name line st = .ok x st') :
    Storable captured env x := by
  simp only [nameTarget, bind_ok] at hok
  obtain ⟨reference, st₁, hresolve, hok⟩ := hok
  split at hok
  · simp only [bind_ok, throw_ok, false_and, exists_false] at hok
  · simp only [pure_ok] at hok
    obtain ⟨rfl, -⟩ := hok
    cases reference with
    | global => exact hname.2 (resolve_global h hresolve).1
    | register | upvalue => trivial

theorem store_flawless {x : Target} (h : At Good captured env ps st)
    (hx : Storable captured env x) (hr : r < st.top) : Flawless P (store x r) st := by
  unfold store
  split
  · exact emitAbc_flawless
  · exact emitAbc_flawless
  · exact emitAbc_flawless
  · exact emitAbc_flawless
  · exact globalSet_flawless h hx hr

theorem storeAll_flawless {xs : List Target} (h : At Good captured env ps st)
    (hxs : ∀ x ∈ xs, TargetWithin st.current.proto st.top x ∧ Storable captured env x)
    (hr : r + xs.length ≤ st.top) : Flawless P (storeAll xs r) st := by
  induction xs generalizing r with
  | nil => exact .pure ()
  | cons x rest ih =>
    simp only [List.length_cons] at hr
    have hrest : ∀ y ∈ rest, TargetWithin st.current.proto st.top y ∧ Storable captured env y :=
      fun y hy => hxs y (List.mem_cons_of_mem _ hy)
    refine (ih hrest (by omega)).bind fun _ st₁ hstore => ?_
    have hstep := storeAll_step hstore h.sound (fun y hy => (hrest y hy).1) (by omega)
    have htop := hstep.top_eq
    exact store_flawless (h.step hstep) (hxs x (List.mem_cons_self ..)).2 (by omega)

/-! ## Operators and conditions -/

theorem emitBinary_flawless {op : BinaryOp} {a b c : Nat}
    (hop : op ≠ .and ∧ op ≠ .or ∧ op ≠ .concat) : Flawless P (emitBinary op a b c) st := by
  cases op with
  | and | or | concat => simp at hop
  | ne => exact emitAbc_flawless.bind fun _ _ _ => emitAbc_flawless
  | _ => exact emitAbc_flawless

theorem jumpIfFalse_flawless {condition : Expr} (h : At Good captured env ps st)
    (he : Evaluates Good P captured env e)
    (hcondition : ∀ s ∈ Sites.expr env condition, s.Heeded captured) :
    Flawless P (jumpIfFalse condition e) st := by
  refine free_flawless.bind fun saved st₀ hfree => ?_
  obtain ⟨rfl, rfl⟩ := free_ok.mp hfree
  refine (toAnyRegister_flawless h he hcondition).bind fun r st₁ hvalue => setLine_flawless.bind
    fun _ st₂ hline => emitAbc_flawless.bind fun _ st₃ htest => emitJump_flawless.bind
      fun jump st₄ hjump => ?_
  obtain ⟨t, hstep₁, hr, hle⟩ := toAnyRegister_step hvalue h.sound he.sound
  have hstep₂ := hstep₁.trans (setLine_step hline hstep₁.sound)
  have htop₁ := hstep₁.top_eq
  have htop₂ := hstep₂.top_eq
  have hregisters := hstep₂.sound.top_le
  obtain ⟨hsound, hkeeps, htop, -⟩ :=
    emitTest_step htest hjump hstep₂.sound (by omega) (by omega)
  have hstep₄ : Step Good ps st₀ st₄ t := ⟨hsound, hstep₂.keeps.trans hkeeps, by omega⟩
  exact (release_saved_flawless h.sound hstep₄ hle).bind fun _ _ _ => .pure _

end Generator
end LuaMachine
