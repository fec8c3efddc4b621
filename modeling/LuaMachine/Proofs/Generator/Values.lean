import LuaMachine.Proofs.Generator.Emitting
/-! # Values of expressions

What the parts of an expression need of the expressions inside of them, and that they keep a sound
state sound: temporary registers, calls, lists of values and names.

* `EvaluationSound`, `CallSound`, `ListSound`: what is assumed of an action that is passed on.
* `single_step`, `called_step`, `adjusted_step`: values at their destination.
-/
set_option autoImplicit false

namespace LuaMachine
namespace Generator

/-! ## Actions that are passed on -/

/-- The action leaves a value in a register that is in use, and no further ones in use. -/
def EvaluationSound (Good : Prototype → Prop) (e : Evaluation) : Prop :=
  ∀ (ps : List Nat) (st st' : State) (r : Nat) (u : Unit), Sound Good ps st → r < st.top →
    e r st = .ok u st' → Step Good ps st st' st.top

/-- The action leaves as many results behind the registers in use as it is told, or none if their
number is open. -/
def CallSound (Good : Prototype → Prop) (call : Option Nat → Gen Unit) : Prop :=
  ∀ (results : Option Nat) (ps : List Nat) (st st' : State) (u : Unit), Sound Good ps st →
    call results st = .ok u st' → Step Good ps st st' (st.top + results.getD 0)

/-- The action leaves values behind the registers in use and gives their number, unless it is
open. -/
def ListSound (Good : Prototype → Prop) (list : Gen (Option Nat)) : Prop :=
  ∀ (ps : List Nat) (st st' : State) (n : Option Nat), Sound Good ps st → list st = .ok n st' →
    ∃ t, Step Good ps st st' t ∧ st.top ≤ t ∧ ∀ k, n = some k → t = st.top + k

/-- The number of registers in use behind a list of expressions of which the last one gives as many
values as it is told. -/
def itemsTop (list : List Expr) (last : Option Nat) (top : Nat) : Nat :=
  match list.getLast? with
  | none => top
  | some e =>
    if e.isMultiple then top + (list.length - 1) + last.getD 0 else top + list.length

def ItemsSound (Good : Prototype → Prop) (list : List Expr) (items : Option Nat → Gen Unit) :
    Prop :=
  ∀ (last : Option Nat) (ps : List Nat) (st st' : State) (u : Unit), Sound Good ps st →
    items last st = .ok u st' → Step Good ps st st' (itemsTop list last st.top)

namespace Destination

/-- The destination is a register in use, or the next ones. -/
def InUse (d : Destination) (top : Nat) : Prop :=
  match d with
  | .register r => r < top
  | .part r => r < top
  | .values _ => True

/-- The number of registers in use when a value is at its destination. -/
def after (d : Destination) (multiple : Bool) (top : Nat) : Nat :=
  match d with
  | .register _ => top
  | .part _ => top
  | .values (some n) => top + n
  | .values none => if multiple then top else top + 1

end Destination

section

variable {Good : Prototype → Prop} {ps : List Nat} {st st' st₁ : State} {e : Evaluation} {u : Unit}
  {line r : Nat}

/-! ## Registers for values -/

theorem toTemporary_step (h : toTemporary line e st = .ok r st') (hs : Sound Good ps st)
    (he : EvaluationSound Good e) : Step Good ps st st' (st.top + 1) ∧ r = st.top := by
  simp only [toTemporary, bind_ok, pure_ok] at h
  obtain ⟨r', st₁, hr, u, st₂, h, rfl, rfl⟩ := h
  obtain ⟨hstep, rfl⟩ := reserve_step hr hs
  have htop := hstep.top_eq
  exact ⟨(hstep.trans (he _ _ _ _ _ hstep.sound (by omega) h)).cast htop, rfl⟩

theorem toAnyRegister_step {node : Expr} (h : toAnyRegister node e st = .ok r st')
    (hs : Sound Good ps st) (he : EvaluationSound Good e) :
    ∃ t, Step Good ps st st' t ∧ r < t ∧ st.top ≤ t := by
  have htemporary : ∀ {st₁ line}, Step Good ps st st₁ st.top →
      toTemporary line e st₁ = .ok r st' → ∃ t, Step Good ps st st' t ∧ r < t ∧ st.top ≤ t := by
    intro st₁ line hstep h
    obtain ⟨hstep', rfl⟩ := toTemporary_step h hstep.sound he
    have htop := hstep.top_eq
    exact ⟨_, hstep.trans hstep', by omega, by omega⟩
  unfold toAnyRegister at h
  split at h
  next n line =>
    simp only [bind_ok] at h
    obtain ⟨reference, st₁, hresolve, h⟩ := h
    obtain ⟨hstep, hregister, -⟩ := resolve_step hresolve hs
    split at h
    next r' c =>
      simp only [pure_ok] at h
      obtain ⟨rfl, rfl⟩ := h
      have hlt := hregister _ _ rfl
      have hlevel := hs.level_le
      exact ⟨_, hstep, by omega, Nat.le_refl _⟩
    next => exact htemporary hstep h
  next => exact htemporary (Step.refl hs) h

theorem toOperand_step {own : Bool} {node : Expr} (h : toOperand own node e st = .ok r st')
    (hs : Sound Good ps st) (he : EvaluationSound Good e) :
    ∃ t, Step Good ps st st' t ∧ r < t ∧ st.top ≤ t := by
  unfold toOperand at h
  split at h
  · obtain ⟨hstep, rfl⟩ := toTemporary_step h hs he
    exact ⟨_, hstep, by omega, by omega⟩
  · exact toAnyRegister_step h hs he

theorem fieldPlace?_spec {key : Expr} {place : Option Nat} (h : fieldPlace? key st = .ok place st')
    (hs : Sound Good ps st) :
    Step Good ps st st' st.top ∧ ∀ k, place = some k → k ≤ 255 ∧
      ∃ t line, key = .str t line ∧ st'.current.proto.chunk.constants[k]? = some (.str t) := by
  unfold fieldPlace? at h
  split at h
  next t line =>
    obtain ⟨hstep, hat⟩ := keyPlace?_spec h hs
    exact ⟨hstep, fun k hk => ⟨(hat k hk).1, t, line, rfl, (hat k hk).2⟩⟩
  · simp only [pure_ok] at h
    obtain ⟨rfl, rfl⟩ := h
    exact ⟨.refl hs, by simp⟩

theorem fieldPlace?_step {key : Expr} {place : Option Nat} (h : fieldPlace? key st = .ok place st')
    (hs : Sound Good ps st) :
    Step Good ps st st' st.top ∧
      ∀ k, place = some k → k ≤ 255 ∧ k < st'.current.proto.chunk.constants.size := by
  obtain ⟨hstep, hplace⟩ := fieldPlace?_spec h hs
  refine ⟨hstep, fun k hk => ?_⟩
  obtain ⟨hle, t, line, -, hat⟩ := hplace k hk
  exact ⟨hle, (Array.getElem?_eq_some_iff.mp hat).1⟩

/-- Giving back what was taken since. -/
theorem release_saved {saved : Nat} (h : release saved st₁ = .ok u st')
    (hstep : ∃ t, Step Good ps st st₁ t) : Step Good ps st st' saved := by
  obtain ⟨t, hstep⟩ := hstep
  exact hstep.trans (release_step h hstep.sound).1

theorem single_step {d : Destination} (h : single line d e st = .ok u st') (hs : Sound Good ps st)
    (he : EvaluationSound Good e) (hd : d.InUse st.top) :
    Step Good ps st st' (d.after false st.top) := by
  unfold single at h
  split at h
  next r => exact he _ _ _ _ _ hs hd h
  next r => exact he _ _ _ _ _ hs hd h
  next =>
    simp only [bind_ok, free_ok, and_assoc, exists_and_left, exists_eq_left] at h
    obtain ⟨r, st₁, htemporary, h⟩ := h
    exact release_saved h ⟨_, (toTemporary_step htemporary hs he).1⟩
  next count hcount =>
    simp only [bind_ok] at h
    obtain ⟨r, st₁, htemporary, h⟩ := h
    have hstep := (toTemporary_step htemporary hs he).1
    have htop := hstep.top_eq
    refine (hstep.trans (padNils_step h hstep.sound)).cast ?_
    rcases count with _ | n
    · simp only [Option.getD_none, Destination.after]
      simp [htop]
    · have hn : n ≠ 0 := fun h0 => hcount (h0 ▸ rfl)
      simp only [Option.getD_some, Destination.after]
      omega

/-! ## Calls -/

/-- The registers that a call reads and writes. -/
theorem call_within {p : Prototype} {base : Nat} {args results : Option Nat}
    (hbase : base < p.registers) (hmax : p.registers ≤ 250)
    (hargs : ∀ k, args = some k → base + 1 + k ≤ p.registers)
    (hresults : ∀ k, results = some k → base + k ≤ p.registers) :
    countOperand args < 256 ∧ countOperand results < 256 ∧
      Opcode.call.Within p base (countOperand args) (countOperand results) := by
  have hn : countOperand args = 0 ∨ base + countOperand args ≤ p.registers := by
    rcases args with _ | k
    · exact .inl rfl
    · have hk := hargs k rfl
      simp only [countOperand]
      omega
  have hm : countOperand results = 0 ∨ base + (countOperand results - 1) ≤ p.registers := by
    rcases results with _ | k
    · exact .inl rfl
    · have hk := hresults k rfl
      simp only [countOperand]
      omega
  have hruns : Opcode.call.runs base (countOperand args) (countOperand results) =
      [(base, max 1 (countOperand args)), (base, countOperand results - 1)] := rfl
  refine ⟨by omega, by omega, .of_registers ?_ rfl rfl⟩
  rw [hruns]
  intro run hrun
  simp only [List.mem_cons, List.not_mem_nil, or_false] at hrun
  rcases hrun with rfl | rfl
  · exact .inr (by omega)
  · exact hm.imp_left fun h0 => by omega

/-- The word of the call is finished once there are registers for its results. -/
theorem finishCall_step {base : Nat} {args results : Option Nat}
    (h : finishCall base line args results st = .ok u st') (hs : Sound Good ps st)
    (hlevel : st.level ≤ base) (hbase : base < st.top)
    (hargs : ∀ k, args = some k → base + 1 + k ≤ st.top) :
    Step Good ps st st' (base + results.getD 0) := by
  simp only [finishCall, bind_ok] at h
  obtain ⟨_, st₁, hline, _, st₂, hcall, _, st₃, hrelease, h⟩ := h
  have hstep₁ := setLine_step hline hs
  obtain ⟨n, hcall⟩ := emitAbc_ok hcall
  have hop : (Instruction.abc .call base (countOperand args) (countOperand results)).opcode? =
      some .call := Instruction.opcode?_abc _
  obtain ⟨hn, hword, -⟩ := emit_word hcall hstep₁.sound
  have hopen := emit_sound_open hcall hstep₁.sound (by simp [hop])
  have hrelease' := (release_step hrelease hopen).1
  have hrest : Step Good (n :: ps) st₂ st' (base + results.getD 0) := by
    split at h
    · simp only [bind_ok, pure_ok] at h
      obtain ⟨r, st₄, hreserve, -, rfl⟩ := h
      have hreserve' := (reserve_step hreserve hrelease'.sound).1
      exact (hrelease'.trans hreserve').cast (by rw [hrelease'.top_eq])
    · simp only [pure_ok] at h
      obtain ⟨-, rfl⟩ := h
      exact hrelease'.cast (by omega)
  have hg := (hstep₁.grows.trans (emit_grows hcall hstep₁.sound)).trans hrest.grows
  have htop := hs.top_le
  have htop' := hrest.sound.top_le
  have hmax := hrest.sound.registers_le
  rw [hrest.top_eq] at htop'
  have hregisters := hg.registers
  have hargs' : ∀ k, args = some k → base + 1 + k ≤ st'.current.proto.registers := fun k hk => by
    have hk' := hargs k hk
    omega
  have hresults' : ∀ k, results = some k → base + k ≤ st'.current.proto.registers :=
    fun k hk => by
      rw [hk] at htop'
      exact htop'
  obtain ⟨hb, hc, hwithin⟩ := call_within (by omega) hmax hargs' hresults'
  have hword' : st'.current.proto.chunk.code[n]? =
      some (.abc .call base (countOperand args) (countOperand results)) :=
    (hrest.keeps.current.code n (Prototype.lt_size_of_word hword)).trans hword
  have hfit : (Instruction.abc .call base (countOperand args) (countOperand results)).FitsAt
      st'.current.proto n .call :=
    ⟨operandsFit_abc hwithin (by omega) hb hc (by simp) (by simp), by simp [Instruction.targets],
      by simp, by simp, by simp⟩
  have hsound : Sound Good ps st' :=
    ⟨hrest.sound.exists_scope,
      { hrest.sound.current with proto := hrest.sound.current.proto.settle hword' hop hfit },
      hrest.sound.nested⟩
  have hkeeps : Keeps st₁ st₂ := by
    refine emit_keeps hcall hstep₁.sound hop
      ⟨by simp, by simp [Instruction.targets], fun _ => ?_, by simp⟩
    rw [Instruction.a_abc _ (by omega), (emit_adds hcall hstep₁.sound).locals,
      hstep₁.keeps.current.locals]
    exact hlevel
  exact ⟨hsound, (hstep₁.keeps.trans hkeeps).trans hrest.keeps, hrest.top_eq⟩

/-- The action evaluates the function and the arguments of a call and finishes it. -/
def Finishes (Good : Prototype → Prop) (call : Option Nat → Gen Unit) : Prop :=
  ∀ ⦃results : Option Nat⦄ ⦃ps : List Nat⦄ ⦃st st' : State⦄ ⦃u : Unit⦄, Sound Good ps st →
    call results st = .ok u st' →
    ∃ st₁ t line args, Step Good ps st st₁ t ∧ st.top < t ∧
      (∀ k, args = some k → st.top + 1 + k ≤ t) ∧ finishCall st.top line args results st₁ = .ok u st'

theorem Finishes.sound {call : Option Nat → Gen Unit} (h : Finishes Good call) :
    CallSound Good call := by
  intro results ps st st' u hs hok
  obtain ⟨st₁, t, line, args, hstep, hlt, hargs, hfinish⟩ := h hs hok
  have htop := hstep.top_eq
  have hlevel := hs.level_le
  refine hstep.trans (finishCall_step hfinish hstep.sound ?_ (by omega) fun k hk => ?_)
  · rw [hstep.level]
    exact hlevel
  · have hk' := hargs k hk
    omega

theorem compileCall_finishes {callee : Evaluation} {args : Gen (Option Nat)}
    (hcallee : EvaluationSound Good callee) (hargs : ListSound Good args) :
    Finishes Good (compileCall line callee args) := by
  intro results ps st st' u hs h
  simp only [compileCall, bind_ok] at h
  obtain ⟨base, st₁, hreserve, _, st₂, hvalue, n, st₃, hlist, h⟩ := h
  obtain ⟨hstep₁, rfl⟩ := reserve_step hreserve hs
  have htop := hstep₁.top_eq
  have hstep₂ := hstep₁.trans (hcallee _ _ _ _ _ hstep₁.sound (by omega) hvalue)
  have htop₂ := hstep₂.top_eq
  obtain ⟨t, hstep₃, hle, hn⟩ := hargs _ _ _ _ hstep₂.sound hlist
  refine ⟨st₃, t, _, n, hstep₂.trans hstep₃, by omega, fun k hk => ?_, h⟩
  have hk' := hn k hk
  omega

theorem compileCall_step {callee : Evaluation} {args : Gen (Option Nat)}
    (hcallee : EvaluationSound Good callee) (hargs : ListSound Good args) :
    CallSound Good (compileCall line callee args) :=
  (compileCall_finishes hcallee hargs).sound

/-- The method of an object, in a register before that of the object. -/
theorem method_step {base key place : Nat} {name : String} {st₂ st₃ st₄ st₅ : State}
    {u₁ u₂ u₃ : Unit} (hfunction : reserve 1 line st = .ok r st₁)
    (hkey : reserve 1 line st₁ = .ok key st₂) (hline : setLine line st₂ = .ok u₁ st₃)
    (hplace : addConstant (.str name) st₃ = .ok place st₄)
    (hload : emitAbx .loadConstant key place st₄ = .ok u₂ st₅)
    (hself : emitAbc .self base base key st₅ = .ok u₃ st') (hs : Sound Good ps st)
    (hbase : base + 1 = st.top) : Step Good ps st st' (st.top + 2) ∧ key = st.top + 1 := by
  have hstep₁ := (reserve_step hfunction hs).1
  have htop₁ := hstep₁.top_eq
  obtain ⟨hstep₂', rfl⟩ := reserve_step hkey hstep₁.sound
  have hstep₂ := hstep₁.trans hstep₂'
  have hstep₃ := hstep₂.trans (setLine_step hline hstep₂.sound)
  have htop₂ := hstep₂.top_eq
  have htop₃ := hstep₃.top_eq
  have hload' : (do emitAbx .loadConstant st₁.top (← addConstant (.str name)) : Gen Unit) st₃ =
      .ok u₂ st₅ := bind_ok.mpr ⟨place, st₄, hplace, hload⟩
  have hstep₅ := hstep₃.trans (loadPool_step hload' hstep₃.sound (by omega))
  have htop₅ := hstep₅.top_eq
  have hregisters := hstep₅.sound.top_le
  have hmax := hstep₅.sound.registers_le
  have hruns : ∀ run ∈ Opcode.self.runs base base st₁.top, run.1 + run.2 ≤ st₅.top := by
    intro run hrun
    simp only [Opcode.runs, List.mem_cons, List.not_mem_nil, or_false] at hrun
    rcases hrun with rfl | rfl | rfl <;> simp only <;> omega
  have hstep := hstep₅.trans
    (emitRegisters_step hself hstep₅.sound rfl (by simp) ⟨rfl, rfl⟩ (by omega) hruns)
  exact ⟨hstep.cast (by omega), htop₁⟩

theorem compileMethod_finishes {object : Evaluation} {name : String} {args : Gen (Option Nat)}
    (hobject : EvaluationSound Good object) (hargs : ListSound Good args) :
    Finishes Good (compileMethod line object name args) := by
  intro results ps st st' u hs h
  simp only [compileMethod, bind_ok] at h
  obtain ⟨base, st₁, hbase, _, st₂, hvalue, _, st₃, hfunction, key, st₄, hkey, _, st₅, hline,
    place, st₆, hplace, _, st₇, hload, _, st₈, hself, _, st₉, hrelease, n, st₁₀, hlist, h⟩ := h
  obtain ⟨hstep₁, rfl⟩ := reserve_step hbase hs
  have htop₁ := hstep₁.top_eq
  have hstep₂ := hstep₁.trans (hobject _ _ _ _ _ hstep₁.sound (by omega) hvalue)
  have htop₂ := hstep₂.top_eq
  obtain ⟨hstep₈', rfl⟩ :=
    method_step hfunction hkey hline hplace hload hself hstep₂.sound (by omega)
  have hstep₈ := hstep₂.trans hstep₈'
  have hstep₉ := hstep₈.trans (release_step hrelease hstep₈.sound).1
  have htop₉ := hstep₉.top_eq
  obtain ⟨t, hstep₁₀, hle, hn⟩ := hargs _ _ _ _ hstep₉.sound hlist
  refine ⟨st₁₀, t, _, _, hstep₉.trans hstep₁₀, by omega, fun k hk => ?_, h⟩
  obtain ⟨k', rfl, rfl⟩ := Option.map_eq_some_iff.mp hk
  have hk' := hn k' rfl
  omega

theorem compileMethod_step {object : Evaluation} {name : String} {args : Gen (Option Nat)}
    (hobject : EvaluationSound Good object) (hargs : ListSound Good args) :
    CallSound Good (compileMethod line object name args) :=
  (compileMethod_finishes hobject hargs).sound

theorem callTo_step {call : Option Nat → Gen Unit} (h : callTo r call st = .ok u st')
    (hs : Sound Good ps st) (hcall : CallSound Good call) (hr : r < st.top) :
    Step Good ps st st' st.top := by
  simp only [callTo, bind_ok] at h
  obtain ⟨b, st₁, htop, h⟩ := h
  obtain ⟨rfl, hb⟩ := isTop_ok htop hs
  split at h
  next hb' =>
    have htop := (hb hb').1
    simp only [bind_ok] at h
    obtain ⟨_, st₂, hrelease, h⟩ := h
    have hstep := (release_step hrelease hs).1
    exact (hstep.trans (hcall _ _ _ _ _ hstep.sound h)).cast (by
      rw [hstep.top_eq]
      exact htop)
  next =>
    simp only [bind_ok, free_ok, and_assoc, exists_and_left, exists_eq_left] at h
    obtain ⟨_, st₂, hvalue, _, st₃, hmove, h⟩ := h
    have hstep := hcall _ _ _ _ _ hs hvalue
    have htop := hstep.top_eq
    simp only [Option.getD_some] at htop
    have hmove' := emitMove_step hmove hstep.sound (by omega) (by omega)
    exact release_saved h ⟨_, hstep.trans hmove'⟩

theorem called_step {d : Destination} {call : Option Nat → Gen Unit}
    (h : called d call st = .ok u st') (hs : Sound Good ps st) (hcall : CallSound Good call)
    (hd : d.InUse st.top) : Step Good ps st st' (d.after true st.top) := by
  unfold called at h
  split at h
  next r => exact callTo_step h hs hcall hd
  next r => exact callTo_step h hs hcall hd
  next count =>
    refine (hcall _ _ _ _ _ hs h).cast ?_
    rcases count with _ | n <;> rfl

theorem emitVararg_step {base n : Nat} (h : emitAbc .vararg base 0 n st = .ok u st')
    (hs : Sound Good ps st) (hn : base + (n - 1) ≤ st.top) :
    Step Good ps st st' st.top := by
  have htop := hs.top_le
  have hmax := hs.registers_le
  refine emitRegisters_step h hs rfl (by simp) ⟨rfl, rfl⟩ (by omega) ?_
  simp only [Opcode.runs, List.mem_singleton]
  rintro run rfl
  exact hn

theorem compileVararg_step {d : Destination} (h : compileVararg line d st = .ok u st')
    (hs : Sound Good ps st) (hd : d.InUse st.top) :
    Step Good ps st st' (d.after true st.top) := by
  simp only [compileVararg, bind_ok] at h
  obtain ⟨_, st₁, hline, h⟩ := h
  have hstep₁ := setLine_step hline hs
  have htop := hstep₁.top_eq
  split at h
  next r =>
    have hr : r < st.top := hd
    exact (hstep₁.trans (emitVararg_step h hstep₁.sound (by omega))).cast htop
  next r =>
    have hr : r < st.top := hd
    exact (hstep₁.trans (emitVararg_step h hstep₁.sound (by omega))).cast htop
  next count =>
    simp only [bind_ok, free_ok, and_assoc, exists_and_left, exists_eq_left] at h
    split at h
    next hpos =>
      simp only [bind_ok] at h
      obtain ⟨_, st₂, hreserve, h⟩ := h
      have hstep₂ := hstep₁.trans (reserve_step hreserve hstep₁.sound).1
      have htop₂ := hstep₂.top_eq
      rcases count with _ | n
      · simp at hpos
      · simp only [Option.getD_some] at htop₂
        exact (hstep₂.trans (emitVararg_step h hstep₂.sound
          (by simp only [countOperand]; omega))).cast (by rw [htop₂, htop]; rfl)
    next hzero =>
      refine (hstep₁.trans (emitVararg_step h hstep₁.sound ?_)).cast ?_
      · rcases count with _ | n
        · simp [countOperand]
        · simp only [Option.getD_some] at hzero
          simp only [countOperand]
          omega
      · rcases count with _ | n
        · exact htop
        · simp only [Option.getD_some] at hzero
          simp only [Destination.after]
          omega

/-! ## Lists of values -/

theorem itemsTop_adjusted {list : List Expr} {last : Expr} {t w : Nat}
    (hlast : list.getLast? = some last) :
    min (t + w) (itemsTop list (some (w - (list.length - 1))) t +
      if last.isMultiple then 0 else w - list.length) = t + w := by
  have hpos : 0 < list.length := by
    rw [List.length_pos_iff]
    rintro rfl
    cases hlast
  unfold itemsTop
  rw [hlast]
  simp only [Option.getD_some]
  split <;> omega

theorem adjusted_step {list : List Expr} {wanted : Option Nat} {items : Option Nat → Gen Unit}
    {n : Option Nat} (h : adjusted list wanted items st = .ok n st') (hs : Sound Good ps st)
    (hitems : ItemsSound Good list items) :
    ∃ t, Step Good ps st st' t ∧ st.top ≤ t ∧ (∀ k, n = some k → t = st.top + k) ∧
      ∀ w, wanted = some w → t = st.top + w := by
  simp only [adjusted, bind_ok, free_ok, and_assoc, exists_and_left, exists_eq_left] at h
  cases hlast : list.getLast? with
  | none =>
    simp only [hlast, bind_ok, currentLine_ok, pure_ok, and_assoc, exists_and_left,
      exists_eq_left] at h
    obtain ⟨_, st₁, hpad, rfl, rfl⟩ := h
    refine ⟨_, padNils_step hpad hs, by omega, ?_, ?_⟩
    · rintro k heq
      cases heq
      rfl
    · rintro w rfl
      rfl
  | some last =>
    simp only [hlast, bind_ok] at h
    obtain ⟨_, st₁, hvalues, h⟩ := h
    have hstep := hitems _ _ _ _ _ hs hvalues
    have htop := hstep.top_eq
    split at h
    next =>
      simp only [pure_ok] at h
      obtain ⟨rfl, rfl⟩ := h
      simp only [itemsTop, hlast, Option.map_none, Option.getD_none] at hstep
      refine ⟨_, hstep, ?_, ?_, by simp⟩
      · split <;> omega
      · intro k hk
        split at hk
        · cases hk
        next hsingle =>
          cases hk
          rw [if_neg hsingle]
    next w =>
      simp only [bind_ok, currentLine_ok, pure_ok, and_assoc, exists_and_left,
        exists_eq_left] at h
      obtain ⟨_, st₂, hpad, _, st₃, hrelease, rfl, rfl⟩ := h
      have hstep₂ := hstep.trans (padNils_step hpad hstep.sound)
      have htop₂ := hstep₂.top_eq
      have hstep₃ := hstep₂.trans (releaseAbove_step hrelease hstep₂.sound)
      have hexact : min (st.top + w) st₂.top = st.top + w := by
        rw [htop₂, htop]
        exact itemsTop_adjusted hlast
      rw [hexact] at hstep₃
      refine ⟨_, hstep₃, by omega, ?_, ?_⟩
      · rintro k heq
        cases heq
        rfl
      · rintro w' heq
        cases heq
        rfl

/-- The arguments of a call. -/
theorem listSound_adjusted {list : List Expr} {items : Option Nat → Gen Unit}
    (hitems : ItemsSound Good list items) : ListSound Good (adjusted list none items) := by
  intro ps st st' n hs h
  obtain ⟨t, hstep, hle, hn, -⟩ := adjusted_step h hs hitems
  exact ⟨t, hstep, hle, hn⟩

end

end Generator
end LuaMachine
