import LuaMachine.Proofs.Generator.Generation
import LuaMachine.Proofs.Lowering.Expressions
import LuaMachine.Proofs.Lowering.Values
import LuaMachine.Proofs.Structured.Access
/-! # Expressions of structured programs

The words of an expression leave its value in a register and spare the registers below, or they fail
where the expression has no value. What the words of any function do is known; the names of a main
program are its variables and `_ENV`.

* `Structured.Compiles`: words that are written to a main program and belong to the function.
* `Structured.Computes`: what an action has to leave in a register.
* `Structured.expression_computes`: every expression leaves its value.
-/
set_option autoImplicit false

namespace LuaMachine
namespace Structured

open Generator
open Machine (Spares Sets Shows Leads Tries Fails Yields joined)

/-- The words between two states are written to a sound main program, and they are words of the
function. -/
structure Compiles (g : Activation) (ps : List Nat) (st st' : State) : Prop where
  sound : Generator.Sound Prototype.WellFormed ps st
  main : Main st
  placed : Placed g.frame [] st st'

/-- The action leaves the value in a register above the variables, which is in use. -/
structure Computes (act : Evaluation) (x : Store → Option Value) : Prop where
  sound : EvaluationSound Prototype.WellFormed act
  gives : ∀ {g : Activation} {ps : List Nat} {st st' : State} {s : Store} {m : Machine} {r : Nat}
    {u : Unit}, Compiles g ps st st' → Here g st s m → st.level ≤ r → r < st.top →
    act r st = .ok u st' → Tries (x s) m (Gives g st' s r r · m)

abbrev Evaluates (e : Expr) : Prop :=
  Computes (fun t => evaluate e (.register t)) fun s => value s e

variable {g : Activation} {ps ps' : List Nat} {st st' st₁ : State} {s : Store} {m m' : Machine}
  {t r a b c line : Nat} {u : Unit} {op : Opcode} {e l k : Expr} {x : Option Value}
  {act : Evaluation} {y : Store → Option Value} {v w : Value}

namespace Compiles

theorem since (h : Compiles g ps st st') (hstep : Step Prototype.WellFormed ps st st₁ t) :
    Compiles g ps st₁ st' :=
  ⟨hstep.sound, hstep.main h.sound h.main, h.placed.since hstep⟩

theorem upTo (h : Compiles g ps st st') (hstep : Step Prototype.WellFormed ps' st₁ st' t) :
    Compiles g ps st st₁ :=
  ⟨h.sound, h.main, h.placed.upTo hstep⟩

end Compiles

/-! ## Values in registers -/

theorem toTemporary_gives (h : toTemporary line act st = .ok r st') (hc : Compiles g ps st st')
    (hact : Computes act y) (hh : Here g st s m) : Tries (y s) m (Gives g st' s st.top st.top · m) := by
  simp only [toTemporary, bind_ok, pure_ok] at h
  obtain ⟨r', st₁, hr, u, st₂, h, rfl, rfl⟩ := h
  obtain ⟨hstep, rfl⟩ := reserve_step hr hc.sound
  have htop := hstep.top_eq
  have hlevel := hstep.level
  have hle := hc.sound.level_le
  exact hact.gives (hc.since hstep) (hh.silent hc.sound hstep (reserve_size hr hc.sound)) (by omega)
    (by omega) h

/-- The register of a variable has its value already. -/
theorem toAnyRegister_gives (h : toAnyRegister e act st = .ok r st') (hc : Compiles g ps st st')
    (hact : Computes act fun s => value s e) (he : isExpr e = true) (hh : Here g st s m) :
    Tries (value s e) m (Gives g st' s st.top r · m) := by
  have htemporary : ∀ {line}, toTemporary line act st = .ok r st' →
      Tries (value s e) m (Gives g st' s st.top r · m) := fun h => by
    obtain ⟨-, rfl⟩ := toTemporary_step h hc.sound hact.sound
    exact toTemporary_gives h hc hact hh
  unfold toAnyRegister at h
  split at h
  next n line =>
    have hname : n ≠ loopState := by simpa [isExpr] using he
    simp only [bind_ok] at h
    obtain ⟨reference, st₁, hresolve, h⟩ := h
    obtain ⟨rfl, hstands⟩ := resolve_main hresolve hc.sound hc.main
    rcases hstands with ⟨l, hl, rfl⟩ | ⟨-, ⟨-, c, rfl⟩ | ⟨-, rfl⟩⟩
    · simp only [pure_ok] at h
      obtain ⟨rfl, rfl⟩ := h
      have hread : value s (.name n line) = some (m.reg g.frame l.register) :=
        hh.read_local hl hname
      rw [hread]
      exact .here ⟨hh, .refl _ _ _, rfl⟩
    · exact htemporary h
    · exact htemporary h
  next => exact htemporary h

theorem toOperand_gives {own : Bool} (h : toOperand own e act st = .ok r st')
    (hc : Compiles g ps st st') (hact : Computes act fun s => value s e) (he : isExpr e = true)
    (hh : Here g st s m) : Tries (value s e) m (Gives g st' s st.top r · m) := by
  unfold toOperand at h
  split at h
  · obtain ⟨-, rfl⟩ := toTemporary_step h hc.sound hact.sound
    exact toTemporary_gives h hc hact hh
  · exact toAnyRegister_gives h hc hact he hh

/-! ## Values in consecutive registers -/

/-- The values are in the registers from `r` on, and the registers below are spared. -/
structure Loads (g : Activation) (st : State) (s : Store) (r : Nat) (vs : List Value)
    (m m' : Machine) : Prop where
  here : Here g st s m'
  spares : Spares g.frame r m m'
  regs : ∀ j w, vs[j]? = some w → m'.reg g.frame (r + j) = w

theorem Loads.cons {m'' : Machine} {vs : List Value} (h : Gives g st₁ s r r v m m')
    (h' : Loads g st s (r + 1) vs m' m'') : Loads g st s r (v :: vs) m m'' where
  here := h'.here
  spares := h.spares.trans (h'.spares.weaken (Nat.le_succ r))
  regs j w hw := by
    cases j with
    | zero =>
      obtain rfl : v = w := by simpa using hw
      exact (h'.spares.reg r (Nat.lt_succ_self r)).trans h.reg
    | succ j =>
      rw [show r + (j + 1) = r + 1 + j by omega]
      exact h'.regs j w (by simpa using hw)

theorem Loads.range {vs : List Value} (h : Loads g st s r vs m m') :
    ((List.range vs.length).map fun j => m'.reg g.frame (r + j)) = vs := by
  apply List.ext_getElem?
  intro j
  rw [List.getElem?_map]
  by_cases hj : j < vs.length
  · rw [List.getElem?_range hj, List.getElem?_eq_getElem hj]
    exact congrArg some (h.regs j _ (List.getElem?_eq_getElem hj))
  · rw [List.getElem?_eq_none (by simpa using hj), List.getElem?_eq_none (by simpa using hj)]
    rfl

/-! ## Jumps -/

/-- Where a machine goes on after a jump. -/
theorem IsJump.leads {n t : Nat} (h : IsJump g.frame n t) (hat : g.At n m) :
    Leads 1 m fun m' => g.At t m' ∧ m'.stack = m.stack ∧ m'.heap = m.heap := by
  obtain ⟨i, hword, hop, htarget⟩ := h
  exact hat.jump hword hop htarget

/-- After a test the machine goes over the jump behind it, or takes it. -/
theorem IsJump.tests {n t : Nat} {i : Instruction} (hjump : IsJump g.frame (n + 1) t)
    (hi : IsWord g.frame n .test r b c i) (hat : g.At n m) :
    Leads 1 m fun m' => g.At (if (m.reg g.frame r).isTruthy != (b != 0) then n + 2 else t) m' ∧
      m'.stack = m.stack ∧ m'.heap = m.heap := by
  have htest := Machine.At.test hat hi.word hi.op
  rw [hi.a, hi.b] at htest
  by_cases hover : ((m.reg g.frame r).isTruthy != (b != 0)) = true
  · rw [if_pos hover] at htest ⊢
    exact htest
  · rw [if_neg hover] at htest ⊢
    refine Leads.andThen htest ?_
    rintro m₁ ⟨hat₁, hstack₁, hheap₁⟩
    exact (hjump.leads hat₁).mono fun m₂ h₂ =>
      ⟨h₂.1, h₂.2.1.trans hstack₁, h₂.2.2.trans hheap₁⟩

/-! ## Expressions -/

theorem simple_of_isExpr : (e : Expr) → isExpr e = true → Lowering.Simple (· ≠ loopState) e
  | .literal _ _, _ | .str _ _, _ => trivial
  | .name _ _, h => bne_iff_ne.mp h
  | .paren e _, h | .unary _ e _, h => simple_of_isExpr e h
  | .index a b _, h | .binary _ a b _, h =>
    have hparts := Bool.and_eq_true_iff.mp h
    ⟨simple_of_isExpr a hparts.1, simple_of_isExpr b hparts.2⟩

/-- The running program, as its expressions see it: all its names but those of loops. -/
abbrev Activation.site (g : Activation) (st : State) : Lowering.Site :=
  ⟨g.code, g.outer, g.frame, (· ≠ loopState), st.current.home, st.level⟩

theorem Compiles.fits (h : Compiles g ps st st') :
    Lowering.Fits g.frame.prototype st'.current.home st st' :=
  ⟨fun n hn hlt => h.placed.words n hn hlt List.not_mem_nil, h.placed.constants, fun _ _ => rfl⟩

/-- The variables are in their registers, and the table of `_ENV` is in the only upvalue. -/
theorem Here.knows (h : Here g st s m) (hs : Generator.Sound Prototype.WellFormed ps st')
    (hm : Main st') (hlocals : st'.current.locals = st.current.locals) :
    (g.site st').Knows s m := by
  obtain ⟨v, hvariables, hshows⟩ := h.holds
  rw [← hlocals] at hvariables
  refine ⟨show "_ENV" ≠ loopState by decide, fun name hname => ?_, hshows.tables⟩
  have hlookup := lookup_eq hvariables hname
  cases hl : st'.current.findLocal name with
  | some l =>
    rw [hl] at hlookup
    simp only [FunctionScope.home_of_local hl, hlookup]
    exact ⟨register_lt_level hs (FunctionScope.mem_of_findLocal hl).1, rfl⟩
  | none =>
    rw [hl] at hlookup
    by_cases henv : name = "_ENV"
    · have hup : st'.current.findUpvalue name = some 0 := by
        simp [FunctionScope.findUpvalue, hm.upvalues, henv]
      simp only [FunctionScope.home_of_upvalue hl hup, hlookup, if_pos henv]
      exact ⟨_, hshows.environment, fun _ hopened => Upvalue.noConfusion hopened, rfl⟩
    · have hup : st'.current.findUpvalue name = none := by
        simp [FunctionScope.findUpvalue, hm.upvalues, Ne.symm henv]
      simp only [FunctionScope.home_of_neither hl hup, hlookup, if_neg henv]
      rfl

/-- Every expression leaves its value in its register. -/
theorem expression_computes (he : isExpr e = true) : Evaluates e := by
  refine ⟨(exprSound closed_wellFormed e).evaluation,
    fun {g ps st st' s m r u} hc hh hlevel hr h => ?_⟩
  have hemits := Lowering.lowersTo_evaluate closed_wellFormed e hc.sound (d := .register r) hr h
  have hkeeps := hemits.step.keeps.current
  have hsame : st'.level = st.level := hemits.step.level
  have hknows := hh.knows hemits.step.sound (hemits.step.main hc.sound hc.main) hkeeps.locals
  have hruns := (Lowering.Site.runs_codes (g := g.site st') e (simple_of_isExpr e he)).1
    (hemits.code _ _ hc.fits) (show st'.level ≤ r by omega) hr hh.at' hknows
  refine hruns.mono fun v m' _ hm' => ?_
  have hspares := hm'.spares (Nat.le_refl r) (Nat.le_of_lt hr)
  exact ⟨hh.keep hc.sound hkeeps.locals hm'.at' (hspares.weaken hlevel), hspares, hm'.reg⟩

end Structured
end LuaMachine
