import Mathlib.Logic.Relation
import LuaMachine.Proofs.Machine.Stepping
import LuaMachine.Proofs.Machine.Unwinding
/-! # How functions call each other

A function finds its arguments in its parameters, padded with nil, and those beyond them apart if it
is variadic. Whatever it does until it returns, the function that called it then goes on behind the
call, with as many results as it wants or with all of them, and with its registers below these as
they were, but for writes through upvalues. A native function is given the same arguments, and its
results arrive in the same way.

* `Machine.CallSite`, `Machine.ReturnSite`: the next instruction is a call or a return.
* `Machine.Starts`, `Machine.NativeStarts`: what the function that is called finds.
* `Machine.Inside`: what happens until it returns.
* `Machine.Resumes`: what the function that called it finds.
* `Machine.call_protocol`: from the call to the return.
-/
set_option autoImplicit false

namespace LuaMachine

/-- The error as a script gets it, with the position where it arose. -/
def Fault.Arises (e : Fault) (error : RuntimeError) : Prop :=
  ∃ position : String, e = .script (.str (position ++ error.message)) (position ++ error.message)

/-- The fault as it leaves the instruction in which it arises. -/
def Fault.Leaves (e e' : Fault) : Prop :=
  (∀ error, e = .runtime error → e'.Arises error) ∧ ((∀ error, e ≠ .runtime error) → e' = e)

namespace Machine

variable {code : Nat → Prototype} {f g : Frame} {m m' : Machine} {func : Nat} {callee : Value}
  {args results : List Value} {wanted : Option Nat} {i : Instruction} {s : Array Value}

/-! ## Calls and returns -/

/-- How many values an operand stands for that begin in a slot: it is one more than their number, or
zero for all up to the end of the open list. -/
def listed (f : Frame) (operand start : Nat) : Option Nat :=
  if operand = 0 then openCount f start else some (operand - 1)

/-- The next instruction of the frame calls `callee` with `args`, and the results go to the slots
from `func` on: as many as are wanted, or all. The iterator of a generic loop is called with the two
values behind it, and gives as many results as the loop has variables. -/
inductive CallSite (f : Frame) (m : Machine) : Nat → Value → List Value → Option Nat → Prop where
  | call {i : Instruction} {n : Nat} (hi : f.prototype.chunk.code[f.next]? = some i)
      (hop : i.opcode? = some .call) (hn : listed f i.b (f.base + i.a + 1) = some n) :
      CallSite f m (f.base + i.a) (m.stack.getD (f.base + i.a) .nil)
        (valuesFrom m.stack (f.base + i.a + 1) n) (if i.c = 0 then none else some (i.c - 1))
  | iterator {i : Instruction} (hi : f.prototype.chunk.code[f.next]? = some i)
      (hop : i.opcode? = some .iterCall) :
      CallSite f m (f.base + i.a + 3) (m.stack.getD (f.base + i.a) .nil)
        (valuesFrom m.stack (f.base + i.a + 1) 2) (some i.c)

/-- The next instruction of the frame returns `results`. -/
inductive ReturnSite (f : Frame) (m : Machine) : List Value → Prop where
  | ret {i : Instruction} {n : Nat} (hi : f.prototype.chunk.code[f.next]? = some i)
      (hop : i.opcode? = some .ret) (hn : listed f i.b (f.base + i.a) = some n) :
      ReturnSite f m (valuesFrom m.stack (f.base + i.a) n)

/-- The frames when the innermost one has come to its next instruction. -/
def advanced (m : Machine) : Array Frame :=
  m.frames.modify (m.frames.size - 1) fun f => { f with next := f.next + 1 }

/-- The closure `r` with the code `c` starts in the frame `g`. -/
structure Starts (m : Machine) (func : Nat) (r : Ref) (c : Closure) (args : List Value)
    (wanted : Option Nat) (g : Frame) (m' : Machine) : Prop where
  active : ∃ code, Active code g m'
  frames : m'.frames = m.advanced.push g
  closure : g.closure = r
  prototype : g.prototype = c.prototype
  base : g.base = func + 1
  next : g.next = 0
  destination : g.destination = func
  wanted : g.wanted = wanted
  toHost : g.toHost = false
  params_le : c.prototype.params ≤ c.prototype.registers
  register : ∀ j < c.prototype.registers, m'.stack.getD (g.base + j) .nil =
    if j < c.prototype.params then args.getD j .nil else .nil
  extra : g.extra.toList = if c.prototype.variadic then args.drop c.prototype.params else []
  below : ∀ j < func, m'.stack.getD j .nil = m.stack.getD j .nil
  opened : m'.openUpvalues = m.openUpvalues
  options : m'.options = m.options

/-- A native function starts: its arguments lie on the stack. -/
structure NativeStarts (m : Machine) (func : Nat) (args : List Value) (m' : Machine) : Prop where
  heap : m'.heap = m.heap
  frames : m'.frames = m.advanced
  depth : m'.nativeDepth = m.nativeDepth + 1
  values : valuesFrom m'.stack (func + 1) args.length = args
  top : func + 1 + args.length ≤ m'.top
  below : ∀ j < func, m'.stack.getD j .nil = m.stack.getD j .nil

/-- The function that made a call goes on behind it. -/
structure Resumes (m : Machine) (func : Nat) (wanted : Option Nat) (results : List Value)
    (m' : Machine) : Prop where
  live : Live m'
  frames : m'.frames = m.frames.modify (m.frames.size - 1) fun f => { f with
    next := f.next + 1
    open' := if wanted.isNone then func + results.length else f.open' }
  room : func + wanted.getD results.length ≤ m'.stack.size
  result : ∀ j < wanted.getD results.length, m'.stack.getD (func + j) .nil = results.getD j .nil
  below : ∀ j < func,
    m'.stack.getD j .nil = m.stack.getD j .nil ∨ ∃ r, (j, r) ∈ m.openUpvalues

/-! ## Steps -/

/-- One iteration of a loop that goes on. -/
def Advances (m m' : Machine) : Prop := ∃ fuel, (iteration fuel).run m = .ok .next m'

/-- The loop goes on, and all the time there are more than `k` frames. -/
def Inside (k : Nat) : Machine → Machine → Prop :=
  Relation.ReflTransGen fun m m' => Advances m m' ∧ k < m'.frames.size

/-- The frame `g` stays where it is as long as the loop goes on above the frames below it. -/
theorem Inside.looping {k : Nat} {m₁ m₂ : Machine} (h : Inside k m₁ m₂) (hloop : Looping g k m₁) :
    Looping g k m₂ ∧ m₁.Follows k g.destination m₂ := by
  induction h with
  | refl => exact ⟨hloop, hloop.follows_refl⟩
  | tail _ hstep ih =>
    obtain ⟨⟨fuel, hrun⟩, hsize⟩ := hstep
    rcases ensures_iff_run.mp (iteration_kept (kept fuel) ih.1) with ⟨o, m₃, heq, hturns⟩ | ⟨_, _, heq, -⟩
    · cases hrun.symm.trans heq
      rcases hturns with hgoes | ⟨-, hk⟩
      · exact ⟨hgoes.loop, ih.2.trans hgoes.follows⟩
      · omega
    · cases hrun.symm.trans heq

/-! ## One instruction -/

theorem Active.fetched (ha : Active code f m) (shown : String) :
    Active code { f with next := f.next + 1 } (m.fetched shown) := by
  have hready : Active code f { m with output := shown } :=
    ⟨⟨{ ha.ready.toSound with }, ha.ready.idle⟩, ha.back⟩
  have hworks := hready.works_frame (g := fun f => { f with next := f.next + 1 }) (fun _ => rfl)
    ha.frame.stop
  obtain ⟨f', hactive, -⟩ := hworks.active
  have hback : m.advanced.back? = some { f with next := f.next + 1 } := by
    rw [advanced, back?_eq_some_iff, Array.size_modify, Array.getElem?_modify, if_pos rfl,
      ha.frame_get]
    rfl
  exact ⟨hactive.ready, hback⟩

theorem ensures_located {α : Type} {x : Exec α} {Q : α → Machine → Prop} {E : Fault → Prop}
    (hx : m.Ensures x Q fun e _ => ∀ e', e.Leaves e' → E e') :
    m.Ensures (located x) Q fun e _ => E e := by
  rw [located, ensures_tryCatch]
  refine hx.mono (fun _ _ h => h) fun e m' he => ?_
  cases e with
  | runtime error =>
    have hE : E (.script (.str (m'.position ++ error.message)) (m'.position ++ error.message)) := by
      refine he _ ⟨fun error' heq => ?_, fun hne => absurd rfl (hne error)⟩
      cases heq
      exact ⟨_, rfl⟩
    simp only [positioned, newText, ensures_bind, ensures_get, ensures_ite, ensures_modify,
      ensures_pure, ensures_throw]
    exact ⟨fun _ => hE, fun _ => hE⟩
  | _ => exact he _ ⟨fun _ heq => (by cases heq), fun _ => rfl⟩

theorem ensures_iteration (ha : Active code f m) (hi : f.prototype.chunk.code[f.next]? = some i)
    {fuel : Nat} {Q : Outcome → Machine → Prop} {E : Fault → Prop}
    (h : ∀ shown, (m.fetched shown).Ensures (turn fuel i) Q fun e _ => ∀ e', e.Leaves e' → E e') :
    m.Ensures (iteration fuel) Q fun e _ => E e := by
  have hfetch : ∀ shown, ({ m with output := shown } : Machine).Ensures (do
      let i ← fetch
      located (turn fuel i)) Q fun e _ => E e := by
    intro shown
    simp only [fetch, ensures_bind, ensures_frame, ensures_modifyFrame]
    refine ⟨fun f' hf' => ?_, fun hnone => ?_⟩
    · cases ha.back.symm.trans hf'
      rw [hi]
      exact ensures_located (h shown)
    · cases hnone.symm.trans ha.back
  rw [iteration, ensures_bind, ensures_get]
  split
  · simp only [trace, write, ensures_bind, ensures_frame, ensures_slots, ensures_modify]
    refine ⟨fun f' _ => ?_, fun hnone => ?_⟩
    · rw [← ensures_bind]
      exact hfetch _
    · cases hnone.symm.trans ha.back
  · exact hfetch m.output

/-! ## Calls -/

/-- The stack when a function is called: the function and its arguments lie on it, and below them
nothing has changed. -/
structure Prepared (f : Frame) (m : Machine) (func : Nat) (callee : Value) (args : List Value)
    (s : Array Value) : Prop where
  base : f.base ≤ func
  window : func < f.window
  callee : s.getD func .nil = callee
  values : valuesFrom s (func + 1) args.length = args
  fits : func + 1 + args.length ≤ s.size
  below : ∀ j < func, s.getD j .nil = m.stack.getD j .nil

theorem Prepared.argument (h : Prepared f m func callee args s) (j : Nat) :
    args.getD j .nil = if j < args.length then s.getD (func + 1 + j) .nil else .nil := by
  conv_lhs => rw [← h.values]
  exact valuesFrom_getD _ _ _ _

/-- The instruction asks for the call. -/
theorem CallSite.ensures_iteration (hsite : CallSite f m func callee args wanted)
    (ha : Active code f m) {fuel : Nat} {Q : Outcome → Machine → Prop} {E : Fault → Prop}
    (h : ∀ shown s, Active code { f with next := f.next + 1 } { m.fetched shown with stack := s } →
      Prepared f m func callee args s →
      Machine.Ensures { m.fetched shown with stack := s }
        (callSlot fuel func (some args.length) wanted) (fun _ m' => Q .next m')
        fun e _ => ∀ e', e.Leaves e' → E e') :
    m.Ensures (iteration fuel) Q fun e _ => E e := by
  cases hsite with
  | @call i n hi hop hn =>
    refine Machine.ensures_iteration ha hi fun shown => ?_
    obtain ⟨op, hop', hvalid⟩ := ha.codeValid.words _ i hi
    cases hop.symm.trans hop'
    have hpasses := ensures_perform (ha.fetched shown) hop hvalid.operands Opcode.noConfusion
    simp only [perform, hop] at hpasses
    obtain ⟨-, hbase, hwindow, hargs⟩ := hpasses
    have hnext := h shown m.stack (ha.fetched shown) ⟨hbase, hwindow, rfl, by rw [valuesFrom_length],
      by rw [valuesFrom_length]; exact hargs n hn, fun _ _ => rfl⟩
    rw [valuesFrom_length] at hnext
    simp only [turn, step, ensures_bind, ensures_frame]
    refine ⟨fun f' hf' => ?_, fun hnone => by cases hnone.symm.trans (ha.fetched shown).back⟩
    cases (ha.fetched shown).back.symm.trans hf'
    simp only [perform, hop, ensures_pure, ensures_bind]
    unfold listed at hn
    rw [show (if i.b = 0 then openCount { f with next := f.next + 1 } (f.base + i.a + 1)
      else some (i.b - 1)) = some n from hn]
    exact hnext
  | @iterator i hi hop =>
    refine Machine.ensures_iteration ha hi fun shown => ?_
    obtain ⟨op, hop', hvalid⟩ := ha.codeValid.words _ i hi
    cases hop.symm.trans hop'
    have hpasses := ensures_perform (ha.fetched shown) hop hvalid.operands Opcode.noConfusion
    simp only [perform, hop, ensures_bind, ensures_copySlots, ensures_pure] at hpasses
    obtain ⟨hworks, hbase, hwindow, hargs⟩ := hpasses
    have hargs := hargs 2 rfl
    have hmoves := writes_moveSlots (P := fun _ => True) 3 (f.base + i.a) (f.base + i.a + 3) m.stack
      (fun _ _ => trivial) trivial
    have hsize := hmoves.size
    have hmoved : ∀ j < 3, (moveSlots 3 (f.base + i.a) (f.base + i.a + 3) m.stack).getD
        (f.base + i.a + 3 + j) .nil = m.stack.getD (f.base + i.a + j) .nil := by
      intro j hj
      have hfits : f.base + i.a + 3 + 1 + 2 ≤ m.stack.size := hsize ▸ hargs
      rw [Array.getD_eq_getD_getElem?, moveSlots_getElem? _ _ _ _ (.inr (Nat.le_refl _)) hj (by omega),
        Option.getD_some]
    have hvalues : valuesFrom (moveSlots 3 (f.base + i.a) (f.base + i.a + 3) m.stack)
        (f.base + i.a + 3 + 1) 2 = valuesFrom m.stack (f.base + i.a + 1) 2 :=
      congrArg₂ (fun v w => [v, w]) (hmoved 1 (by omega)) (hmoved 2 (by omega))
    obtain ⟨f', hactive, -⟩ := hworks.active
    cases hactive.back.symm.trans (ha.fetched shown).back
    have hnext := h shown _ hactive ⟨hbase, hwindow, hmoved 0 (by omega), by
      rw [valuesFrom_length]; exact hvalues, by rw [valuesFrom_length]; exact hargs,
      fun j hj => hmoves.getD hj⟩
    rw [valuesFrom_length] at hnext
    simp only [turn, step, ensures_bind, ensures_frame]
    refine ⟨fun f' hf' => ?_, fun hnone => by cases hnone.symm.trans (ha.fetched shown).back⟩
    cases (ha.fetched shown).back.symm.trans hf'
    simp only [perform, hop, ensures_pure, ensures_bind, ensures_copySlots]
    exact hnext

theorem advanced_back (ha : Active code f m) :
    m.advanced.back? = some { f with next := f.next + 1 } :=
  (ha.fetched m.output).back

theorem advanced_size (m : Machine) : m.advanced.size = m.frames.size := Array.size_modify

/-- A closure that is called starts with its arguments. -/
theorem starts {r : Ref} {c : Closure} {pool : Array Value} {shown : String} {p : Machine}
    (hprepared : Prepared f m func (.closure r) args s)
    (hready : Ready code (({ m.fetched shown with stack := s }.withMemory p).entered r c pool func
      (some args.length) wanted false)) :
    Starts m func r c args wanted (enteredFrame r c pool func wanted
      (extraArguments c.prototype func (some args.length) s) false)
      (({ m.fetched shown with stack := s }.withMemory p).entered r c pool func
        (some args.length) wanted false) := by
  have hactive : Active code (enteredFrame r c pool func wanted
      (extraArguments c.prototype func (some args.length) s) false) _ :=
    ⟨hready, Array.back?_push⟩
  have hparams : c.prototype.params ≤ c.prototype.registers := hactive.params_le
  refine ⟨⟨code, hactive⟩, rfl, rfl, rfl, rfl, rfl, rfl, rfl, rfl, hparams, fun j hj => ?_, ?_,
    fun j hj => ?_, rfl, rfl⟩
  · show (enteredStack c.prototype func (some args.length) s).getD (func + 1 + j) .nil = _
    rw [enteredStack_register hparams _ _ _ hj, hprepared.argument]
    by_cases hlt : j < c.prototype.params
    · rw [if_pos hlt]
      by_cases hgiven : j < args.length
      · rw [if_pos (by omega), if_pos hgiven]
      · rw [if_neg (by omega), if_neg hgiven]
    · rw [if_neg hlt, if_neg (by omega)]
  · show (extraArguments c.prototype func (some args.length) s).toList = _
    rw [extraArguments_toList _ hprepared.fits, hprepared.values]
  · show (enteredStack c.prototype func (some args.length) s).getD j .nil = _
    rw [enteredStack_below _ _ _ (Nat.le_of_lt hj), hprepared.below j hj]

/-! ## Returns -/

variable {r : Ref} {c : Closure} {g₂ : Frame} {m₁ m₂ : Machine}

theorem Starts.looping (h : Starts m func r c args wanted g m₁) : Looping g m.frames.size m₁ := by
  obtain ⟨code, hactive⟩ := h.active
  refine ⟨⟨code, hactive.ready⟩, ⟨g, ?_, .refl g⟩, fun i f hi hf => ?_⟩
  · rw [h.frames, ← advanced_size m]
    exact Array.getElem?_push_size
  · obtain ⟨hlt, -⟩ := Array.getElem?_eq_some_iff.mp hf
    rw [h.frames, Array.size_push, advanced_size] at hlt
    omega

/-- When the function returns, the frames below it are as they were. -/
theorem Starts.pop (h : Starts m func r c args wanted g m₁)
    (hfollows : m₁.Follows m.frames.size func m₂) (hsize : m₂.frames.size = m.frames.size + 1) :
    m₂.frames.pop = m.advanced := by
  refine Array.ext_getElem? fun i => ?_
  have hadvanced := advanced_size m
  rw [Array.getElem?_pop]
  split
  next hlt =>
    rw [hfollows.frames i (by omega), h.frames, Array.getElem?_push, if_neg (by omega)]
  next hlt => rw [Array.getElem?_eq_none (by omega)]

theorem advanced_pop (m : Machine) : m.advanced.pop = m.frames.pop := by
  refine Array.ext_getElem? fun i => ?_
  have hsize := advanced_size m
  rw [Array.getElem?_pop, Array.getElem?_pop]
  split
  next hlt => rw [if_pos (by omega), advanced, Array.getElem?_modify, if_neg (by omega)]
  next hlt => rw [if_neg (by omega)]

theorem modify_back {α : Type} (xs : Array α) (f g : α → α) :
    (xs.modify (xs.size - 1) f).modify (xs.size - 1) g = xs.modify (xs.size - 1) (g ∘ f) := by
  refine Array.ext_getElem? fun i => ?_
  simp only [Array.getElem?_modify]
  split
  · rw [Option.map_map]
  · rfl

/-- After a return the function that made the call goes on. -/
theorem resumes_left {code' : Nat → Prototype} (source n : Nat) (ha : Active code f m)
    (hg : Active code' g m') (hopened : ∀ u ∈ m'.openUpvalues, u.1 < g.base)
    (hregister : g.toHost = false) (hframes : m'.frames.pop = m.advanced)
    (hsource : g.destination ≤ source)
    (hroom : g.destination + g.wanted.getD n ≤ m'.options.maxSlots)
    (hbelow : ∀ j < g.destination,
      m'.stack.getD j .nil = m.stack.getD j .nil ∨ ∃ r, (j, r) ∈ m.openUpvalues) :
    Resumes m g.destination g.wanted (valuesFrom m'.stack source n)
      (m'.leftToCaller source (g.wanted.getD n) n g { f with next := f.next + 1 }) := by
  have hcaller : m'.frames.pop.back? = some { f with next := f.next + 1 } := by
    rw [hframes]
    exact advanced_back ha
  obtain ⟨f', hleft, -⟩ := hg.leftToCaller hopened hregister hcaller source n hroom
  refine ⟨⟨code', hleft.ready⟩, ?_, ?_, fun j hj => ?_, fun j hj => ?_⟩
  · simp only [leftToCaller, hframes, advanced_size, valuesFrom_length]
    cases g.wanted with
    | none => exact modify_back _ _ _
    | some k => rfl
  · show _ ≤ (leftStack g.destination source (g.wanted.getD n) n m'.top m'.stack).size
    rw [leftStack_size, valuesFrom_length]
    exact Nat.le_max_left _ _
  · rw [valuesFrom_length] at hj
    show (leftStack g.destination source (g.wanted.getD n) n m'.top m'.stack).getD _ _ = _
    rw [leftStack_result hsource _ _ _ hj, valuesFrom_getD]
  · show (leftStack g.destination source (g.wanted.getD n) n m'.top m'.stack).getD _ _ = _ ∨ _
    rw [leftStack_below _ _ _ _ _ hj]
    exact hbelow j hj

/-- The function returns to the one that called it. -/
theorem Starts.returns (h : Starts m func r c args wanted g m₁) (ha : Active code f m)
    (hinside : Inside m.frames.size m₁ m₂) (hsize : m₂.frames.size = m.frames.size + 1)
    (hback : m₂.frames.back? = some g₂) (hsite : ReturnSite g₂ m₂ results) (fuel : Nat) :
    m₂.Ensures (iteration fuel) (fun o m₃ => o = .next ∧ Resumes m func wanted results m₃)
      fun e _ => m.options.maxSlots < func + wanted.getD results.length ∧ e.Arises .stackOverflow := by
  obtain ⟨hloop, hfollows⟩ := hinside.looping h.looping
  rw [h.destination] at hfollows
  obtain ⟨code₂, hready₂⟩ := hloop.live
  have ha₂ : Active code₂ g₂ m₂ := ⟨hready₂, hback⟩
  have hsame := hloop.same ha₂ (by omega)
  have hoptions : m₂.options = m.options := hfollows.options.trans h.options
  obtain rfl : g₂.wanted = wanted := by rw [hsame]; exact h.wanted
  obtain rfl : g₂.destination = func := by rw [hsame]; exact h.destination
  have hregister : g₂.toHost = false := by rw [hsame]; exact h.toHost
  have hbase := ha₂.base_eq
  have hpop : m₂.advanced.pop = m.advanced := (advanced_pop m₂).trans (h.pop hfollows hsize)
  cases hsite with
  | @ret i n hi hop hn =>
    refine ensures_iteration ha₂ hi fun shown => ?_
    simp only [turn, step, ensures_bind, ensures_frame]
    refine ⟨fun g₃ hg₃ => ?_, fun hnone => by cases hnone.symm.trans (ha₂.fetched shown).back⟩
    cases (ha₂.fetched shown).back.symm.trans hg₃
    simp only [perform, hop, ensures_bind, ensures_pure]
    unfold listed at hn
    rw [show (if i.b = 0 then openCount { g₂ with next := g₂.next + 1 } (g₂.base + i.a)
      else some (i.b - 1)) = some n from hn]
    refine ensures_leave (ha₂.fetched shown) (fun m' n' hc hn' hroom hhost => ?_)
      (fun m' n' g' hc hn' hroom hg' hnot => ?_) fun m' hc hover => ?_
    · -- there is a frame below, and no native function stands between
      exfalso
      rcases hhost with hhost | hnone
      · exact Bool.false_ne_true (hregister.symm.trans hhost)
      · have hnone : m₂.advanced.pop.back? = none := hnone
        rw [hpop, advanced_back ha] at hnone
        cases hnone
    · rw [Option.or_some] at hn'
      cases hn'
      have hg' : m₂.advanced.pop.back? = some g' := hg'
      rw [hpop, advanced_back ha] at hg'
      cases hg'
      have hresumes := resumes_left (g₂.base + i.a) n ha hc.active hc.opened hnot
        (by rw [hc.frames]; exact hpop) (by show g₂.destination ≤ _; omega) hroom
      rw [hc.stack] at hresumes
      rw [if_neg (show ¬ g₂.toHost = true from Bool.eq_false_iff.mp hregister)]
      refine ⟨rfl, hresumes fun j hj => ?_⟩
      rw [← h.below j hj, ← h.opened]
      exact hfollows.slots j hj
    · intro e' hleaves
      have hmax : m'.options = m.options := hc.follows.options.trans hoptions
      refine ⟨?_, hleaves.1 _ rfl⟩
      rw [valuesFrom_length, ← hmax]
      exact hover _ Option.or_some

/-! ## From the call to the return -/

theorem CallSite.has (hsite : CallSite f m func callee args wanted) (ha : Active code f m) :
    m.heap.Has callee := by
  cases hsite with
  | call => exact ha.register_has _
  | iterator => exact ha.register_has _

/-- A closure is called. -/
theorem CallSite.closure (hsite : CallSite f m func (.closure r) args wanted) (ha : Active code f m)
    (hc : m.heap.closure? r = some c) (fuel : Nat) :
    m.Ensures (iteration (fuel + 1))
      (fun o m₁ => o = .next ∧ ∃ g, Starts m func r c args wanted g m₁)
      fun e _ => (m.options.maxFrames ≤ m.frames.size ∨
        m.options.maxSlots < func + 1 + max c.prototype.registers args.length) ∧
        e.Arises .stackOverflow := by
  refine hsite.ensures_iteration ha fun shown s hactive hprepared => ?_
  have hslot : ({ m.fetched shown with stack := s } : Machine).stack.getD func .nil = .closure r :=
    hprepared.callee
  have hcallable : Callable { m.fetched shown with stack := s } func false := by
    refine ⟨fun g hg => ?_, Bool.noConfusion, fun _ g hg => ?_, Bool.noConfusion⟩
    · cases hactive.back.symm.trans hg
      exact hprepared.base
    · cases hactive.back.symm.trans hg
      exact hprepared.window
  rw [callSlot, ensures_bind, ensures_slot, hslot]
  refine ensures_enter hactive.ready (closure?_eq_some_iff.mp hc) hslot hcallable
    (fun p pool hready => ⟨rfl, _, starts hprepared hready⟩) (fun hover e' hleaves => ?_)
    fun _ _ hnone => by cases hnone
  refine ⟨hover.imp (fun hframes => ?_) fun hslots => ?_, hleaves.1 _ rfl⟩
  · rw [← advanced_size m]
    exact hframes
  · rw [← Nat.add_max_add_left]
    exact hslots

/-- After a native function has delivered its results the function that called it goes on. -/
theorem resumes_delivered {code' : Nat → Prototype}
    (hg : Active code' { f with next := f.next + 1 } m') (hframes : m'.frames = m.advanced)
    (hresults : ∀ v ∈ results, m'.heap.Has v) (hfunc : f.base ≤ func)
    (hroom : func + wanted.getD results.length ≤ m'.options.maxSlots)
    (hbelow : ∀ j < func,
      m'.stack.getD j .nil = m.stack.getD j .nil ∨ ∃ r, (j, r) ∈ m.openUpvalues) :
    Resumes m func wanted results (m'.delivered results func wanted) := by
  obtain ⟨f', hactive, -⟩ := (hg.works_deliver hresults hfunc hroom).active
  refine ⟨⟨code', hactive.ready⟩, ?_, ?_, fun j hj => ?_, fun j hj => ?_⟩
  · simp only [delivered, hframes, advanced_size]
    cases wanted with
    | none => exact modify_back _ _ _
    | some k => rfl
  · show _ ≤ (deliveredStack results func _ m'.stack).size
    rw [deliveredStack_size]
    exact Nat.le_max_left _ _
  · exact deliveredStack_result results func m'.stack hj
  · show (deliveredStack results func _ m'.stack).getD _ _ = _ ∨ _
    rw [deliveredStack_below _ _ _ hj]
    exact hbelow j hj

theorem Resumes.shallower (h : Resumes m func wanted results m') :
    Resumes m func wanted results m'.shallower :=
  ⟨h.live.shallower, h.frames, h.room, h.result, h.below⟩

/-- A native function is called. -/
theorem CallSite.native {native : Native} (hsite : CallSite f m func (.native native) args wanted)
    (ha : Active code f m) (fuel : Nat) :
    m.Ensures (iteration (fuel + 1))
      (fun o m₃ => o = .next ∧ ∃ results m₁ m₂, NativeStarts m func args m₁ ∧
        (runNative fuel native args).run m₁ = .ok results m₂ ∧ Resumes m func wanted results m₃)
      fun e _ =>
        (m.options.maxNativeDepth ≤ m.nativeDepth ∧ e.Arises .nativeOverflow) ∨
        ∃ m₁, NativeStarts m func args m₁ ∧
          ((∃ e' m₂, (runNative fuel native args).run m₁ = .error e' m₂ ∧ e'.Leaves e) ∨
            ∃ results m₂, (runNative fuel native args).run m₁ = .ok results m₂ ∧
              m.options.maxSlots < func + wanted.getD results.length ∧ e.Arises .stackOverflow) := by
  refine hsite.ensures_iteration ha fun shown s hactive hprepared => ?_
  have hslot : ({ m.fetched shown with stack := s } : Machine).stack.getD func .nil = .native native :=
    hprepared.callee
  rw [callSlot, ensures_bind, ensures_slot, hslot]
  refine ensures_guarded (fun hdepth e' hleaves => .inl ⟨hdepth, hleaves.1 _ rfl⟩) fun hdepth => ?_
  simp only [ensures_bind, ensures_slots, ensures_raiseTop]
  rw [show (({ m.fetched shown with stack := s } : Machine).deeper.stack.extract (func + 1)
    (func + 1 + args.length)).toList = args from
      (extract_toList hprepared.fits).trans hprepared.values]
  have hlive : Live { ({ m.fetched shown with stack := s } : Machine).deeper with
      top := max m.top (func + 1 + args.length) } :=
    (Live.deeper ⟨code, hactive.ready⟩ hdepth).raise (Nat.le_max_left _ _)
      (Nat.max_le.mpr ⟨hactive.top_le, hprepared.fits⟩)
  have hstarts : NativeStarts m func args
      { ({ m.fetched shown with stack := s } : Machine).deeper with
        top := max m.top (func + 1 + args.length) } :=
    ⟨rfl, rfl, rfl, hprepared.values, Nat.le_max_right _ _, hprepared.below⟩
  have hargs : ∀ v ∈ args, m.heap.Has v := by
    rw [← hprepared.values]
    intro v hv
    obtain ⟨j, -, rfl⟩ := List.mem_map.mp hv
    exact hactive.register_has _
  refine (((kept fuel).runNative hlive hargs).run_eq).mono (fun results m₂ hy => ?_)
    fun e m₂ hy e' hleaves => .inr ⟨_, hstarts, .inl ⟨e, m₂, hy.2, hleaves⟩⟩
  obtain ⟨⟨⟨code', hready⟩, hrestores⟩, hhas⟩ := hy.1
  have hg : Active code' { f with next := f.next + 1 } m₂ := by
    refine ⟨hready, ?_⟩
    rw [hrestores.frames]
    exact hactive.back
  have hoptions : m₂.options = m.options := hrestores.follows.options
  refine ensures_deliver results func wanted (fun hroom => ?_) fun hover e' hleaves => ?_
  · refine ⟨trivial, results, _, m₂, hstarts, hy.2, Resumes.shallower ?_⟩
    refine resumes_delivered hg hrestores.frames hhas hprepared.base hroom fun j hj => ?_
    have hslot := hrestores.follows.slots j (by
      show j < max m.top (func + 1 + args.length)
      omega)
    exact hslot.imp_left fun heq => heq.trans (hprepared.below j hj)
  · rw [hoptions] at hover
    exact .inr ⟨_, hstarts, .inr ⟨results, m₂, hy.2, hover, hleaves.1 _ rfl⟩⟩

/-- A closure that is called starts with its arguments, and when it returns, whatever has happened in
the meantime, the function that called it goes on with the results. A native function that ends with
results has been given the same arguments, and the function that called it goes on in the same way.
A call or a return fails only where the frames, the stack or the depth reach their limits, and a
native function where it fails by itself. -/
theorem call_protocol (ha : Active code f m) (hsite : CallSite f m func callee args wanted)
    (fuel : Nat) :
    (∀ r, callee = .closure r → ∃ c, m.heap.closure? r = some c ∧
      m.Ensures (iteration (fuel + 1))
        (fun o m₁ => o = .next ∧ ∃ g, Starts m func r c args wanted g m₁ ∧
          ∀ m₂ g₂ results, Inside m.frames.size m₁ m₂ → m₂.frames.size = m.frames.size + 1 →
            m₂.frames.back? = some g₂ → ReturnSite g₂ m₂ results → ∀ fuel',
            m₂.Ensures (iteration fuel')
              (fun o m₃ => o = .next ∧ Resumes m func wanted results m₃)
              fun e _ => m.options.maxSlots < func + wanted.getD results.length ∧
                e.Arises .stackOverflow)
        fun e _ => (m.options.maxFrames ≤ m.frames.size ∨
          m.options.maxSlots < func + 1 + max c.prototype.registers args.length) ∧
          e.Arises .stackOverflow) ∧
    ∀ native, callee = .native native →
      m.Ensures (iteration (fuel + 1))
        (fun o m₃ => o = .next ∧ ∃ results m₁ m₂, NativeStarts m func args m₁ ∧
          (runNative fuel native args).run m₁ = .ok results m₂ ∧ Resumes m func wanted results m₃)
        fun e _ =>
          (m.options.maxNativeDepth ≤ m.nativeDepth ∧ e.Arises .nativeOverflow) ∨
          ∃ m₁, NativeStarts m func args m₁ ∧
            ((∃ e' m₂, (runNative fuel native args).run m₁ = .error e' m₂ ∧ e'.Leaves e) ∨
              ∃ results m₂, (runNative fuel native args).run m₁ = .ok results m₂ ∧
                m.options.maxSlots < func + wanted.getD results.length ∧
                e.Arises .stackOverflow) := by
  refine ⟨fun r hr => ?_, fun native hnative => (hnative ▸ hsite).native ha fuel⟩
  subst hr
  obtain ⟨c, hc⟩ : m.heap.Has (.closure r) := hsite.has ha
  have hc := closure?_eq_some_iff.mpr hc
  refine ⟨c, hc, (hsite.closure ha hc fuel).mono_ok fun o m₁ hstart => ?_⟩
  obtain ⟨rfl, g, hstarts⟩ := hstart
  exact ⟨rfl, g, hstarts, fun m₂ g₂ results hinside hsize hback hreturn fuel' =>
    hstarts.returns ha hinside hsize hback hreturn fuel'⟩

/-- A program that runs on a new machine. -/
theorem exists_running {text : String} {p : Prototype} (hp : compile text "text" = .ok p)
    (hregisters : p.registers ≤ 255) :
    ∃ (code : Nat → Prototype) (f : Frame) (m : Machine), Active code f m ∧ f.prototype = p := by
  obtain ⟨code, m, r, c, hm, hr, rfl, hoptions, htop, hframes, -⟩ := exists_program hp
  have hslots : m.options.maxSlots = 1000000 := by rw [hoptions]
  have hmax : m.options.maxFrames = 10000 := by rw [hoptions]
  have hhas : m.heap.Has (.closure r) := ⟨c, hr⟩
  obtain ⟨hcalling, -⟩ := hm.calling hhas (List.forall_mem_nil _)
    (by rw [htop, hslots, List.length_nil]; omega)
  have henter : (m.calling (.closure r) []).Ensures (enter r m.top (some 0) none true)
      (fun _ m' => ∃ code f, Active code f m' ∧ f.prototype = c.prototype) fun _ _ => False := by
    refine ensures_enter hcalling hr (calling_slot _ _ _) (hm.callable _ _)
      (fun q pool hentered => ⟨code, _, ⟨hentered, Array.back?_push⟩, rfl⟩) (fun hover => ?_)
      fun _ _ hnone => by cases hnone
    have hover : m.options.maxFrames ≤ m.frames.size ∨
      m.options.maxSlots < max (m.top + 1 + c.prototype.registers) (m.top + 1 + 0) := hover
    rw [hframes, htop, hslots, hmax, Array.size_empty] at hover
    omega
  rcases ensures_iff_run.mp henter with ⟨_, m', -, code', f, hrest⟩ | ⟨_, _, _, hfalse⟩
  · exact ⟨code', f, m', hrest⟩
  · exact hfalse.elim

/-- A function is about to call itself. -/
theorem exists_callSite : ∃ (code : Nat → Prototype) (f : Frame) (m : Machine), Active code f m ∧
    CallSite f m (f.base + 1) (.closure f.closure) [] (some 0) := by
  have hcompile : (compile "local a a()" "text").toOption.map (fun p =>
      (p.chunk.code[2]?.map fun i => (i.opcode?, i.a, i.b, i.c), p.registers)) =
      some (some (some .call, 1, 1, 1), 2) := by decide +kernel
  cases hp : compile "local a a()" "text" with
  | error e =>
    rw [hp] at hcompile
    cases hcompile
  | ok p =>
    rw [hp] at hcompile
    obtain ⟨hcode, hregisters⟩ := Prod.mk.inj (Option.some.inj hcompile)
    obtain ⟨i, hi, hcall⟩ := Option.map_eq_some_iff.mp hcode
    obtain ⟨hop, hcall⟩ := Prod.mk.inj hcall
    obtain ⟨ha, hcall⟩ := Prod.mk.inj hcall
    obtain ⟨hb, hc⟩ := Prod.mk.inj hcall
    obtain ⟨code, f, m, hf, rfl⟩ := exists_running hp (by omega)
    obtain ⟨c, hclosure, -⟩ := hf.frame.closure
    have hset := hf.works_set (a := 1) (v := .closure f.closure) (by omega) ⟨c, hclosure⟩
    obtain ⟨f', hf', -⟩ := hset.active
    cases hf'.back.symm.trans hf.back
    have hjump := hf'.works_frame (g := fun f => { f with next := 2 }) (fun _ => rfl) hf'.frame.stop
    obtain ⟨f'', hf'', -⟩ := hjump.active
    have hback := hf''.back
    rw [back?_eq_some_iff, Array.size_modify, Array.getElem?_modify, if_pos rfl, hf'.frame_get] at hback
    cases hback
    have hwindow := hf.window_le_size
    have hregister : (m.stack.setIfInBounds (f.base + 1) (.closure f.closure)).getD (f.base + 1)
        .nil = .closure f.closure := by
      rw [Array.getD_eq_getD_getElem?, Array.getElem?_setIfInBounds_self_of_lt (by omega),
        Option.getD_some]
    have hsite : ∀ m' : Machine, m'.stack = m.stack.setIfInBounds (f.base + 1) (.closure f.closure) →
        CallSite { f with next := 2 } m' (f.base + 1) (.closure f.closure) [] (some 0) := by
      intro m' hm'
      have hcallSite := CallSite.call (f := { f with next := 2 }) (m := m') (n := 0) hi hop
        (by rw [hb]; rfl)
      rw [ha, hc, hm', hregister] at hcallSite
      exact hcallSite
    exact ⟨code, _, _, hf'', hsite _ rfl⟩

theorem call_protocol_self :
    ∃ (code : Nat → Prototype) (f : Frame) (m : Machine) (c : Closure), Active code f m ∧
      CallSite f m (f.base + 1) (.closure f.closure) [] (some 0) ∧
      m.heap.closure? f.closure = some c ∧
      m.Ensures (iteration 1)
        (fun o m₁ => o = .next ∧ ∃ g, Starts m (f.base + 1) f.closure c [] (some 0) g m₁)
        fun e _ => e.Arises .stackOverflow := by
  obtain ⟨code, f, m, ha, hsite⟩ := exists_callSite
  obtain ⟨c, hc, hcall⟩ := (call_protocol ha hsite 0).1 f.closure rfl
  refine ⟨code, f, m, c, ha, hsite, hc, hcall.mono (fun o m₁ hstart => ?_) fun e _ he => he.2⟩
  obtain ⟨ho, g, hstarts, -⟩ := hstart
  exact ⟨ho, g, hstarts⟩

end Machine
end LuaMachine
