import LuaMachine.Proofs.Collection.Lockstep
/-! # Runs of alike machines

A run that never asks how much memory is in use goes the same way on machines that are alike: the
base library and the nesting of calls add nothing that could tell them apart. The functions of a run
call each other, each with less fuel, and so one induction on the fuel goes over all of them.

* `Machine.Moment.Counts`: a moment at which the memory in use is asked for.
* `Machine.Twins`: the same thing is about to be done on two machines that are alike.
* `Machine.Concurring`, `Machine.concurring`: all functions of a run.
* `Machine.concur_invoke`: a call from outside.
-/
set_option autoImplicit false

namespace LuaMachine
namespace Machine

variable {code code' : Nat → Prototype} {m m' n n' : Machine} {f : Frame} {fuel : Nat}
  {task task' : Task} {α : Type}

/-! ## The base library -/

/-- An error gets its position. -/
theorem Concur.located {x x' : Exec α} (hx : Concur m m' x x') :
    Concur m m' (located x) (located x') := by
  refine hx.tryCatch fun e n n' _ _ h => ?_
  cases e with
  | runtime error =>
    exact ((steady_positioned error).bind fun _ => steady_throw _) n n' h
  | _ => exact concur_throw h _

/-- A script asks how much memory is in use. -/
def Moment.Counts (p : Moment) : Prop :=
  ∃ args, p.task = .native (.base .collectgarbage) args ∧ args.headD .nil = .str "count"

/-- Nothing that is done because of the moment asks how much memory is in use. -/
def Moment.Unaware (p : Moment) : Prop := ∀ q, p.Leads q → ¬ q.Counts

/-- The same thing is about to be done on two machines that are alike and sound; on the first of
them it never asks how much memory is in use. -/
structure Twins (fuel : Nat) (task : Task) (m m' : Machine) : Prop where
  alike : m.Alike m'
  sound : Moment.Sound ⟨fuel, task, m⟩
  sound' : Moment.Sound ⟨fuel, task, m'⟩
  unaware : Moment.Unaware ⟨fuel, task, m⟩

/-- What is begun at two such moments in the same way is begun at two such moments. -/
theorem Twins.begins {fuel' : Nat} (ht : Twins fuel task m m') (h : n.Alike n')
    (hbegins : Moment.Begins ⟨fuel, task, m⟩ ⟨fuel', task', n⟩)
    (hbegins' : Moment.Begins ⟨fuel, task, m'⟩ ⟨fuel', task', n'⟩) : Twins fuel' task' n n' where
  alike := h
  sound := hbegins.sound ht.sound
  sound' := hbegins'.sound ht.sound'
  unaware q hq := ht.unaware q (.head hbegins hq)

/-- What each function of a run does on two machines that are alike, with so much fuel. -/
structure Concurring (fuel : Nat) : Prop where
  execute : ∀ {m m' : Machine}, Twins fuel .loop m m' →
    Concur m m' (Machine.execute fuel) (Machine.execute fuel)
  callSlot : ∀ {m m' : Machine} {func : Nat} {argc wanted : Option Nat},
    Twins fuel (.callSlot func argc wanted) m m' →
    Concur m m' (Machine.callSlot fuel func argc wanted) (Machine.callSlot fuel func argc wanted)
  runNative : ∀ {m m' : Machine} {f : Native} {args : List Value},
    Twins fuel (.native f args) m m' →
    Concur m m' (Machine.runNative fuel f args) (Machine.runNative fuel f args)
  interpret : ∀ {m m' : Machine} {next : NativeStep}, Twins fuel (.interpret next) m m' →
    Concur m m' (Machine.interpret fuel next) (Machine.interpret fuel next)
  call : ∀ {m m' : Machine} {callee : Value} {args : List Value},
    Twins fuel (.call callee args) m m' →
    Concur m m' (Machine.call fuel callee args) (Machine.call fuel callee args)
  protectedCall : ∀ {m m' : Machine} {callee : Value} {args : List Value},
    Twins fuel (.protectedCall callee args) m m' →
    Concur m m' (Machine.protectedCall fuel callee args) (Machine.protectedCall fuel callee args)

/-- The instruction is performed in the innermost frame of both machines. -/
theorem concur_step (h : m.Alike m') (hf : Active code f m) (hf' : Active code' f m')
    {i : Instruction} {op : Opcode} (hop : i.opcode? = some op)
    (hfit : i.OperandsFit f.prototype op) : Concur m m' (step i) (step i) := by
  have hperform := hf.concur_perform h hf' hop hfit
  have hback := hf.back
  have hback' := hf'.back
  unfold step frame
  simp only [bind_assoc]
  refine concur_get ?_
  rw [hback, hback']
  exact hperform

theorem Twins.fetched (ht : Twins (fuel + 1) .loop m m') {i : Instruction}
    (h : n.Alike n') (hfetch : fetching.run m = .ok i n) (hfetch' : fetching.run m' = .ok i n') :
    ∃ code code' f op, Active code f n ∧ Active code' f n' ∧ i.opcode? = some op ∧
      i.OperandsFit f.prototype op := by
  obtain ⟨f₀, k, -, hloop⟩ := ht.sound
  obtain ⟨f₀', k', -, hloop'⟩ := ht.sound'
  obtain ⟨code, f, op, hf, hop, hfit⟩ := ((fetching_kept hloop).of_ok hfetch).fits
  obtain ⟨code', f', op', hf', -, -⟩ := ((fetching_kept hloop').of_ok hfetch').fits
  have hback := hf'.back
  rw [h.frames, hf.back] at hback
  cases hback
  exact ⟨code, code', f, op, hf, hf', hop, hfit⟩

theorem Concurring.iteration (hc : Concurring fuel) (ht : Twins (fuel + 1) .loop m m') :
    Concur m m' (iteration fuel) (iteration fuel) := by
  rw [iteration_eq]
  refine (steady_fetching m m' ht.alike).bind fun i n n' hfetch hfetch' h => ?_
  obtain ⟨code, code', f, op, hf, hf', hop, hfit⟩ := ht.fetched h hfetch hfetch'
  refine Concur.located ((concur_step h hf hf' hop hfit).bind fun o p p' hstep hstep' h => ?_)
  cases o with
  | next => exact concur_pure h _
  | finished => exact concur_pure h _
  | call func argc wanted =>
    have hcall := hc.callSlot (ht.begins h (.callSlot hfetch hstep) (.callSlot hfetch' hstep'))
    exact hcall.bind fun _ _ _ _ _ h => concur_pure h _

theorem Alike.deeper (h : m.Alike m') : m.deeper.Alike m'.deeper :=
  { h with depth := by rw [Machine.deeper, Machine.deeper, h.depth] }

/-- A function and its arguments are put on the stack. -/
theorem Ready.called (hm : Ready code m) {callee : Value} {args : List Value}
    (hcallee : m.heap.Has callee) (hargs : ∀ v ∈ args, m.heap.Has v) :
    m.Ensures (do
      ensureStack (m.top + 1 + args.length)
      setSlots m.top (callee :: args)
      setTop (m.top + 1 + args.length))
      (fun _ n => Ready code n ∧ n.heap = m.heap) fun _ _ => True := by
  simp only [ensures_bind, ensures_ensureStack, ensures_setSlots, ensures_setTop]
  exact ⟨fun _ => trivial, fun hsize => ⟨(hm.calling hcallee hargs hsize).1, trivial⟩⟩

/-- A call that fails leaves a sound machine. -/
theorem Live.failed {β : Type} (hm : Live m) {callee : Value} {args : List Value}
    (hcallee : m.heap.Has callee) (hargs : ∀ v ∈ args, m.heap.Has v) {g : List Value → β} {e : Fault}
    (hrun : (do return g (← call fuel callee args)).run m = .error e n) : Live n := by
  have hcall : m.Ensures (do return g (← call fuel callee args)) (fun _ _ => True) fun _ => Live := by
    rw [ensures_bind]
    exact ((kept fuel).call hm hcallee hargs).mono (fun _ _ _ => trivial) fun _ _ hfalls => hfalls.live
  exact hcall.of_error hrun

end Machine
end LuaMachine
