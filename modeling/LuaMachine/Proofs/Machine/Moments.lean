import Mathlib.Logic.Relation
import LuaMachine.Proofs.Machine.Unwinding
/-! # The moments of a run

A run does one thing inside of another: a loop executes instructions, an instruction calls a native
function, this asks for a call, and the call begins a loop of its own. Each of these begins at a
moment of the run, with a machine and the fuel that is left.

* `Machine.Moment`: what is about to be done, and the machine on which it is.
* `Machine.Moment.Begins`: the next things that are done at a moment or because of it.
* `Machine.Moment.Sound`, `Machine.Moment.Begins.sound`: what holds at every moment of a run.
-/
set_option autoImplicit false

namespace LuaMachine
namespace Machine

/-- What a run does. -/
inductive Task where
  | loop
  | callSlot (func : Nat) (argc wanted : Option Nat)
  | native (f : Native) (args : List Value)
  | interpret (next : NativeStep)
  | call (callee : Value) (args : List Value)
  | protectedCall (callee : Value) (args : List Value)

/-- A task is about to be done with so much fuel. A loop is about to execute an instruction. -/
structure Moment where
  fuel : Nat
  task : Task
  machine : Machine

/-- The task without what it gives. -/
def Task.perform (fuel : Nat) : Task → Exec Unit
  | .loop => (fun _ => ()) <$> execute fuel
  | .callSlot func argc wanted => Machine.callSlot fuel func argc wanted
  | .native f args => (fun _ => ()) <$> runNative fuel f args
  | .interpret next => (fun _ => ()) <$> Machine.interpret fuel next
  | .call callee args => (fun _ => ()) <$> Machine.call fuel callee args
  | .protectedCall callee args => (fun _ => ()) <$> Machine.protectedCall fuel callee args

namespace Moment

/-- What is done from the moment on, until the task ends. -/
def run (p : Moment) : EStateM.Result Fault Machine Unit := (p.task.perform p.fuel).run p.machine

/-- At a moment, or after something that was done at it, the next thing begins. -/
inductive Begins : Moment → Moment → Prop where
  | callSlot {fuel : Nat} {m m₁ m₂ : Machine} {i : Instruction} {func : Nat}
      {argc wanted : Option Nat} (hfetch : fetching.run m = .ok i m₁)
      (hstep : (step i).run m₁ = .ok (.call func argc wanted) m₂) :
      Begins ⟨fuel + 1, .loop, m⟩ ⟨fuel, .callSlot func argc wanted, m₂⟩
  | loop {fuel : Nat} {m m' : Machine} (hturn : (iteration fuel).run m = .ok .next m') :
      Begins ⟨fuel + 1, .loop, m⟩ ⟨fuel, .loop, m'⟩
  | slotNative {fuel : Nat} {m : Machine} {func n : Nat} {wanted : Option Nat} {f : Native}
      (hslot : m.stack.getD func .nil = .native f)
      (hdepth : m.nativeDepth < m.options.maxNativeDepth) :
      Begins ⟨fuel + 1, .callSlot func (some n) wanted, m⟩
        ⟨fuel, .native f (m.stack.extract (func + 1) (func + 1 + n)).toList,
          { m.deeper with top := max m.top (func + 1 + n) }⟩
  | base {fuel : Nat} {m m' : Machine} {f : BaseFunction} {args : List Value} {next : NativeStep}
      (hrun : (f.run args).run m = .ok next m') :
      Begins ⟨fuel + 1, .native (.base f) args, m⟩ ⟨fuel, .interpret next, m'⟩
  | host {fuel : Nat} {m : Machine} {i : Nat} {f : HostFunction} {args : List Value}
      (hf : m.hosts[i]? = some f) :
      Begins ⟨fuel + 1, .native (.host i) args, m⟩ ⟨fuel, .interpret (f args), m⟩
  | asks {fuel : Nat} {m : Machine} {callee : Value} {args : List Value}
      {next : List Value → NativeStep} :
      Begins ⟨fuel + 1, .interpret (.call callee args next), m⟩ ⟨fuel, .call callee args, m⟩
  | answered {fuel : Nat} {m m' : Machine} {callee : Value} {args results : List Value}
      {next : List Value → NativeStep} (hcall : (call fuel callee args).run m = .ok results m') :
      Begins ⟨fuel + 1, .interpret (.call callee args next), m⟩
        ⟨fuel, .interpret (next results), m'⟩
  | protects {fuel : Nat} {m : Machine} {callee : Value} {args : List Value}
      {next : Bool → List Value → NativeStep} :
      Begins ⟨fuel + 1, .interpret (.protect callee args next), m⟩
        ⟨fuel, .protectedCall callee args, m⟩
  | settled {fuel : Nat} {m m' : Machine} {callee : Value} {args results : List Value} {ok : Bool}
      {next : Bool → List Value → NativeStep}
      (hcall : (protectedCall fuel callee args).run m = .ok (ok, results) m') :
      Begins ⟨fuel + 1, .interpret (.protect callee args next), m⟩
        ⟨fuel, .interpret (next ok results), m'⟩
  | callNative {fuel : Nat} {m : Machine} {f : Native} {args : List Value}
      (hdepth : m.nativeDepth < m.options.maxNativeDepth) :
      Begins ⟨fuel + 1, .call (.native f) args, m⟩ ⟨fuel, .native f args, m.deeper⟩
  | callClosure {fuel : Nat} {m m' : Machine} {r : Ref} {args : List Value}
      (hdepth : m.nativeDepth < m.options.maxNativeDepth)
      (henter : (enterFromHost r m.top args).run m.deeper = .ok () m') :
      Begins ⟨fuel + 1, .call (.closure r) args, m⟩ ⟨fuel, .loop, m'⟩
  | attempt {fuel : Nat} {m : Machine} {callee : Value} {args : List Value} :
      Begins ⟨fuel + 1, .protectedCall callee args, m⟩ ⟨fuel, .call callee args, m⟩

/-- The later moment belongs to what is done at the earlier one. -/
def Leads : Moment → Moment → Prop := Relation.ReflTransGen Begins

/-! ## What holds at a moment -/

/-- The machine is sound, and so is what is to be done with it. -/
def Sound (p : Moment) : Prop :=
  match p.task with
  | .loop => ∃ f₀ k, f₀.toHost = true ∧ Looping f₀ k p.machine
  | .callSlot func argc wanted => ∃ f₀ k code f, f₀.toHost = true ∧ Looping f₀ k p.machine ∧
      Active code f p.machine ∧ Asks f p.machine (.call func argc wanted)
  | .native _ args => Live p.machine ∧ ∀ v ∈ args, p.machine.heap.Has v
  | .interpret next => Live p.machine ∧ next.Draws p.machine.heap.Has
  | .call callee args | .protectedCall callee args =>
    Live p.machine ∧ p.machine.heap.Has callee ∧ ∀ v ∈ args, p.machine.heap.Has v

theorem Sound.live {p : Moment} (h : p.Sound) : Live p.machine := by
  obtain ⟨fuel, task, m⟩ := p
  cases task with
  | loop =>
    obtain ⟨f₀, k, -, hloop⟩ := h
    exact hloop.live
  | callSlot =>
    obtain ⟨f₀, k, code, f, -, hloop, -⟩ := h
    exact hloop.live
  | _ => exact h.1

end Moment

variable {α : Type} {m m' : Machine} {x : Exec α} {Q : α → Machine → Prop}
  {E : Fault → Machine → Prop}

theorem Ensures.of_ok (h : m.Ensures x Q E) {a : α} (hx : x.run m = .ok a m') : Q a m' := by
  unfold Ensures at h
  rw [hx] at h
  exact h

theorem Ensures.of_error (h : m.Ensures x Q E) {e : Fault} (hx : x.run m = .error e m') :
    E e m' := by
  unfold Ensures at h
  rw [hx] at h
  exact h

namespace Moment

variable {p q r : Moment}

/-- The instruction that asks for a call leaves the machine ready for it. -/
theorem sound_callSlot {fuel : Nat} {m₁ m₂ : Machine} {i : Instruction} {func : Nat}
    {argc wanted : Option Nat} (h : Sound ⟨fuel + 1, .loop, m⟩)
    (hfetch : fetching.run m = .ok i m₁)
    (hstep : (step i).run m₁ = .ok (.call func argc wanted) m₂) :
    Sound ⟨fuel, .callSlot func argc wanted, m₂⟩ := by
  obtain ⟨f₀, k, hhost, hloop⟩ := h
  have hfetched := (fetching_kept hloop).of_ok hfetch
  obtain ⟨code, f, op, ha, hop, hfit⟩ := hfetched.fits
  have hne : op ≠ .ret := by
    rintro rfl
    exact ((ensures_step ha).mpr (ret_kept hfetched.goes.loop ha hop)).of_ok hstep
  have hpasses := ((ensures_step ha).mpr (ensures_perform ha hop hfit hne)).of_ok hstep
  obtain ⟨f', ha', hsame⟩ := hpasses.works.active
  refine ⟨f₀, k, code, f', hhost, (hfetched.goes.loop.goes ha hpasses.works).loop, ha', ?_⟩
  have hasks := hpasses.asks
  unfold Asks at hasks ⊢
  rw [hsame]
  exact hasks

/-- What is begun at a sound moment, is begun at a sound one. -/
theorem Begins.sound (h : Begins p q) (hp : p.Sound) : q.Sound := by
  cases h with
  | callSlot hfetch hstep => exact sound_callSlot hp hfetch hstep
  | @loop fuel m m' hturn =>
    obtain ⟨f₀, k, hhost, hloop⟩ := hp
    rcases (iteration_kept (kept fuel) hloop).of_ok hturn with hgoes | ⟨hregister, -⟩
    · exact ⟨f₀, k, hhost, hgoes.loop⟩
    · cases hhost.symm.trans hregister
  | @slotNative fuel m func n wanted f hslot hdepth =>
    obtain ⟨f₀, k, code, g, -, -, ha, -, -, hargs⟩ := hp
    have hdeeper := Live.deeper ⟨code, ha.ready⟩ hdepth
    refine ⟨hdeeper.raise (Nat.le_max_left _ _) (Nat.max_le.mpr ⟨ha.top_le, hargs n rfl⟩),
      fun v hv => ?_⟩
    exact ha.ready.stack.extract _ _ v (Array.mem_toList_iff.mp hv)
  | base hrun =>
    obtain ⟨⟨code, hready⟩, hargs⟩ := hp
    have hgives := (ensures_run hready _ hargs).of_ok hrun
    exact ⟨hgives.stays.live, hgives.draws⟩
  | @host fuel m i f args hf =>
    obtain ⟨⟨code, hready⟩, hargs⟩ := hp
    exact ⟨⟨code, hready⟩, hready.hosts f (Array.mem_of_getElem? hf) _ args
      (fun v hv => m.heap.has_plain hv) hargs⟩
  | asks =>
    obtain ⟨hm, hdraws⟩ := hp
    cases hdraws with
    | call hcallee hargs => exact ⟨hm, hcallee, hargs⟩
  | @answered fuel m m' callee args results next hcall =>
    obtain ⟨hm, hdraws⟩ := hp
    cases hdraws with
    | call hcallee hargs hnext =>
      have hresults := ((kept fuel).call hm hcallee hargs).of_ok hcall
      exact ⟨hresults.stays.live, hnext _ results (fun v hv => m'.heap.has_plain hv) hresults.has⟩
  | protects =>
    obtain ⟨hm, hdraws⟩ := hp
    cases hdraws with
    | protect hcallee hargs => exact ⟨hm, hcallee, hargs⟩
  | @settled fuel m m' callee args results ok next hcall =>
    obtain ⟨hm, hdraws⟩ := hp
    cases hdraws with
    | protect hcallee hargs hnext =>
      have hresults := ((kept fuel).protectedCall hm hcallee hargs).of_ok hcall
      exact ⟨hresults.stays.live, hnext _ ok results (fun v hv => m'.heap.has_plain hv) hresults.has⟩
  | callNative hdepth =>
    obtain ⟨hm, -, hargs⟩ := hp
    exact ⟨hm.deeper hdepth, hargs⟩
  | @callClosure fuel m m' r args hdepth henter =>
    obtain ⟨hm, hr, hargs⟩ := hp
    obtain ⟨code, hready⟩ := hm.deeper hdepth
    obtain ⟨g, hhost, -, hloop, -⟩ := (ensures_enterFromHost hready hr hargs).of_ok henter
    exact ⟨g, _, hhost, hloop⟩
  | attempt => exact hp

/-- Every moment of a run that begins soundly is sound. -/
theorem Leads.sound (h : p.Leads q) (hp : p.Sound) : q.Sound := by
  induction h with
  | refl => exact hp
  | tail _ hbegins ih => exact hbegins.sound ih

end Moment
end Machine
end LuaMachine
