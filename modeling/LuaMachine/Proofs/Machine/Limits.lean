import LuaMachine.Proofs.Machine.Reached
/-! # Limits

The frames, the slots of the stack and the nesting of native functions are bounded by the options of
a machine at every moment of a run. What would go beyond a bound is an error instead.

* `Machine.Bounded`: the bounds, and what is on the stack below and above its top.
* `Machine.Exceeds`: what would go beyond a bound.
* `Machine.reached_bounded`: every machine is bounded, and stays so when something fails.
-/
set_option autoImplicit false

namespace LuaMachine
namespace Machine

/-- The machine keeps within its options: so many frames, so many native functions inside of each
other, so many slots, of which the innermost frame's window lies below the top; and nothing is above
the top. -/
structure Bounded (options : Options) (m : Machine) : Prop where
  frames : m.frames.size ≤ options.maxFrames
  depth : m.nativeDepth ≤ options.maxNativeDepth
  top : m.top ≤ m.stack.size
  slots : m.stack.size ≤ options.maxSlots
  window : ∀ f, m.frames.back? = some f → f.window ≤ m.top
  clear : ∀ (i : Nat) (v : Value), m.top ≤ i → m.stack[i]? = some v → v = .nil

/-- What is done on the machine would need more frames, slots or levels of native functions than
there may be. -/
inductive Exceeds (m : Machine) : {α : Type} → Exec α → RuntimeError → Prop where
  | slots {size : Nat} (h : m.options.maxSlots < size) : Exceeds m (ensureStack size) .stackOverflow
  | frames {r : Ref} {func : Nat} {argc wanted : Option Nat} {toHost : Bool}
      (h : m.options.maxFrames ≤ m.frames.size) :
      Exceeds m (enter r func argc wanted toHost) .stackOverflow
  | window {r : Ref} {c : Closure} {func : Nat} {argc wanted : Option Nat} {toHost : Bool}
      (hc : m.heap.closure? r = some c)
      (h : m.options.maxSlots < enteredRoom c.prototype func argc) :
      Exceeds m (enter r func argc wanted toHost) .stackOverflow
  | called {r : Ref} {args : List Value} (hr : m.heap.Has (.closure r))
      (hargs : ∀ v ∈ args, m.heap.Has v) (h : Crowded r args m) :
      Exceeds m (enterFromHost r m.top args) .stackOverflow
  | levels {α : Type} {x : Exec α} (h : m.options.maxNativeDepth ≤ m.nativeDepth) :
      Exceeds m (guarded x) .nativeOverflow
  | extra {f : Frame} {i : Instruction} (hi : i.c = 0)
      (h : m.options.maxSlots < f.base + i.a + f.extra.size) : Exceeds m (vararg f i) .stackOverflow
  | results {values : List Value} {func : Nat} {wanted : Option Nat}
      (h : m.options.maxSlots < func + wanted.getD values.length) :
      Exceeds m (deliver values func wanted) .stackOverflow
  | returned {f : Frame} {source : Nat} {count : Option Nat} (hf : m.frames.back? = some f)
      (h : ∀ n, f.wanted.or count = some n → m.options.maxSlots < f.destination + n) :
      Exceeds m (leave source count) .stackOverflow

variable {options : Options} {hosts : Array HostFunction} {m : Machine} {p : Moment}

theorem Live.bounded (h : Live m) : Bounded m.options m := by
  obtain ⟨code, hm⟩ := h
  exact ⟨hm.frameCount, hm.depth, hm.stack.top_le, hm.stack.size_le, hm.frames.window, hm.stack.clear⟩

/-- There are not so many slots. -/
theorem ensures_ensureStack_exceeds {α : Type} {size : Nat} {rest : Unit → Exec α} (hm : Live m)
    (h : m.options.maxSlots < size) : m.Ensures (ensureStack size >>= rest) (fun _ _ => False)
      fun e' m' => e' = .runtime .stackOverflow ∧ Live m' ∧ m'.options = m.options := by
  rw [ensures_bind, ensures_ensureStack]
  exact ⟨fun _ => ⟨rfl, hm, rfl⟩, fun hle => absurd h (Nat.not_lt.mpr hle)⟩

/-- A return closes upvalues before it is known to fail. -/
theorem ensures_leave_exceeds {f : Frame} {source : Nat} {count : Option Nat} (hm : Live m)
    (hf : m.frames.back? = some f)
    (h : ∀ n, f.wanted.or count = some n → m.options.maxSlots < f.destination + n) :
    m.Ensures (leave source count) (fun _ _ => False)
      fun e' m' => e' = .runtime .stackOverflow ∧ Live m' ∧ m'.options = m.options := by
  obtain ⟨code, hready⟩ := hm
  have hfits : ∀ (m' : Machine) n, Closed code f m m' → f.wanted.or count = some n →
      ¬ f.destination + n ≤ m'.options.maxSlots := by
    intro m' n hclosed hn hle
    rw [hclosed.follows.options] at hle
    exact Nat.not_le_of_lt (h n hn) hle
  refine ensures_leave ⟨hready, hf⟩ (fun m' n hclosed hn hle _ => hfits m' n hclosed hn hle)
    (fun m' n g hclosed hn hle _ _ => hfits m' n hclosed hn hle) fun m' hclosed _ => ?_
  exact ⟨rfl, ⟨code, hclosed.active.ready⟩, hclosed.follows.options⟩

/-- A closure is put on the stack with its arguments before it is known that it cannot be entered. -/
theorem ensures_enterFromHost_exceeds {r : Ref} {args : List Value} (hm : Live m)
    (hr : m.heap.Has (.closure r)) (hargs : ∀ v ∈ args, m.heap.Has v) (h : Crowded r args m) :
    m.Ensures (enterFromHost r m.top args) (fun _ _ => False)
      fun e' m' => e' = .runtime .stackOverflow ∧ Live m' ∧ m'.options = m.options := by
  obtain ⟨code, hready⟩ := id hm
  simp only [enterFromHost, ensures_bind, ensures_ensureStack, ensures_setSlots, ensures_setTop]
  refine ⟨fun _ => ⟨trivial, hm, trivial⟩, fun hsize => ?_⟩
  have hcalling : Live (m.calling (.closure r) args) := ⟨code, (hready.calling hr hargs hsize).1⟩
  rw [enter, ensures_bind, ensures_get, ensures_ite]
  refine ⟨fun _ => ⟨rfl, hcalling, rfl⟩, fun hframes => ?_⟩
  obtain ⟨c, hc, hslots⟩ := h.resolve_left hframes
  rw [Heap.closure?_eq hc]
  exact ensures_ensureStack_exceeds (m := m.calling (.closure r) args) hcalling hslots

/-- What would go beyond a bound is an error, and the machine is within its bounds. -/
theorem Exceeds.ensures {α : Type} {x : Exec α} {e : RuntimeError} (h : Exceeds m x e)
    (hm : Live m) : m.Ensures x (fun _ _ => False)
      fun e' m' => e' = .runtime e ∧ Live m' ∧ m'.options = m.options := by
  cases h with
  | slots h =>
    rw [ensures_ensureStack]
    exact ⟨fun _ => ⟨rfl, hm, rfl⟩, fun hle => absurd h (Nat.not_lt.mpr hle)⟩
  | frames h =>
    rw [enter, ensures_bind, ensures_get, if_pos h]
    exact ⟨rfl, hm, rfl⟩
  | window hc h =>
    rw [enter, ensures_bind, ensures_get, ensures_ite]
    refine ⟨fun _ => ⟨rfl, hm, rfl⟩, fun _ => ?_⟩
    rw [hc]
    exact ensures_ensureStack_exceeds hm h
  | called hr hargs h => exact ensures_enterFromHost_exceeds hm hr hargs h
  | levels h => exact ensures_guarded (fun _ => ⟨rfl, hm, rfl⟩) fun hlt => absurd h (Nat.not_le.mpr hlt)
  | extra hi h =>
    rw [vararg, if_pos hi]
    exact ensures_ensureStack_exceeds hm h
  | results h => exact ensures_ensureStack_exceeds hm h
  | returned hf h => exact ensures_leave_exceeds hm hf h

/-- Between requests and at every moment of a run the machine is within its bounds, and a loop has a
frame whose instructions it executes. What would go beyond a bound is a runtime error, after which
the machine is still within them. -/
theorem reached_bounded (hhosts : ∀ f ∈ hosts, HostFunction.Honest f) :
    (∀ m, Served options hosts m → Bounded options m) ∧
    ∀ p, Reached options hosts p →
      (p.task = .loop → ∃ f, p.machine.frames.back? = some f) ∧
      ∀ m, p.Meets m → Bounded options m ∧
        ∀ (α : Type) (x : Exec α) (e : RuntimeError), Exceeds m x e →
          ∃ m', x.run m = .error (.runtime e) m' ∧ Bounded options m' := by
  refine ⟨fun m hm => ?_, fun p hp => ⟨fun hloop => ?_, fun m hmeets => ?_⟩⟩
  · have hbounded := (hm.live hhosts).bounded
    rw [hm.made.1] at hbounded
    exact hbounded
  · have hsound := hp.sound hhosts
    obtain ⟨fuel, task, m⟩ := p
    cases hloop
    obtain ⟨f₀, k, -, hlooping⟩ := hsound
    obtain ⟨code, f, ha⟩ := hlooping.active
    exact ⟨f, ha.back⟩
  · have hlive := (hp.sound hhosts).meets hmeets
    have hoptions : m.options = options := hmeets.ages.options.trans hp.made.1
    refine ⟨hoptions ▸ hlive.bounded, fun α x e hexceeds => ?_⟩
    rcases ensures_iff_run.mp (hexceeds.ensures hlive) with ⟨_, _, _, hfalse⟩ |
      ⟨_, m', hrun, rfl, hlive', hoptions'⟩
    · exact hfalse.elim
    · refine ⟨m', hrun, ?_⟩
      have hbounded := hlive'.bounded
      rw [hoptions', hoptions] at hbounded
      exact hbounded

/-- The loop of a program that does nothing. -/
theorem reached_bounded_return : (∀ f ∈ (#[] : Array HostFunction), HostFunction.Honest f) ∧
    ∃ p, Reached {} #[] p ∧ p.task = .loop ∧ p.Meets p.machine ∧ Bounded {} p.machine ∧
      (∃ f, p.machine.frames.back? = some f) ∧
      Exceeds p.machine (ensureStack 1000001) .stackOverflow ∧
      ∃ m', (ensureStack 1000001).run p.machine = .error (.runtime .stackOverflow) m' ∧
        Bounded {} m' := by
  have hhosts : ∀ f ∈ (#[] : Array HostFunction), HostFunction.Honest f := by simp
  obtain ⟨p, hp, hloop⟩ := exists_reached_loop
  obtain ⟨hframe, hmeets⟩ := (reached_bounded hhosts).2 p hp
  obtain ⟨hbounded, hexceeds⟩ := hmeets p.machine .now
  have hover : Exceeds p.machine (ensureStack 1000001) .stackOverflow := by
    refine .slots ?_
    rw [hp.made.1]
    exact Nat.lt_succ_self _
  exact ⟨hhosts, p, hp, hloop, .now, hbounded, hframe hloop, hover, hexceeds _ _ _ hover⟩

end Machine
end LuaMachine
