import LuaMachine.Proofs.Machine.Beginning
/-! # Runs of a sound machine

Whatever a run comes to, the machine stays sound, and what was there before a call is there after
it. The functions of a run call each other, each with less fuel, and so one induction on the fuel
goes over all of them.

* `Machine.iteration`: one instruction of a loop, with the call that it asks for.
* `Machine.Looping`: a frame still runs, below the frames of its calls.
* `Machine.Returned`, `Machine.Falls`: the end of a loop, and the end of a failed call.
* `Machine.Kept`, `Machine.kept`: what each function of a run ensures.
* `Machine.calls_unwind`: after a call nothing of it is left.
-/
set_option autoImplicit false

namespace LuaMachine

/-- A script or the embedder gets the fault as an error value. -/
def Fault.Caught : Fault → Prop
  | .script _ _ | .runtime _ | .outOfMemory => True
  | _ => False

namespace Machine

variable {code : Nat → Prototype} {f f₀ : Frame} {m m' m'' : Machine} {k limit : Nat}

/-! ## Loops -/

/-- One instruction, and the call that it asks for. -/
def turn (fuel : Nat) (i : Instruction) : Exec Outcome := do
  match ← step i with
  | .call func argc wanted =>
    callSlot fuel func argc wanted
    return .next
  | outcome => return outcome

/-- The next instruction of the innermost frame, from fetching it to what comes of it. -/
def iteration (fuel : Nat) : Exec Outcome := do
  if (← get).options.trace then trace
  let i ← fetch
  located (turn fuel i)

/-- The part of an iteration in which the instruction is found. -/
def fetching : Exec Instruction := do
  if (← get).options.trace then trace
  fetch

theorem iteration_eq (fuel : Nat) : iteration fuel = (do
    let i ← fetching
    located (turn fuel i)) := by
  rw [iteration, fetching]
  simp only [bind_assoc]
  refine bind_congr fun m => ?_
  split
  · simp only [bind_assoc]
  · rfl

theorem execute_succ (fuel : Nat) : execute (fuel + 1) = (do
    match ← iteration fuel with
    | .finished count => return count
    | _ => execute fuel) := by
  rw [execute, iteration]
  simp only [bind_assoc]
  refine bind_congr fun m => ?_
  split
  · simp only [bind_assoc]
    rfl
  · simp only [bind_assoc]
    rfl

/-- The frame `f₀` is number `k` and still runs, perhaps at another instruction, and all frames
above it belong to calls that it has made, with no native function between. -/
structure Looping (f₀ : Frame) (k : Nat) (m : Machine) : Prop where
  live : Live m
  first : ∃ f, m.frames[k]? = some f ∧ f₀.Same f
  above : ∀ i f, k < i → m.frames[i]? = some f → f.toHost = false

/-- The loop goes on with a later machine. -/
structure Goes (f₀ : Frame) (k : Nat) (m m' : Machine) : Prop where
  loop : Looping f₀ k m'
  follows : m.Follows k f₀.destination m'

/-- The loop has ended with so many results, which lie at the top of the stack. -/
structure Returned (k limit : Nat) (m : Machine) (count : Nat) (m' : Machine) : Prop where
  live : Live m'
  follows : m.Follows k limit m'
  size : m'.frames.size = k
  top : m'.top = limit + count
  opened : ∀ u ∈ m'.openUpvalues, u.1 < limit

/-- A fault, after which the machine is still sound. -/
structure Falls (k limit : Nat) (m : Machine) (e : Fault) (m' : Machine) : Prop where
  live : Live m'
  follows : m.Follows k limit m'
  held : e.Held m'.heap.Has

/-- A native function has results. -/
structure HasResults (m : Machine) (results : List Value) (m' : Machine) : Prop where
  stays : Stays m m'
  has : ∀ v ∈ results, m'.heap.Has v

theorem Goes.trans (h : Goes f₀ k m m') (h' : Goes f₀ k m' m'') : Goes f₀ k m m'' :=
  ⟨h'.loop, h.follows.trans h'.follows⟩

theorem Falls.after {e : Fault} (h : m.Follows k limit m') (h' : Falls k limit m' e m'') :
    Falls k limit m e m'' :=
  ⟨h'.live, h.trans h'.follows, h'.held⟩

theorem Returned.after {n : Nat} (h : m.Follows k limit m') (h' : Returned k limit m' n m'') :
    Returned k limit m n m'' :=
  ⟨h'.live, h.trans h'.follows, h'.size, h'.top, h'.opened⟩

namespace Looping

theorem lt_size (h : Looping f₀ k m) : k < m.frames.size := by
  obtain ⟨f, hf, -⟩ := h.first
  exact (Array.getElem?_eq_some_iff.mp hf).1

/-- All frames from the first one on lie behind the slot of its results. -/
theorem limit_le (h : Looping f₀ k m) {i : Nat} (hi : k ≤ i) (hf : m.frames[i]? = some f) :
    f₀.destination ≤ f.destination := by
  obtain ⟨code, hm⟩ := h.live
  obtain ⟨g, hg, hsame⟩ := h.first
  have hle := hm.frames.base_le hi hg hf
  have hbase := (hm.frames.each g (Array.mem_of_getElem? hg)).base
  have hbase' := (hm.frames.each f (Array.mem_of_getElem? hf)).base
  have hdestination : g.destination = f₀.destination := by rw [hsame]
  omega

theorem follows_refl (h : Looping f₀ k m) : m.Follows k f₀.destination m :=
  .refl (Nat.le_of_lt h.lt_size) fun _ _ hi hf => h.limit_le hi hf

/-- There is an innermost frame. -/
theorem active (h : Looping f₀ k m) : ∃ code f, Active code f m := by
  obtain ⟨code, hm⟩ := h.live
  have hlt := h.lt_size
  exact ⟨code, m.frames[m.frames.size - 1], hm, Array.getElem?_eq_getElem (by omega)⟩

/-- What leaves alone all below the innermost frame leaves alone all below the loop. -/
theorem widen (h : Looping f₀ k m) (ha : Active code f m)
    (hf : m.Follows (m.frames.size - 1) f.destination m') : m.Follows k f₀.destination m' :=
  hf.widen (Nat.le_sub_one_of_lt h.lt_size) (h.limit_le (Nat.le_sub_one_of_lt h.lt_size) ha.frame_get)
    fun _ _ hi hg => h.limit_le hi hg

/-- The loop goes on if the innermost frame works. -/
theorem goes (h : Looping f₀ k m) (ha : Active code f m) (hw : Works code f m m') :
    Goes f₀ k m m' := by
  obtain ⟨f', hactive, hsame⟩ := hw.active
  have hbelow : ∀ i, i ≠ m.frames.size - 1 → m'.frames[i]? = m.frames[i]? := by
    intro i hi
    by_cases hlt : i < m.frames.size - 1
    · exact hw.follows.frames i hlt
    · have hcount := hw.count
      rw [Array.getElem?_eq_none (by omega), Array.getElem?_eq_none (by omega)]
  have hlast := hactive.frame_get
  rw [hw.count] at hlast
  refine ⟨⟨⟨code, hactive.ready⟩, ?_, fun i g hi hg => ?_⟩, h.widen ha hw.follows⟩
  · obtain ⟨g, hg, hfirst⟩ := h.first
    by_cases hk : k = m.frames.size - 1
    · subst hk
      cases ha.frame_get.symm.trans hg
      exact ⟨f', hlast, hfirst.trans hsame⟩
    · exact ⟨g, (hbelow k hk).trans hg, hfirst⟩
  · by_cases hi' : i = m.frames.size - 1
    · subst hi'
      cases hlast.symm.trans hg
      rw [hsame]
      exact h.above _ f hi ha.frame_get
    · exact h.above i g hi ((hbelow i hi').symm.trans hg)

/-- The frames of the loop are the same, whatever else has changed. -/
theorem same_frames (h : Looping f₀ k m) (hm : Live m') (hframes : m'.frames = m.frames) :
    Looping f₀ k m' where
  live := hm
  first := hframes ▸ h.first
  above := hframes ▸ h.above

/-- What leaves alone all that there is leaves alone all below the loop. -/
theorem within (h : Looping f₀ k m) (hf : m.Follows m.frames.size m.top m') :
    m.Follows k f₀.destination m' := by
  obtain ⟨code, f, ha⟩ := h.active
  have hlimit := h.limit_le (Nat.le_sub_one_of_lt h.lt_size) ha.frame_get
  have hbase := ha.base_eq
  have hwindow : f.base + f.prototype.registers ≤ m.top := ha.window_le_top
  exact hf.widen (Nat.le_of_lt h.lt_size) (by omega) fun _ _ hi hg => h.limit_le hi hg

end Looping

/-! ## Nesting -/

def deeper (m : Machine) : Machine := { m with nativeDepth := m.nativeDepth + 1 }

def shallower (m : Machine) : Machine := { m with nativeDepth := m.nativeDepth - 1 }

theorem ensures_guarded {α : Type} {x : Exec α} {Q : α → Machine → Prop}
    {E : Fault → Machine → Prop} (hoverflow : m.options.maxNativeDepth ≤ m.nativeDepth → E (.runtime .nativeOverflow) m)
    (hx : m.nativeDepth < m.options.maxNativeDepth →
      m.deeper.Ensures x (fun a m' => Q a m'.shallower) fun e m' => E e m'.shallower) :
    m.Ensures (guarded x) Q E := by
  simp only [guarded, ensures_bind, ensures_get, ensures_ite, ensures_raise, ensures_modify,
    ensures_tryCatch, ensures_throw, ensures_pure]
  exact ⟨hoverflow, fun hlt => hx (Nat.lt_of_not_le hlt)⟩

theorem Live.deeper (h : Live m) (hlt : m.nativeDepth < m.options.maxNativeDepth) :
    Live m.deeper := by
  obtain ⟨code, hm⟩ := h
  exact ⟨code, { hm with depth := hlt }, hm.idle⟩

theorem Live.shallower (h : Live m) : Live m.shallower := by
  obtain ⟨code, hm⟩ := h
  exact ⟨code, { hm with depth := Nat.le_trans (Nat.sub_le _ _) hm.depth }, hm.idle⟩

theorem Follows.shallower (h : m.deeper.Follows k limit m') : m.Follows k limit m'.shallower := by
  have hdepth : m'.nativeDepth = m.nativeDepth + 1 := h.depth
  refine { h with depth := ?_ }
  show m'.nativeDepth - 1 = m.nativeDepth
  omega

theorem Falls.shallower {e : Fault} (h : Falls k limit m.deeper e m') :
    Falls k limit m e m'.shallower :=
  ⟨h.live.shallower, h.follows.shallower, h.held⟩

theorem HasResults.shallower {results : List Value} (h : HasResults m.deeper results m') :
    HasResults m results m'.shallower :=
  ⟨⟨h.stays.live.shallower, h.stays.restores.follows.shallower, h.stays.restores.frames,
    h.stays.restores.top, h.stays.restores.opened⟩, h.has⟩

theorem Goes.shallower (h : Goes f₀ k m.deeper m') : Goes f₀ k m m'.shallower :=
  ⟨⟨h.loop.live.shallower, h.loop.first, h.loop.above⟩, h.follows.shallower⟩

/-! ## The functions of a run -/

/-- What each function of a run ensures when it has so much fuel. -/
structure Kept (fuel : Nat) : Prop where
  execute : ∀ {f₀ : Frame} {k : Nat} {m : Machine}, Looping f₀ k m → f₀.toHost = true →
    m.Ensures (execute fuel) (Returned k f₀.destination m) (Falls k f₀.destination m)
  callSlot : ∀ {f₀ : Frame} {k : Nat} {m : Machine} {code : Nat → Prototype} {f : Frame}
    {func : Nat} {argc wanted : Option Nat}, Looping f₀ k m → Active code f m →
    Asks f m (.call func argc wanted) →
    m.Ensures (callSlot fuel func argc wanted) (fun _ => Goes f₀ k m) (Falls k f₀.destination m)
  runNative : ∀ {m : Machine} {f : Native} {args : List Value}, Live m →
    (∀ v ∈ args, m.heap.Has v) →
    m.Ensures (runNative fuel f args) (HasResults m) (Falls m.frames.size m.top m)
  interpret : ∀ {m : Machine} {next : NativeStep}, Live m → next.Draws m.heap.Has →
    m.Ensures (interpret fuel next) (HasResults m) (Falls m.frames.size m.top m)
  call : ∀ {m : Machine} {callee : Value} {args : List Value}, Live m → m.heap.Has callee →
    (∀ v ∈ args, m.heap.Has v) →
    m.Ensures (call fuel callee args) (HasResults m) (Falls m.frames.size m.top m)
  protectedCall : ∀ {m : Machine} {callee : Value} {args : List Value}, Live m →
    m.heap.Has callee → (∀ v ∈ args, m.heap.Has v) →
    m.Ensures (protectedCall fuel callee args) (fun r => HasResults m r.2)
      fun e m' => ¬ e.Caught ∧ Falls m.frames.size m.top m e m'

theorem Live.falls {e : Fault} (h : Live m) (he : e.Held m.heap.Has) :
    Falls m.frames.size m.top m e m :=
  ⟨h, .here m m.top, he⟩

theorem Looping.falls {e : Fault} (h : Looping f₀ k m) (he : e.Held m.heap.Has) :
    Falls k f₀.destination m e m :=
  ⟨h.live, h.follows_refl, he⟩

theorem kept_zero : Kept 0 where
  execute h _ := h.falls trivial
  callSlot h _ _ := h.falls trivial
  runNative h _ := h.falls trivial
  interpret h hdraws := by
    cases hdraws with
    | done hresults => exact ⟨⟨h, .refl _⟩, hresults⟩
    | fail hheld => exact h.falls hheld
    | call => exact h.falls trivial
    | protect => exact h.falls trivial
  call h _ _ := h.falls trivial
  protectedCall h _ _ := ⟨id, h.falls trivial⟩

/-- A native function goes on after something that has left all as it was. -/
theorem Stays.andThen {x : Exec (List Value)} (h : Stays m m')
    (hx : m'.Ensures x (HasResults m') (Falls m'.frames.size m'.top m')) :
    m'.Ensures x (HasResults m) (Falls m.frames.size m.top m) := by
  refine hx.mono (fun results m'' hy => ?_) fun e m'' hfalls => ?_
  · exact ⟨⟨hy.stays.live, h.restores.trans hy.stays.restores⟩, hy.has⟩
  · rw [h.restores.frames, h.restores.top] at hfalls
    exact hfalls.after h.restores.follows

section steps

variable {fuel : Nat}

theorem interpret_kept (h : Kept fuel) {next : NativeStep} (hm : Live m)
    (hdraws : next.Draws m.heap.Has) :
    m.Ensures (interpret (fuel + 1) next) (HasResults m) (Falls m.frames.size m.top m) := by
  cases hdraws with
  | done hresults => exact ⟨⟨hm, .refl _⟩, hresults⟩
  | fail hheld => exact hm.falls hheld
  | call hcallee hargs hnext =>
    rw [interpret, ensures_bind]
    refine (h.call hm hcallee hargs).mono_ok fun results m' hy => ?_
    exact hy.stays.andThen (h.interpret hy.stays.live
      (hnext _ results (fun v hv => m'.heap.has_plain hv) hy.has))
  | protect hcallee hargs hnext =>
    rw [interpret, ensures_bind]
    refine (h.protectedCall hm hcallee hargs).mono (fun r m' hy => ?_) fun e m' hfalls => hfalls.2
    exact hy.stays.andThen (h.interpret hy.stays.live
      (hnext _ r.1 r.2 (fun v hv => m'.heap.has_plain hv) hy.has))

theorem runNative_kept (h : Kept fuel) {f : Native} {args : List Value} (hm : Live m)
    (hargs : ∀ v ∈ args, m.heap.Has v) :
    m.Ensures (runNative (fuel + 1) f args) (HasResults m) (Falls m.frames.size m.top m) := by
  cases f with
  | base f =>
    obtain ⟨code, hready⟩ := hm
    rw [runNative, ensures_bind]
    refine (ensures_run hready f hargs).mono (fun next m' hgives => ?_) fun e m' hstops => ?_
    · exact hgives.stays.andThen (h.interpret hgives.stays.live hgives.draws)
    · exact ⟨hstops.stays.live, hstops.stays.restores.follows, hstops.held⟩
  | host i =>
    simp only [runNative, ensures_bind, ensures_get]
    split
    next f hf =>
      obtain ⟨code, hready⟩ := hm
      have hhonest := hready.hosts f (Array.mem_of_getElem? hf)
      exact h.interpret ⟨code, hready⟩ (hhonest _ args (fun v hv => m.heap.has_plain hv) hargs)
    next => exact hm.falls trivial

theorem ensures_positioned (hm : Ready code m) (error : RuntimeError)
    {Q : String → Machine → Prop} {E : Fault → Machine → Prop}
    (hQ : ∀ p text, Ready code (m.withMemory p) → p.heap.Has (.str text) →
      Q text (m.withMemory p)) : m.Ensures (positioned error) Q E := by
  simp only [positioned, ensures_bind, ensures_get, ensures_pure]
  exact ensures_newText hm.toSound fun p hp _ htext => hQ p _ ⟨hp, hm.idle⟩ htext

/-- What a failed call left behind is dropped, and a value is kept. -/
theorem unwind_kept {v : Value} {E : Fault → Machine → Prop} (hm : Live m) (hlive : Live m')
    (hfollows : m.Follows m.frames.size m.top m') (hv : m'.heap.Has v) :
    m'.Ensures (do unwind m.frames.size m.top; return v) (fun v m'' => HasResults m [v] m'') E := by
  obtain ⟨code₀, h₀⟩ := hm
  obtain ⟨code, hready⟩ := hlive
  rw [ensures_bind]
  refine ensures_unwind h₀ hready hfollows fun m'' hm'' hr hgrows => ?_
  exact ⟨⟨⟨code, hm''⟩, hr⟩, List.forall_mem_singleton.mpr (hgrows.has hv)⟩

/-- A failed call is undone. -/
theorem recover_caught {e : Fault} {E : Fault → Machine → Prop} (hm : Live m)
    (hfalls : Falls m.frames.size m.top m e m') (he : e.Caught) :
    m'.Ensures (recover m.frames.size m.top e) (fun v m'' => HasResults m [v] m'') E := by
  cases e with
  | script v text => exact unwind_kept hm hfalls.live hfalls.follows hfalls.held
  | runtime error =>
    obtain ⟨code, hready⟩ := hfalls.live
    simp only [recover]
    rw [ensures_bind]
    refine ensures_positioned hready error fun p text hp htext => ?_
    exact unwind_kept hm ⟨code, hp⟩ hfalls.follows.withMemory htext
  | outOfMemory =>
    refine unwind_kept hm hfalls.live hfalls.follows ?_
    obtain ⟨code, hready⟩ := hfalls.live
    exact hready.memoryText
  | defect | outOfRange | outOfSteps => cases he

/-- A fault that nobody catches goes on as it is. -/
theorem recover_uncaught {e : Fault} (he : ¬ e.Caught) (frameCount top : Nat) :
    recover frameCount top e = throw e := by
  cases e with
  | script | runtime | outOfMemory => exact absurd trivial he
  | defect | outOfRange | outOfSteps => rfl

theorem recover_kept {e : Fault} (hm : Live m) (hfalls : Falls m.frames.size m.top m e m') :
    m'.Ensures (recover m.frames.size m.top e) (fun v m'' => HasResults m [v] m'')
      fun e' m'' => ¬ e'.Caught ∧ Falls m.frames.size m.top m e' m'' := by
  by_cases he : e.Caught
  · exact recover_caught hm hfalls he
  · rw [recover_uncaught he]
    exact ⟨he, hfalls⟩

theorem protectedCall_kept (h : Kept fuel) {callee : Value} {args : List Value} (hm : Live m)
    (hcallee : m.heap.Has callee) (hargs : ∀ v ∈ args, m.heap.Has v) :
    m.Ensures (protectedCall (fuel + 1) callee args) (fun r => HasResults m r.2)
      fun e m' => ¬ e.Caught ∧ Falls m.frames.size m.top m e m' := by
  rw [protectedCall, ensures_bind, ensures_get]
  simp only [ensures_tryCatch, ensures_bind, ensures_pure]
  refine (h.call hm hcallee hargs).mono (fun _ _ hy => hy) fun e m' hfalls => ?_
  exact recover_kept hm hfalls

/-- More slots come into use, in which nothing is. -/
theorem Live.raise (hm : Live m) {top : Nat} (htop : m.top ≤ top) (hsize : top ≤ m.stack.size) :
    Live { m with top := top } := by
  obtain ⟨code, hready⟩ := hm
  refine ⟨code, hready.toSound.withStack (hready.stack.raise _ htop hsize) (Nat.le_refl _)
    (fun g hg => Nat.le_trans (hready.frames.window g hg) htop)
    (fun u hu => Nat.lt_of_lt_of_le (hready.opened.below u hu) htop), hready.idle⟩

/-- A native function is called from the innermost frame. -/
theorem callNative_kept (h : Kept fuel) {native : Native} {func n : Nat} {wanted : Option Nat}
    (hloop : Looping f₀ k m) (ha : Active code f m) (hfunc : f.base ≤ func)
    (hargs : func + 1 + n ≤ m.stack.size) :
    m.Ensures (do
      let args ← slots (func + 1) n
      raiseTop (func + 1 + n)
      let results ← runNative fuel native args.toList
      deliver results func wanted) (fun _ => Goes f₀ k m) (Falls k f₀.destination m) := by
  simp only [ensures_bind, ensures_slots, ensures_raiseTop]
  have hraised : Live { m with top := max m.top (func + 1 + n) } :=
    Live.raise ⟨code, ha.ready⟩ (Nat.le_max_left _ _) (Nat.max_le.mpr ⟨ha.top_le, hargs⟩)
  have hloop' : Looping f₀ k { m with top := max m.top (func + 1 + n) } :=
    hloop.same_frames hraised rfl
  have hfollows : m.Follows k f₀.destination { m with top := max m.top (func + 1 + n) } :=
    { hloop.follows_refl with }
  refine (h.runNative hraised fun v hv => ?_).mono (fun results m' hy => ?_) fun e m' hfalls => ?_
  · exact ha.ready.stack.extract _ _ v (Array.mem_toList_iff.mp hv)
  · have hloop'' := hloop'.same_frames hy.stays.live hy.stays.restores.frames
    have hrest := hfollows.trans (hloop'.within hy.stays.restores.follows)
    obtain ⟨code', f', ha'⟩ := hloop''.active
    have hback : m'.frames.back? = some f := by
      rw [hy.stays.restores.frames]
      exact ha.back
    cases ha'.back.symm.trans hback
    refine ensures_deliver results func wanted (fun hsize => ?_)
      fun _ => ⟨hy.stays.live, hrest, trivial⟩
    have hgoes := hloop''.goes ha' (ha'.works_deliver hy.has hfunc hsize)
    exact ⟨hgoes.loop, hrest.trans hgoes.follows⟩
  · exact .after hfollows ⟨hfalls.live, hloop'.within hfalls.follows, hfalls.held⟩

theorem callSlot_kept (h : Kept fuel) {func : Nat} {argc wanted : Option Nat}
    (hloop : Looping f₀ k m) (ha : Active code f m) (hasks : Asks f m (.call func argc wanted)) :
    m.Ensures (callSlot (fuel + 1) func argc wanted) (fun _ => Goes f₀ k m)
      (Falls k f₀.destination m) := by
  obtain ⟨hbase, hwindow, hargs⟩ := hasks
  have hlimit := hloop.limit_le (Nat.le_sub_one_of_lt hloop.lt_size) ha.frame_get
  have hdestination := ha.base_eq
  have hheld := ha.register_has func
  rw [callSlot, ensures_bind, ensures_slot]
  split
  next r hr =>
    rw [hr] at hheld
    obtain ⟨c, hc⟩ := hheld
    have hcallable : m.Callable func false := by
      refine ⟨fun g hg => ?_, Bool.noConfusion, fun _ g hg => ?_, Bool.noConfusion⟩
      · cases ha.back.symm.trans hg
        exact hbase
      · cases ha.back.symm.trans hg
        exact hwindow
    refine ensures_enter ha.ready hc hr hcallable (fun p pool hready => ?_)
      (fun _ => hloop.falls trivial) fun p size _ hready => ⟨⟨code, hready⟩, ?_, trivial⟩
    · refine ⟨⟨⟨code, hready⟩, ?_, fun i g hi hg => ?_⟩,
        hloop.follows_refl.withMemory.entered (by omega)⟩
      · obtain ⟨g, hg, hsame⟩ := hloop.first
        refine ⟨g, ?_, hsame⟩
        show (m.frames.push _)[k]? = some g
        rw [Array.getElem?_push, if_neg (Nat.ne_of_lt hloop.lt_size), hg]
      · rcases getElem?_push_some hg with hg | ⟨-, rfl⟩
        · exact hloop.above i g hi hg
        · rfl
    · refine hloop.follows_refl.withMemory.withStack ?_ fun i _ => .inl (grown_getD size m.stack i)
      show m.stack.size ≤ _
      rw [grown_size]
      exact Nat.le_max_right _ _
  next native hnative =>
    refine ensures_guarded (fun _ => hloop.falls trivial) fun hdepth => ?_
    have hdeeper := Live.deeper ⟨code, ha.ready⟩ hdepth
    have hloop' : Looping f₀ k m.deeper := hloop.same_frames hdeeper rfl
    split
    next => exact (hloop'.falls (e := .outOfMemory) trivial).shallower
    next n =>
      obtain ⟨code', f', ha'⟩ := hloop'.active
      cases ha'.back.symm.trans ha.back
      exact (callNative_kept h hloop' ha' hbase (hargs n rfl)).mono (fun _ _ hg => hg.shallower)
        fun _ _ hfalls => hfalls.shallower
  next => exact hloop.falls trivial

/-- The machine in which a native function has put a function and its arguments on the stack. -/
def calling (callee : Value) (args : List Value) (m : Machine) : Machine :=
  { m with
    stack := putSlots m.top (callee :: args) (grown (m.top + 1 + args.length) m.stack)
    top := m.top + 1 + args.length }

theorem Ready.calling (hm : Ready code m) {callee : Value} {args : List Value}
    (hcallee : m.heap.Has callee) (hargs : ∀ v ∈ args, m.heap.Has v)
    (hsize : m.top + 1 + args.length ≤ m.options.maxSlots) :
    Ready code (m.calling callee args) ∧ m.Follows m.frames.size m.top (m.calling callee args) := by
  have hvs : ∀ v ∈ callee :: args, m.heap.Has v := List.forall_mem_cons.mpr ⟨hcallee, hargs⟩
  have hgrown := (hm.stack.grown hsize).raise (m.top + 1 + args.length) (by omega) (by
    rw [grown_size]
    exact Nat.le_max_left _ _)
  have hfit : ∀ n < (callee :: args).length, m.top + n < m.top + 1 + args.length := by
    intro n hn
    rw [List.length_cons] at hn
    omega
  have hput := hgrown.put hfit hvs
  have hwrites := writes_putSlots m.top (callee :: args)
    (grown (m.top + 1 + args.length) m.stack) hvs
  have hstackSize : m.stack.size ≤
      (putSlots m.top (callee :: args) (grown (m.top + 1 + args.length) m.stack)).size := by
    rw [hwrites.size, grown_size]
    exact Nat.le_max_right _ _
  refine ⟨⟨hm.toSound.withStack hput hstackSize (fun g hg => ?_) fun u hu => ?_, hm.idle⟩,
    (Follows.here m m.top).withStack hstackSize fun i hi => .inl ?_⟩
  · have := hm.frames.window g hg
    omega
  · have := hm.opened.below u hu
    omega
  · rw [hwrites.getD hi, grown_getD]

theorem calling_slot (callee : Value) (args : List Value) (m : Machine) :
    (m.calling callee args).stack.getD m.top .nil = callee := by
  have hlen : m.top + (callee :: args).length ≤ (grown (m.top + 1 + args.length) m.stack).size := by
    rw [grown_size, List.length_cons]
    omega
  show (putSlots m.top (callee :: args) _).getD m.top .nil = _
  rw [Array.getD_eq_getD_getElem?, putSlots_getElem? _ _ _ _ hlen, if_pos, Nat.sub_self]
  · rfl
  · rw [List.length_cons]
    omega

theorem Ready.callable (hm : Ready code m) (callee : Value) (args : List Value) :
    (m.calling callee args).Callable m.top true := by
  refine ⟨fun g hg => ?_, fun _ g hg => hm.frames.window g hg, Bool.noConfusion,
    fun _ u hu => Nat.ne_of_lt (hm.opened.below u hu)⟩
  exact Nat.le_trans (Nat.le_add_right _ _) (hm.frames.window g hg)

/-- A closure is put on the stack with its arguments and entered. -/
def enterFromHost (r : Ref) (func : Nat) (args : List Value) : Exec Unit := do
  ensureStack (func + 1 + args.length)
  setSlots func (.closure r :: args)
  setTop (func + 1 + args.length)
  enter r func (some args.length) none true

/-- There are too many frames to enter the closure, or not enough slots for it. -/
def Crowded (r : Ref) (args : List Value) (m : Machine) : Prop :=
  m.options.maxFrames ≤ m.frames.size ∨ ∃ c, m.heap.cells[r]? = some (.closure c) ∧
    m.options.maxSlots < enteredRoom c.prototype m.top (some args.length)

/-- A loop begins above all that there is. -/
theorem ensures_enterFromHost {r : Ref} {args : List Value} (hready : Ready code m)
    (hr : m.heap.Has (.closure r)) (hargs : ∀ v ∈ args, m.heap.Has v) :
    m.Ensures (enterFromHost r m.top args)
      (fun _ m' => ∃ g, g.toHost = true ∧ g.destination = m.top ∧ Looping g m.frames.size m' ∧
        m.Follows m.frames.size m.top m')
      fun e m' => e = .runtime .stackOverflow ∧ Crowded r args m ∧
        Falls m.frames.size m.top m e m' := by
  obtain ⟨c, hc⟩ := id hr
  have hroom : m.top + 1 + args.length ≤ enteredRoom c.prototype m.top (some args.length) :=
    Nat.le_max_right _ _
  simp only [enterFromHost, ensures_bind, ensures_ensureStack, ensures_setSlots, ensures_setTop]
  refine ⟨fun hsize => ?_, fun hsize => ?_⟩
  · exact ⟨trivial, .inr ⟨c, hc, Nat.lt_of_lt_of_le hsize hroom⟩, Live.falls ⟨code, hready⟩ trivial⟩
  obtain ⟨hcalling, hfollows⟩ := hready.calling hr hargs hsize
  refine ensures_enter hcalling hc (calling_slot _ _ _) (hready.callable _ _)
    (fun p pool hentered => ?_)
    (fun hover => ⟨rfl, hover.imp_right fun hslots => ⟨c, hc, hslots⟩, ⟨code, hcalling⟩, hfollows,
      trivial⟩) fun _ _ hnone => by cases hnone
  refine ⟨enteredFrame r c pool m.top none (extraArguments c.prototype m.top
      (some args.length) (m.calling (.closure r) args).stack) true, rfl, rfl, ?_,
    hfollows.withMemory.entered (Nat.le_refl m.top)⟩
  refine ⟨⟨code, hentered⟩, ⟨_, Array.getElem?_push_size, .refl _⟩, fun i g hi hg => ?_⟩
  obtain ⟨hlt, -⟩ := Array.getElem?_eq_some_iff.mp hg
  have hlt : i < (m.frames.push _).size := hlt
  rw [Array.size_push] at hlt
  omega

/-- The results of a loop are taken from the top of the stack. -/
def takeResults (func count : Nat) : Exec (List Value) := do
  let results ← slots func count
  clearStack func (← get).top
  setTop func
  return results.toList

theorem takeResults_kept {limit count : Nat} (hm : Live m) (hlimit : limit = m.top)
    (hret : Returned m.frames.size limit m count m') :
    m'.Ensures (takeResults limit count) (HasResults m) (Falls m.frames.size m.top m) := by
  subst hlimit
  obtain ⟨code, hready⟩ := hm
  obtain ⟨code', hready'⟩ := hret.live
  simp only [takeResults, ensures_bind, ensures_get, ensures_slots, ensures_clearStack,
    ensures_setTop, ensures_pure]
  have htop := Nat.le_trans hready.stack.top_le hret.follows.stack
  have hfill := writes_fillNil m'.heap.has_nil (min m'.top m'.stack.size - m.top) m.top m'.stack
  have hdone : m.Follows m.frames.size m.top { m' with
      stack := fillNil (min m'.top m'.stack.size - m.top) m.top m'.stack, top := m.top } :=
    hret.follows.write hfill (Nat.le_refl _)
  have hrestores := hdone.restores hready.opened hready'.opened.sorted hret.size rfl hret.opened
  refine ⟨⟨⟨code', hready'.toSound.withStack (hready'.stack.lower htop) ?_ (fun g hg => ?_)
    hret.opened, hready'.idle⟩, hrestores⟩, fun v hv => ?_⟩
  · exact Nat.le_of_eq hfill.size.symm
  · have hg : m'.frames.back? = some g := hg
    rw [show m'.frames = m.frames from hrestores.frames] at hg
    exact hready.frames.window g hg
  · exact hready'.stack.extract _ _ v (Array.mem_toList_iff.mp hv)

theorem call_closure (fuel : Nat) (r : Ref) (args : List Value) :
    call (fuel + 1) (.closure r) args = guarded (do
      let func := (← get).top
      enterFromHost r func args
      let count ← execute fuel
      takeResults func count) := by
  rw [call]
  simp only [enterFromHost, takeResults, bind_assoc]

/-- A closure is called from a native function. -/
theorem callClosure_kept (h : Kept fuel) {r : Ref} {args : List Value} (hm : Live m)
    (hr : m.heap.Has (.closure r)) (hargs : ∀ v ∈ args, m.heap.Has v) :
    m.Ensures (do
      let func := (← get).top
      enterFromHost r func args
      let count ← execute fuel
      takeResults func count) (HasResults m) (Falls m.frames.size m.top m) := by
  obtain ⟨code, hready⟩ := hm
  simp only [ensures_bind, ensures_get]
  refine (ensures_enterFromHost hready hr hargs).mono ?_ fun e m' hfalls => hfalls.2.2
  rintro _ m' ⟨g, hhost, hlimit, hloop, hfollows⟩
  refine (h.execute hloop hhost).mono (fun count m'' hret => ?_) fun e m'' hfalls => ?_
  · rw [← hlimit] at hfollows ⊢
    exact takeResults_kept ⟨code, hready⟩ hlimit (hret.after hfollows)
  · rw [hlimit] at hfalls
    exact .after hfollows hfalls

theorem call_kept (h : Kept fuel) {callee : Value} {args : List Value} (hm : Live m)
    (hcallee : m.heap.Has callee) (hargs : ∀ v ∈ args, m.heap.Has v) :
    m.Ensures (call (fuel + 1) callee args) (HasResults m) (Falls m.frames.size m.top m) := by
  cases callee with
  | native f =>
    rw [call]
    refine ensures_guarded (fun _ => hm.falls trivial) fun hdepth => ?_
    exact (h.runNative (hm.deeper hdepth) hargs).mono (fun _ _ hy => hy.shallower)
      fun _ _ hfalls => hfalls.shallower
  | closure r =>
    rw [call_closure]
    refine ensures_guarded (fun _ => hm.falls trivial) fun hdepth => ?_
    exact (callClosure_kept h (hm.deeper hdepth) hcallee hargs).mono (fun _ _ hy => hy.shallower)
      fun _ _ hfalls => hfalls.shallower
  | _ => exact hm.falls trivial

/-! ## The loop -/

/-- What comes of an instruction and the call it asks for: the loop goes on or has ended. It ends
with a number of results if a native function waits for it, and with the next instruction of the
frame below if that has called it. -/
def Turns (f₀ : Frame) (k : Nat) (m : Machine) (o : Outcome) (m' : Machine) : Prop :=
  match o with
  | .next => Goes f₀ k m m' ∨ (f₀.toHost = false ∧ m'.frames.size = k)
  | .call _ _ _ => False
  | .finished count => f₀.toHost = true ∧ Returned k f₀.destination m count m'

theorem Turns.after {o : Outcome} (h : m.Follows k f₀.destination m') (h' : Turns f₀ k m' o m'') :
    Turns f₀ k m o m'' := by
  cases o with
  | next => exact h'.imp_left fun hgoes => ⟨hgoes.loop, h.trans hgoes.follows⟩
  | call => exact h'
  | finished n => exact ⟨h'.1, h'.2.after h⟩

theorem Looping.closed (h : Looping f₀ k m) (ha : Active code f m) (hc : Closed code f m m') :
    Goes f₀ k m m' :=
  ⟨h.same_frames ⟨code, hc.active.ready⟩ hc.frames, h.widen ha hc.follows⟩

/-- The first frame of the loop, when it is the innermost one. -/
theorem Looping.same (h : Looping f₀ k m) (ha : Active code f m) (hk : k = m.frames.size - 1) :
    f₀.Same f := by
  obtain ⟨g, hg, hsame⟩ := h.first
  rw [hk] at hg
  cases ha.frame_get.symm.trans hg
  exact hsame

/-- A frame that returns to a native function is the first one of the loop. -/
theorem Looping.eq_of_toHost (h : Looping f₀ k m) (ha : Active code f m) (hhost : f.toHost = true) :
    k = m.frames.size - 1 := by
  apply Classical.byContradiction
  intro hne
  have hlt := h.lt_size
  have hfalse := h.above (m.frames.size - 1) f (by omega) ha.frame_get
  rw [hhost] at hfalse
  cases hfalse

theorem Looping.returns (h : Looping f₀ k m) (ha : Active code f m)
    (hopened : ∀ u ∈ m.openUpvalues, u.1 < f.base) (hhost : f.toHost = true)
    {source n given : Nat} (hsize : f.destination + n ≤ m.options.maxSlots) :
    f₀.toHost = true ∧ Returned k f₀.destination m n (m.leftToHost source n given f) := by
  have hk := h.eq_of_toHost ha hhost
  have hsame := h.same ha hk
  have hdestination : f.destination = f₀.destination := by rw [hsame]
  have htoHost : f.toHost = f₀.toHost := by rw [hsame]
  have hbase := ha.base_eq
  refine ⟨htoHost.symm.trans hhost, ⟨code, ha.leftToHost hopened hhost hsize⟩,
    h.follows_refl.leftToHost h.lt_size (Nat.le_of_eq hdestination.symm), ?_, ?_, fun u hu => ?_⟩
  · show m.frames.pop.size = k
    rw [Array.size_pop, hk]
  · rw [← hdestination]
    rfl
  · have hlt := hopened u hu
    have hne := ha.ready.opened.native u hu f ha.frame_mem hhost
    omega

theorem leftToCaller_same (source n given : Nat) (f g : Frame) (m : Machine) :
    SameFrames m.frames.pop (m.leftToCaller source n given f g).frames := by
  unfold Machine.leftToCaller
  dsimp only
  split
  · exact .modify _ fun _ => rfl
  · exact .refl _

theorem Looping.resumes (h : Looping f₀ k m) (ha : Active code f m)
    (hopened : ∀ u ∈ m.openUpvalues, u.1 < f.base) (hregister : f.toHost = false) {g : Frame}
    (hg : m.frames.pop.back? = some g) {source n given : Nat}
    (hsize : f.destination + n ≤ m.options.maxSlots) (hk : k ≠ m.frames.size - 1) :
    Goes f₀ k m (m.leftToCaller source n given f g) := by
  have hlt := h.lt_size
  have hlimit := h.limit_le (Nat.le_sub_one_of_lt hlt) ha.frame_get
  obtain ⟨g', hactive, -⟩ := ha.leftToCaller hopened hregister hg source given hsize
  have hsames := leftToCaller_same source n given f g m
  refine ⟨⟨⟨code, hactive.ready⟩, ?_, fun i f' hi hf' => ?_⟩,
    h.follows_refl.leftToCaller (by omega) hlimit⟩
  · obtain ⟨f₁, hf₁, hfirst⟩ := h.first
    have hpop : m.frames.pop[k]? = some f₁ := by
      rw [Array.getElem?_pop, if_pos (by omega), hf₁]
    obtain ⟨f', hf', hsame⟩ := hsames.get hpop
    exact ⟨f', hf', hfirst.trans hsame⟩
  · obtain ⟨f₁, hf₁, hsame⟩ := hsames.each i f' hf'
    have hold := h.above i f₁ hi ((outermost_pop _).get hf₁)
    rw [hsame]
    exact hold

theorem ret_kept (hloop : Looping f₀ k m) (ha : Active code f m) {i : Instruction}
    (hop : i.opcode? = some .ret) :
    m.Ensures (perform f i) (Turns f₀ k m) (Falls k f₀.destination m) := by
  have hlt := hloop.lt_size
  simp only [perform, hop, ensures_bind, ensures_pure]
  refine ensures_leave ha (fun m' n hc _ hsize hhost => ?_) (fun m' n g hc _ hsize hg hnot => ?_)
    fun m' hc _ => ?_
  · have hclosed := hloop.closed ha hc
    by_cases htoHost : f.toHost = true
    · rw [if_pos htoHost]
      exact Turns.after (o := .finished n) hclosed.follows
        (hclosed.loop.returns hc.active hc.opened htoHost hsize)
    · -- there is no frame below
      rw [if_neg htoHost]
      have hnone : m.frames.pop[m.frames.pop.size - 1]? = none := hhost.resolve_left htoHost
      rw [Array.getElem?_eq_none_iff, Array.size_pop] at hnone
      have hsame := hloop.same ha (by omega)
      refine .inr ⟨?_, ?_⟩
      · rw [Bool.eq_false_iff, show f₀.toHost = f.toHost by rw [hsame]]
        exact htoHost
      · show m'.frames.pop.size = k
        rw [hc.frames, Array.size_pop]
        omega
  · have hclosed := hloop.closed ha hc
    rw [hnot, if_neg Bool.noConfusion]
    rw [← hc.frames] at hg
    by_cases hk : k = m'.frames.size - 1
    · refine .inr ⟨?_, ?_⟩
      · rw [show f₀.toHost = f.toHost by rw [hclosed.loop.same hc.active hk]]
        exact hnot
      · rw [(leftToCaller_same _ _ _ _ _ _).size, Array.size_pop, hk]
    · exact .inl (hclosed.trans (hclosed.loop.resumes hc.active hc.opened hnot hg hsize hk))
  · have hclosed := hloop.closed ha hc
    exact ⟨hclosed.loop.live, hclosed.follows, trivial⟩

/-- The instruction is performed in the innermost frame. -/
theorem ensures_step (ha : Active code f m) {i : Instruction} {Q : Outcome → Machine → Prop}
    {E : Fault → Machine → Prop} : m.Ensures (step i) Q E ↔ m.Ensures (perform f i) Q E := by
  simp only [step, ensures_bind, ensures_frame]
  refine ⟨fun h => h.1 f ha.back, fun h => ⟨fun f' hf' => ?_, fun hnone => ?_⟩⟩
  · cases ha.back.symm.trans hf'
    exact h
  · cases hnone.symm.trans ha.back

theorem turn_kept (h : Kept fuel) (hloop : Looping f₀ k m) (ha : Active code f m)
    {i : Instruction} {op : Opcode} (hop : i.opcode? = some op)
    (hfit : i.OperandsFit f.prototype op) :
    m.Ensures (turn fuel i) (Turns f₀ k m) (Falls k f₀.destination m) := by
  rw [turn, ensures_bind, ensures_step ha]
  by_cases hret : op = .ret
  · subst hret
    refine (ret_kept hloop ha hop).mono_ok fun o m' hturns => ?_
    cases o with
    | next => exact hturns
    | finished n => exact hturns
    | call => cases hturns
  · refine (ensures_perform ha hop hfit hret).mono (fun o m' hp => ?_) fun e m' hb => ?_
    · have hgoes := hloop.goes ha hp.works
      cases o with
      | next => exact .inl hgoes
      | finished n => cases hp.asks
      | call func argc wanted =>
        simp only [ensures_bind, ensures_pure]
        obtain ⟨f', ha', hsame⟩ := hp.works.active
        have hasks : Asks f' m' (.call func argc wanted) := by
          have hasks := hp.asks
          unfold Asks at hasks ⊢
          rw [hsame]
          exact hasks
        refine (h.callSlot hgoes.loop ha' hasks).mono (fun _ m'' hg => ?_) fun e m'' hfalls => ?_
        · exact .inl (hgoes.trans hg)
        · exact hfalls.after hgoes.follows
    · exact ⟨(hloop.goes ha hb.works).loop.live, hloop.widen ha hb.works.follows, hb.held⟩

/-- An error gets its position. -/
theorem located_kept {α : Type} {x : Exec α} {Q : α → Machine → Prop}
    (hx : m.Ensures x Q (Falls k limit m)) : m.Ensures (located x) Q (Falls k limit m) := by
  simp only [located, ensures_tryCatch]
  refine hx.mono (fun _ _ h => h) fun e m' hfalls => ?_
  cases e with
  | runtime error =>
    obtain ⟨code, hready⟩ := hfalls.live
    simp only [ensures_bind, ensures_throw]
    exact ensures_positioned hready error fun p text hp htext =>
      ⟨⟨code, hp⟩, hfalls.follows.withMemory, htext⟩
  | _ => exact hfalls

/-- Only the output changes when an instruction is shown. -/
theorem ensures_trace (ha : Active code f m) {Q : Unit → Machine → Prop}
    {E : Fault → Machine → Prop} (hQ : ∀ m', Works code f m m' → Q () m') :
    m.Ensures trace Q E := by
  simp only [trace, write, ensures_bind, ensures_frame, ensures_slots, ensures_modify]
  have hwritten : ∀ shown, Works code f m { m with output := shown } := fun shown =>
    ha.works_collect (p := { m with output := shown }) { ha.ready.toSound with }
  exact ⟨fun f' _ => hQ _ (hwritten _), fun hnone => by cases hnone.symm.trans ha.back⟩

/-- The loop has come to an instruction, which fits the innermost frame. -/
structure Fetched (f₀ : Frame) (k : Nat) (m : Machine) (i : Instruction) (m' : Machine) :
    Prop where
  goes : Goes f₀ k m m'
  fits : ∃ code f op, Active code f m' ∧ i.opcode? = some op ∧ i.OperandsFit f.prototype op

theorem fetch_kept (hloop : Looping f₀ k m) (ha : Active code f m) :
    m.Ensures fetch (Fetched f₀ k m) (Falls k f₀.destination m) := by
  refine ensures_fetch ha (fun i m' hi hw ha' => ?_) fun m' hw => ?_
  · obtain ⟨op, hop, hvalid⟩ := ha.codeValid.words _ i hi
    exact ⟨hloop.goes ha hw, code, _, op, ha', hop, hvalid.operands⟩
  · have hgoes := hloop.goes ha hw
    exact ⟨hgoes.loop.live, hgoes.follows, trivial⟩

theorem fetching_kept (hloop : Looping f₀ k m) :
    m.Ensures fetching (Fetched f₀ k m) (Falls k f₀.destination m) := by
  obtain ⟨code, f, ha⟩ := hloop.active
  rw [fetching, ensures_bind, ensures_get]
  split
  · rw [ensures_bind]
    refine ensures_trace ha fun m' hw => ?_
    have hgoes := hloop.goes ha hw
    obtain ⟨f', ha', -⟩ := hw.active
    exact (fetch_kept hgoes.loop ha').mono (fun _ _ hi => ⟨hgoes.trans hi.goes, hi.fits⟩)
      fun _ _ hfalls => hfalls.after hgoes.follows
  · exact fetch_kept hloop ha

theorem iteration_kept (h : Kept fuel) (hloop : Looping f₀ k m) :
    m.Ensures (iteration fuel) (Turns f₀ k m) (Falls k f₀.destination m) := by
  rw [iteration_eq, ensures_bind]
  refine (fetching_kept hloop).mono_ok fun i m' hi => ?_
  obtain ⟨code, f, op, ha, hop, hfit⟩ := hi.fits
  exact (located_kept (turn_kept h hi.goes.loop ha hop hfit)).mono
    (fun o m'' hturns => hturns.after hi.goes.follows) fun e m'' hfalls =>
      hfalls.after hi.goes.follows

theorem execute_kept (h : Kept fuel) (hloop : Looping f₀ k m) (hhost : f₀.toHost = true) :
    m.Ensures (execute (fuel + 1)) (Returned k f₀.destination m) (Falls k f₀.destination m) := by
  rw [execute_succ, ensures_bind]
  refine (iteration_kept h hloop).mono_ok fun o m' hturns => ?_
  cases o with
  | next =>
    rcases hturns with hgoes | ⟨hregister, -⟩
    · exact (h.execute hgoes.loop hhost).mono (fun _ _ hret => hret.after hgoes.follows)
        fun _ _ hfalls => hfalls.after hgoes.follows
    · rw [hhost] at hregister
      cases hregister
  | call => cases hturns
  | finished n => exact hturns.2

theorem kept_succ (h : Kept fuel) : Kept (fuel + 1) where
  execute := execute_kept h
  callSlot := callSlot_kept h
  runNative := runNative_kept h
  interpret := interpret_kept h
  call := call_kept h
  protectedCall := protectedCall_kept h

end steps

theorem kept (fuel : Nat) : Kept fuel := by
  induction fuel with
  | zero => exact kept_zero
  | succ fuel ih => exact kept_succ ih

/-! ## After a call -/

/-- Nothing of a call is left: the frames, the top of the stack, the nesting of native functions and
the open upvalues are those of before, nothing is above the top, and what is below it has only
changed where an upvalue was open before. -/
structure Unwound (m m' : Machine) : Prop where
  frames : m'.frames = m.frames
  top : m'.top = m.top
  depth : m'.nativeDepth = m.nativeDepth
  opened : m'.openUpvalues = m.openUpvalues
  clear : ∀ (i : Nat) (v : Value), m'.top ≤ i → m'.stack[i]? = some v → v = .nil
  slots : ∀ i < m.top,
    m'.stack.getD i .nil = m.stack.getD i .nil ∨ ∃ r, (i, r) ∈ m.openUpvalues

theorem Stays.unwound (h : Stays m m') : Unwound m m' := by
  obtain ⟨code, hready⟩ := h.live
  exact ⟨h.restores.frames, h.restores.top, h.restores.follows.depth, h.restores.opened,
    hready.stack.clear, h.restores.follows.slots⟩

/-- However a call from outside ends, the machine is as it was. -/
theorem invoke_stays {r : Ref} {args : List Value} (hm : Live m) (hr : m.heap.Has (.closure r))
    (hargs : ∀ v ∈ args, m.heap.Has v) :
    m.Ensures (invoke r args) (fun _ => Stays m) fun e m' => ¬ e.Caught ∧ Stays m m' := by
  rw [invoke, ensures_bind, ensures_get]
  simp only [ensures_tryCatch, ensures_bind, ensures_pure]
  refine ((kept stepBudget).call hm hr hargs).mono (fun _ m' hy => hy.stays) fun e m' hfalls => ?_
  have hrecover : e.Caught → m'.Ensures (recover m.frames.size m.top e) (fun _ => Stays m)
      fun e m' => ¬ e.Caught ∧ Stays m m' := fun he =>
    (recover_caught hm hfalls he).mono_ok fun _ _ hy => hy.stays
  have hunwind : m'.Ensures (unwind m.frames.size m.top) (fun _ => Stays m) fun _ _ => False := by
    obtain ⟨code₀, h₀⟩ := hm
    obtain ⟨code, hready⟩ := hfalls.live
    exact ensures_unwind h₀ hready hfalls.follows fun m'' hm'' hr _ => ⟨⟨code, hm''⟩, hr⟩
  cases e with
  | script | runtime | outOfMemory =>
    simp only [ensures_bind, ensures_pure]
    exact hrecover trivial
  | defect | outOfRange | outOfSteps =>
    simp only [ensures_bind, ensures_throw]
    exact hunwind.mono (fun _ _ hs => ⟨id, hs⟩) fun _ _ hfalse => hfalse.elim

theorem invoke_kept {r : Ref} {args : List Value} (hm : Live m) (hr : m.heap.Has (.closure r))
    (hargs : ∀ v ∈ args, m.heap.Has v) :
    m.Ensures (invoke r args) (fun _ => Unwound m) fun e m' => ¬ e.Caught ∧ Unwound m m' :=
  (invoke_stays hm hr hargs).mono (fun _ _ hs => hs.unwound) fun _ _ hs => ⟨hs.1, hs.2.unwound⟩

/-- However a call from outside ends, nothing of it is left. The same holds of a protected call that
ends with values, and these it gives for every fault that is caught; any other fault goes through it
as it is. -/
theorem calls_unwind (hm : Live m) :
    (∀ r args, m.heap.Has (.closure r) → (∀ v ∈ args, m.heap.Has v) →
      m.Ensures (invoke r args) (fun _ => Unwound m) fun e m' => ¬ e.Caught ∧ Unwound m m') ∧
    ∀ fuel callee args, m.heap.Has callee → (∀ v ∈ args, m.heap.Has v) →
      m.Ensures (protectedCall fuel callee args) (fun _ => Unwound m) (fun e _ => ¬ e.Caught) ∧
      ∀ e m', (call fuel callee args).run m = .error e m' → ¬ e.Caught →
        (protectedCall (fuel + 1) callee args).run m = .error e m' := by
  refine ⟨fun r args hr hargs => invoke_kept hm hr hargs,
    fun fuel callee args hcallee hargs => ⟨?_, fun e m' hcall he => ?_⟩⟩
  · exact ((kept fuel).protectedCall hm hcallee hargs).mono (fun _ _ hy => hy.stays.unwound)
      fun _ _ hfalls => hfalls.1
  · have hthrow : m.Ensures (protectedCall (fuel + 1) callee args) (fun _ _ => False)
        fun e' m'' => e' = e ∧ m'' = m' := by
      rw [protectedCall, ensures_bind, ensures_get]
      simp only [ensures_tryCatch, ensures_bind, ensures_pure]
      refine ensures_iff_run.mpr (.inr ⟨e, m', hcall, ?_⟩)
      rw [recover_uncaught he]
      exact ⟨rfl, rfl⟩
    rcases ensures_iff_run.mp hthrow with ⟨_, _, _, hfalse⟩ | ⟨_, _, hrun, rfl, rfl⟩
    · exact hfalse.elim
    · exact hrun

/-- A program on a new machine. -/
theorem exists_program {text : String} {p : Prototype} (hp : compile text "text" = .ok p) :
    ∃ (code : Nat → Prototype) (m : Machine) (r : Ref) (c : Closure), Ready code m ∧
      m.heap.cells[r]? = some (.closure c) ∧ c.prototype = p ∧ m.options = {} ∧ m.top = 0 ∧
      m.frames = #[] ∧ m.openUpvalues = [] := by
  obtain ⟨code, hm, hb⟩ := ready_create {} #[] (by simp)
  have hprogram := hm.withProgram (compile_runnable hp)
  have hmade : ({ create {} #[] with programs := (create {} #[]).programs + 1 } : Machine).Ensures
      (instantiate ⟨⟨(create {} #[]).programs, []⟩, p⟩ none)
      (fun r m => ∃ code c, Ready code m ∧ m.heap.cells[r]? = some (.closure c) ∧
        c.prototype = p ∧ m.options = {} ∧ m.top = 0 ∧ m.frames = #[] ∧ m.openUpvalues = [])
      fun _ _ => False := by
    refine ensures_instantiate hprogram (Nat.lt_succ_self _) ?_ hprogram.globals
      fun q r c hq hr hc => ⟨_, c, hq, hr, hc, hb.options, hb.top, hb.frames, hb.opened⟩
    rw [PrototypeId.prototype?, withProgram, if_pos rfl]
    rfl
  rcases ensures_iff_run.mp hmade with ⟨r, m, -, code', c, hrest⟩ | ⟨_, _, _, hfalse⟩
  · exact ⟨code', m, r, c, hrest⟩
  · exact hfalse.elim

theorem calls_unwind_program : ∃ m r, Live m ∧ m.heap.Has (.closure r) ∧
    m.Ensures (invoke r []) (fun _ => Unwound m) (fun e m' => ¬ e.Caught ∧ Unwound m m') ∧
    m.Ensures (protectedCall 5 (.closure r) []) (fun _ => Unwound m) fun e _ => ¬ e.Caught := by
  have hok : (compile "return" "text").toBool = true := by decide +kernel
  cases hp : compile "return" "text" with
  | error e =>
    rw [hp] at hok
    cases hok
  | ok p =>
    obtain ⟨code, m, r, c, hm, hr, -⟩ := exists_program hp
    have hlive : Live m := ⟨code, hm⟩
    have hhas : m.heap.Has (.closure r) := ⟨c, hr⟩
    exact ⟨m, r, hlive, hhas, (calls_unwind hlive).1 r [] hhas (by simp),
      ((calls_unwind hlive).2 5 (.closure r) [] hhas (by simp)).1⟩

end Machine
end LuaMachine
