import LuaMachine.Proofs.Machine.Aging
/-! # The machines that an embedder sees, and those of its runs

An embedder makes a machine and asks things of it, one after the other; what it asks for is about
values that are in the heap. Some requests run functions, and such a run has its moments.

* `Machine.Request`: what an embedder asks for.
* `Machine.Served`: the machines between requests.
* `Machine.Reached`: the moments of the runs.
* `Machine.Served.live`, `Machine.Reached.sound`: all of these are sound.
* `Machine.Moment.Meets`: the machines that a moment has to do with.
-/
set_option autoImplicit false

namespace LuaMachine
namespace Machine

/-! ## Requests -/

/-- What an embedder asks of a machine on which nothing runs. -/
inductive Request where
  | openBase
  | openHosts (first : Nat) (names : List String)
  | setGlobal (name : String) (v : Value)
  | getGlobal (name : String)
  | newText (s : String)
  | newTable
  | setKey (r : Ref) (key value : Value)
  | pin (v : Value)
  | unpin (v : Value)
  | collectGarbage
  | load (text name : String) (globals : Option Ref)
  | instantiate (p : Program) (globals : Option Ref)
  | runText (text name : String)
  | invoke (closure : Ref) (args : List Value)
  | call (callee : Value) (args : List Value)
  | protectedCall (callee : Value) (args : List Value)

namespace Request

/-- The request without what it gives. -/
def perform : Request → Exec Unit
  | openBase => Machine.openBase
  | openHosts first names => Machine.openHosts first names
  | setGlobal name v => Machine.setGlobal name v
  | getGlobal name => (fun _ => ()) <$> Machine.getGlobal name
  | newText s => (fun _ => ()) <$> Machine.newText s
  | newTable => (fun _ => ()) <$> Machine.newTable
  | setKey r key value => Machine.setKey r key value
  | pin v => Machine.pin v
  | unpin v => Machine.unpin v
  | collectGarbage => Machine.collectGarbage
  | load text name globals => do
    match ← compileText text name with
    | .ok p => (fun _ => ()) <$> Machine.instantiate p globals
    | .error _ => return
  | instantiate p globals => (fun _ => ()) <$> Machine.instantiate p globals
  | runText text name => (fun _ => ()) <$> Machine.runText text name
  | invoke closure args => (fun _ => ()) <$> Machine.invoke closure args
  | call callee args => (fun _ => ()) <$> callValue callee args
  | protectedCall callee args => (fun _ => ()) <$> tryCallValue callee args

/-- All that the request is about is in the heap; a program has been made by the machine, and one
closure of it is still there. -/
def Allowed (m : Machine) : Request → Prop
  | setGlobal _ v | pin v => m.heap.Has v
  | setKey r key value => m.heap.Has (.table r) ∧ m.heap.Has key ∧ m.heap.Has value
  | load _ _ globals => m.heap.Has (.table (globals.getD m.globals))
  | instantiate p globals => m.heap.Has (.table (globals.getD m.globals)) ∧
      ∃ (r : Ref) (c : Closure), m.heap.cells[r]? = some (.closure c) ∧ c.id = p.id ∧
        c.prototype = p.prototype
  | invoke closure args => m.heap.Has (.closure closure) ∧ ∀ v ∈ args, m.heap.Has v
  | call callee args | protectedCall callee args => m.heap.Has callee ∧ ∀ v ∈ args, m.heap.Has v
  | _ => True

end Request

variable {code : Nat → Prototype} {m m' : Machine}

/-! ### Requests and sound machines -/

theorem live_setGlobal {name : String} {v : Value} (hm : Live m) (hv : m.heap.Has v) :
    m.Ensures (setGlobal name v) (fun _ => Live) fun _ => Live := by
  obtain ⟨code, hready⟩ := hm
  simp only [setGlobal, pin, unpin, ensures_bind, ensures_modify, ensures_get]
  have hpinned := hready.withPinned _ (List.forall_mem_cons.mpr ⟨hv, hready.pinned⟩)
  refine ensures_newText hpinned.toSound fun p hp _ hname => ?_
  have hkept : p.heap.Has v := hp.pinned v List.mem_cons_self
  exact ensures_setKey_text (Ready.withPinned ⟨hp, hready.idle⟩ _ fun w hw =>
    hp.pinned w (List.mem_of_mem_eraseP hw)) hname hkept fun h hh => ⟨code, hh⟩

theorem live_newText {s : String} (hm : Live m) :
    m.Ensures (newText s) (fun _ => Live) fun _ => Live := by
  obtain ⟨code, hready⟩ := hm
  exact ensures_newText hready.toSound fun p hp _ _ => ⟨code, hp, hready.idle⟩

theorem live_collect (hm : Live m) : Live m.collect := by
  obtain ⟨code, hready⟩ := hm
  refine ⟨code, hready.toSound.collect, ?_⟩
  rw [collect_eq]
  exact hready.idle

theorem live_instantiate {p : Program} {globals : Option Ref} (hm : Ready code m)
    (hprogram : p.id.program < m.programs) (hproto : p.id.prototype? code = some p.prototype)
    (hglobals : m.heap.Has (.table (globals.getD m.globals))) :
    m.Ensures (instantiate p globals) (fun r m' => Live m' ∧ m'.heap.Has (.closure r))
      fun _ => Live :=
  ensures_instantiate hm hprogram hproto hglobals fun _ _ c hq hr _ => ⟨⟨code, hq⟩, c, hr⟩

/-- A text is compiled; its program can be made a closure. -/
theorem live_compileText {text name : String} {Q : Except CompileError Program → Machine → Prop}
    (hm : Ready code m)
    (hok : ∀ code p, Ready code { m with programs := m.programs + 1 } →
      p.id.program < m.programs + 1 → p.id.prototype? code = some p.prototype →
      Q (.ok p) { m with programs := m.programs + 1 }) (herror : ∀ e, Q (.error e) m) :
    m.Ensures (compileText text name) Q fun _ => Live := by
  refine ensures_compileText text name (fun p hp => ?_) (fun e _ => herror e) fun _ _ => ⟨code, hm⟩
  refine hok _ _ (hm.withProgram (compile_runnable hp)) (Nat.lt_succ_self _) ?_
  rw [PrototypeId.prototype?, withProgram, if_pos rfl]
  rfl

theorem live_load {text name : String} {globals : Option Ref} (hm : Live m)
    (hglobals : m.heap.Has (.table (globals.getD m.globals))) :
    m.Ensures (Request.perform (.load text name globals)) (fun _ => Live) fun _ => Live := by
  obtain ⟨code, hready⟩ := hm
  rw [Request.perform, ensures_bind]
  refine live_compileText hready (fun code' p hready' hprogram hproto => ?_) fun e => ?_
  · rw [ensures_map]
    exact (live_instantiate hready' hprogram hproto hglobals).mono_ok fun _ _ h => h.1
  · exact ⟨code, hready⟩

theorem live_runText {text name : String} (hm : Live m) :
    m.Ensures (runText text name) (fun _ => Live) fun _ => Live := by
  obtain ⟨code, hready⟩ := hm
  rw [runText, ensures_bind]
  refine live_compileText hready (fun code' p hready' hprogram hproto => ?_) fun e => ?_
  · rw [ensures_bind]
    refine Ensures.mono_ok (live_instantiate hready' hprogram hproto ?_) fun r m' h => ?_
    · exact hready'.globals
    exact (invoke_stays h.1 h.2 fun _ hv => by cases hv).mono (fun _ _ hs => hs.live)
      fun _ _ hs => hs.2.live
  · rw [ensures_bind]
    exact (live_newText ⟨code, hready⟩).mono_ok fun _ _ h => h

/-- A request leaves a sound machine. -/
theorem Request.live {q : Request} (hm : Live m) (hq : q.Allowed m) :
    m.Ensures q.perform (fun _ => Live) fun _ => Live := by
  obtain ⟨code, hready⟩ := hm
  cases q with
  | openBase => exact ensures_openBase hready fun _ hm' _ => ⟨code, hm'⟩
  | openHosts => exact ensures_openHosts hready fun _ hm' _ => ⟨code, hm'⟩
  | setGlobal name v => exact live_setGlobal ⟨code, hready⟩ hq
  | getGlobal name =>
    simp only [perform, Machine.getGlobal, ensures_map, ensures_bind, ensures_get, ensures_pure]
    exact live_newText ⟨code, hready⟩
  | newText s => exact (ensures_map _ _).mpr (live_newText ⟨code, hready⟩)
  | newTable =>
    exact (ensures_map _ _).mpr
      (ensures_newTable hready.toSound fun p r hp _ => ⟨code, hp, hready.idle⟩)
  | setKey r key value =>
    exact ensures_setKey hready.toSound hq.2.1 hq.2.2 (fun h hs _ => ⟨code, hs, hready.idle⟩)
      fun _ => ⟨code, hready⟩
  | pin v => exact ⟨code, hready.withPinned _ (List.forall_mem_cons.mpr ⟨hq, hready.pinned⟩)⟩
  | unpin v =>
    exact ⟨code, hready.withPinned _ fun w hw => hready.pinned w (List.mem_of_mem_eraseP hw)⟩
  | collectGarbage => exact live_collect ⟨code, hready⟩
  | load text name globals => exact live_load ⟨code, hready⟩ hq
  | instantiate p globals =>
    obtain ⟨hglobals, r, c, hc, hid, hproto⟩ := hq
    have hclosure : Heap.ClosureSound code m.programs m.heap c := hready.heap.objects r _ hc
    refine (ensures_map _ _).mpr ?_
    refine (live_instantiate hready (hid ▸ hclosure.program) ?_ hglobals).mono_ok fun _ _ h => h.1
    rw [← hid, ← hproto]
    exact hclosure.prototype
  | runText text name => exact (ensures_map _ _).mpr (live_runText ⟨code, hready⟩)
  | invoke r args =>
    exact (ensures_map _ _).mpr ((invoke_stays ⟨code, hready⟩ hq.1 hq.2).mono
      (fun _ _ hs => hs.live) fun _ _ hs => hs.2.live)
  | call callee args =>
    exact (ensures_map _ _).mpr (((kept _).call ⟨code, hready⟩ hq.1 hq.2).mono
      (fun _ _ hy => hy.stays.live) fun _ _ hfalls => hfalls.live)
  | protectedCall callee args =>
    exact (ensures_map _ _).mpr (((kept _).protectedCall ⟨code, hready⟩ hq.1 hq.2).mono
      (fun _ _ hy => hy.stays.live) fun _ _ hfalls => hfalls.2.live)

section endures

variable {R : Machine → Machine → Prop} [Enduring R]

theorem endures_setGlobal (name : String) (v : Value) : Endures R (setGlobal name v) :=
  (lasts_pin v).bind fun _ => (lasts_newText name).bind fun _ => (lasts_unpin v).bind fun _ =>
    lasts_get.bind fun _ => lasts_setKey _ _ _

theorem endures_openHosts (first : Nat) (names : List String) :
    Endures R (openHosts first names) := by
  induction names generalizing first with
  | nil => exact lasts_pure ()
  | cons name rest ih => exact (endures_setGlobal _ _).bind fun _ => ih _

theorem endures_openBase : Endures R openBase := by
  have hall : ∀ fs : List BaseFunction,
      Endures R (fs.forM fun f => setGlobal f.name (.native (.base f))) := by
    intro fs
    induction fs with
    | nil => exact lasts_pure ()
    | cons f rest ih => exact (endures_setGlobal _ _).bind fun _ => ih
  exact (hall _).bind fun _ => lasts_get.bind fun _ => (lasts_newText _).bind fun _ =>
    lasts_setKey _ _ _

/-- A request leads to a related machine, if a closure that it makes does. -/
theorem Request.endures_of (q : Request)
    (hq : ∀ p globals, q = .instantiate p globals → Endures R (Machine.instantiate p globals)) :
    Endures R q.perform := by
  cases q with
  | openBase => exact endures_openBase
  | openHosts first names => exact endures_openHosts first names
  | setGlobal name v => exact endures_setGlobal name v
  | getGlobal name => exact (lasts_getGlobal name).map
  | newText s => exact (lasts_newText s).map
  | newTable => exact lasts_newTable.map
  | setKey r key value => exact lasts_setKey r key value
  | pin v => exact lasts_pin v
  | unpin v => exact lasts_unpin v
  | collectGarbage => exact lasts_modify fun m => Durable.silent (silent_collect m)
  | load text name globals =>
    exact endures_compileText text name (fun p hp => (Enduring.instantiate hp globals).map)
      fun e => lasts_pure _
  | instantiate p globals => exact (hq p globals rfl).map
  | runText text name =>
    exact Lasts.map (endures_compileText text name
      (fun p hp => (Enduring.instantiate hp none).bind fun r => endures_invoke r [])
      fun e => (lasts_newText _).bind fun _ => lasts_pure _)
  | invoke r args => exact (endures_invoke r args).map
  | call callee args => exact ((lasting _).call callee args).map
  | protectedCall callee args => exact ((lasting _).protectedCall callee args).map

end endures

/-- A request makes the machine older. -/
theorem Request.endures (q : Request) : Endures Ages q.perform :=
  q.endures_of fun p globals _ => ages_instantiate p globals

/-! ## Machines between requests -/

/-- The machine that a computation leaves, whether it fails or not. -/
def after {α : Type} (x : Exec α) (m : Machine) : Machine :=
  match x.run m with
  | .ok _ m' => m'
  | .error _ m' => m'

theorem Ensures.after {α : Type} {x : Exec α} {P : Machine → Prop}
    (h : m.Ensures x (fun _ => P) fun _ => P) : P (m.after x) := by
  unfold Machine.after
  rcases ensures_iff_run.mp h with ⟨a, m', hrun, hp⟩ | ⟨e, m', hrun, hp⟩
  · rw [hrun]
    exact hp
  · rw [hrun]
    exact hp

/-- A machine that was made with these options and functions, after some requests. -/
inductive Served (options : Options) (hosts : Array HostFunction) : Machine → Prop where
  | create : Served options hosts (create options hosts)
  | request {m : Machine} (q : Request) (hm : Served options hosts m) (hq : q.Allowed m) :
      Served options hosts (m.after q.perform)

/-- A moment of a run: a function is called, with protection or without, or a moment of the run leads
to it. -/
inductive Reached (options : Options) (hosts : Array HostFunction) : Moment → Prop where
  | begins {m : Machine} (fuel : Nat) {callee : Value} {args : List Value}
      (hm : Served options hosts m) (hcallee : m.heap.Has callee) (hargs : ∀ v ∈ args, m.heap.Has v) :
      Reached options hosts ⟨fuel, .call callee args, m⟩
  | attempts {m : Machine} (fuel : Nat) {callee : Value} {args : List Value}
      (hm : Served options hosts m) (hcallee : m.heap.Has callee) (hargs : ∀ v ∈ args, m.heap.Has v) :
      Reached options hosts ⟨fuel, .protectedCall callee args, m⟩
  | goes {p q : Moment} (hp : Reached options hosts p) (h : p.Begins q) : Reached options hosts q

variable {options : Options} {hosts : Array HostFunction} {p q : Moment}

theorem Served.live (hhosts : ∀ f ∈ hosts, HostFunction.Honest f) (h : Served options hosts m) :
    Live m := by
  induction h with
  | create =>
    obtain ⟨code, hm, -⟩ := ready_create options hosts hhosts
    exact ⟨code, hm⟩
  | request q _ hq ih => exact (Request.live ih hq).after

section after

variable {R : Machine → Machine → Prop}

theorem endures_prepare [Durable R] : Endures R prepare :=
  (lasts_allocate fun _ => Object.noConfusion).bind fun _ =>
    .bind (lasts_fields (fun _ => rfl) (fun _ => rfl) (fun _ => rfl) fun _ => rfl) fun _ =>
    (lasts_newText _).bind fun _ => lasts_pure _

theorem Endures.after {α : Type} {x : Exec α} (hx : Endures R x) (m : Machine) : R m (m.after x) :=
  ((hx m).mono (fun _ _ h => h) fun _ _ h => h.1).after

end after

theorem create_eq (options : Options) (hosts : Array HostFunction) :
    create options hosts =
      after prepare { options := options, hosts := hosts, threshold := options.initialThreshold } := by
  unfold create after
  cases prepare.run
    { options := options, hosts := hosts, threshold := options.initialThreshold } <;> rfl

/-- The options stay as they are, and so do the functions of the embedder. -/
theorem Served.made (h : Served options hosts m) : m.options = options ∧ m.hosts = hosts := by
  induction h with
  | create =>
    rw [create_eq]
    have hages := (endures_prepare (R := Ages)).after
      { options := options, hosts := hosts, threshold := options.initialThreshold }
    exact ⟨hages.options, hages.hosts⟩
  | @request m q _ _ ih =>
    have hages := q.endures.after m
    exact ⟨hages.options.trans ih.1, hages.hosts.trans ih.2⟩

/-! ## Moments of runs -/

theorem Reached.sound (hhosts : ∀ f ∈ hosts, HostFunction.Honest f) (h : Reached options hosts p) :
    p.Sound := by
  induction h with
  | begins fuel hm hcallee hargs => exact ⟨hm.live hhosts, hcallee, hargs⟩
  | attempts fuel hm hcallee hargs => exact ⟨hm.live hhosts, hcallee, hargs⟩
  | goes _ hbegins ih => exact hbegins.sound ih

theorem Reached.made (h : Reached options hosts p) :
    p.machine.options = options ∧ p.machine.hosts = hosts := by
  induction h with
  | begins fuel hm _ _ => exact hm.made
  | attempts fuel hm _ _ => exact hm.made
  | goes _ hbegins ih => exact ⟨hbegins.ages.options.trans ih.1, hbegins.ages.hosts.trans ih.2⟩

/-- A program is loaded on a new machine, where nothing runs yet. -/
theorem exists_loaded {text : String} {p : Prototype} (hp : compile text "text" = .ok p) :
    ∃ (m : Machine) (r : Ref) (c : Closure), Served {} #[] m ∧ m.heap.cells[r]? = some (.closure c) ∧ c.prototype = p ∧
      m.top = 0 ∧ m.frames = #[] ∧ m.nativeDepth = 0 := by
  obtain ⟨code, hm, hb⟩ := ready_create {} #[] (by simp)
  have hload : (create {} #[]).Ensures (Request.perform (.load text "text" none))
      (fun _ m => ∃ (r : Ref) (c : Closure), m.heap.cells[r]? = some (.closure c) ∧ c.prototype = p ∧
        m.top = 0 ∧ m.frames = #[] ∧ m.nativeDepth = 0)
      fun _ m => ∃ (r : Ref) (c : Closure), m.heap.cells[r]? = some (.closure c) ∧ c.prototype = p ∧
        m.top = 0 ∧ m.frames = #[] ∧ m.nativeDepth = 0 := by
    rw [Request.perform, ensures_bind]
    refine ensures_compileText text "text" (fun p' hp' => ?_) (fun e he => ?_) fun why hwhy => ?_
    · cases hp.symm.trans hp'
      rw [ensures_map]
      refine ensures_instantiate (hm.withProgram (compile_runnable hp)) (Nat.lt_succ_self _) ?_ ?_
        fun q r c _ hr hc => ⟨r, c, hr, hc, hb.top, hb.frames, hb.depth⟩
      · rw [PrototypeId.prototype?, withProgram, if_pos rfl]
        rfl
      · exact hm.globals
    · cases hp.symm.trans he
    · cases hp.symm.trans hwhy
  obtain ⟨r, c, hrest⟩ := hload.after
  exact ⟨_, r, c, .request (.load text "text" none) .create hm.globals, hrest⟩

/-- The arguments that a native function has put on the stack. -/
theorem calling_values (callee : Value) (args : List Value) (m : Machine) :
    valuesFrom (m.calling callee args).stack (m.top + 1) args.length = args := by
  refine List.ext_getElem? fun j => ?_
  have hlen : m.top + (callee :: args).length ≤ (grown (m.top + 1 + args.length) m.stack).size := by
    rw [grown_size, List.length_cons]
    omega
  rw [valuesFrom, List.getElem?_map]
  by_cases hj : j < args.length
  · rw [List.getElem?_range hj, Option.map_some]
    show some ((putSlots m.top (callee :: args) _).getD _ _) = _
    rw [Array.getD_eq_getD_getElem?, putSlots_getElem? _ _ _ _ hlen,
      if_pos ⟨by omega, by rw [List.length_cons]; omega⟩, show m.top + 1 + j - m.top = j + 1 by omega,
      List.getElem?_cons_succ, List.getElem?_eq_getElem hj, Option.getD_some]
  · rw [List.getElem?_eq_none (by rw [List.length_range]; omega), List.getElem?_eq_none (by omega),
      Option.map_none]

/-- A program begins on a new machine with arguments, and runs with so much fuel. No upvalue is open
yet. -/
theorem exists_reached_fresh {text : String} {p : Prototype} (hp : compile text "text" = .ok p)
    (hregisters : p.registers ≤ 255) {args : List Value} (hargs : ∀ v ∈ args, v.Plain)
    (hlength : args.length ≤ 255) (fuel : Nat) :
    ∃ (code : Nat → Prototype) (f : Frame) (m : Machine), Reached {} #[] ⟨fuel, .loop, m⟩ ∧
      Active code f m ∧ f.prototype = p ∧ f.next = 0 ∧ m.frames.size = 1 ∧
      m.openUpvalues = [] ∧ f.extra.toList = if p.variadic then args.drop p.params else [] := by
  obtain ⟨m, r, c, hm, hr, rfl, htop, hframes, hdepth⟩ := exists_loaded hp
  have hoptions : m.options = {} := hm.made.1
  have hmax : m.nativeDepth < m.options.maxNativeDepth := by
    rw [hdepth, hoptions]
    decide
  have hslots : m.options.maxSlots = 1000000 := by rw [hoptions]
  have hcount : m.options.maxFrames = 10000 := by rw [hoptions]
  obtain ⟨code, hdeeper⟩ := (hm.live (by simp)).deeper hmax
  -- an open upvalue would belong to a frame
  have hopened : m.openUpvalues = [] := by
    refine List.eq_nil_iff_forall_not_mem.mpr fun u hu => ?_
    obtain ⟨f, hf, -⟩ := hdeeper.opened.window u hu
    exact absurd (hframes ▸ hf : f ∈ (#[] : Array Frame)) (Array.not_mem_empty f)
  have hhas : m.deeper.heap.Has (.closure r) := ⟨c, hr⟩
  have hroom : m.deeper.top + 1 + args.length ≤ m.deeper.options.maxSlots := by
    show m.top + 1 + args.length ≤ m.options.maxSlots
    omega
  have henter : m.deeper.Ensures (enterFromHost r m.top args) (fun _ m' => ∃ code f, Active code f m' ∧
      f.prototype = c.prototype ∧ f.next = 0 ∧ m'.frames.size = 1 ∧
      m'.openUpvalues = [] ∧ f.extra.toList = if c.prototype.variadic then args.drop c.prototype.params else [])
      fun _ _ => False := by
    simp only [enterFromHost, ensures_bind, ensures_ensureStack, ensures_setSlots, ensures_setTop]
    refine ⟨fun hover => absurd hroom (Nat.not_le_of_lt hover), fun _ => ?_⟩
    obtain ⟨hcalling, -⟩ := hdeeper.calling hhas (fun v hv => m.heap.has_plain (hargs v hv)) hroom
    refine ensures_enter hcalling hr (calling_slot _ _ _) (hdeeper.callable _ _)
      (fun q pool hentered => ⟨code, _, ⟨hentered, Array.back?_push⟩, rfl, rfl, ?_, hopened, ?_⟩) (fun hover => ?_)
      fun _ _ hnone => by cases hnone
    · show (m.frames.push _).size = 1
      rw [hframes]
      rfl
    · have hvalues : valuesFrom (m.deeper.calling (.closure r) args).stack (m.top + 1) args.length =
        args := calling_values _ _ _
      refine (extraArguments_toList c.prototype ?_).trans
        (congrArg (fun vs => if c.prototype.variadic then vs.drop c.prototype.params else []) hvalues)
      show m.top + 1 + args.length ≤ (m.deeper.calling (.closure r) args).stack.size
      exact hcalling.stack.top_le
    · have hover : m.options.maxFrames ≤ m.frames.size ∨ m.options.maxSlots <
        max (m.top + 1 + c.prototype.registers) (m.top + 1 + args.length) := hover
      rw [hframes, Array.size_empty] at hover
      omega
  rcases ensures_iff_run.mp henter with ⟨_, m', hrun, code', f, ha, hf⟩ | ⟨_, _, _, hfalse⟩
  · exact ⟨code', f, m', .goes (.begins (fuel + 1) hm hhas fun v hv => m.heap.has_plain (hargs v hv))
      (.callClosure hmax hrun), ha, hf⟩
  · exact hfalse.elim

theorem exists_reached_main {text : String} {p : Prototype} (hp : compile text "text" = .ok p)
    (hregisters : p.registers ≤ 255) {args : List Value} (hargs : ∀ v ∈ args, v.Plain)
    (hlength : args.length ≤ 255) (fuel : Nat) :
    ∃ (code : Nat → Prototype) (f : Frame) (m : Machine), Reached {} #[] ⟨fuel, .loop, m⟩ ∧
      Active code f m ∧ f.prototype = p ∧ f.next = 0 ∧ m.frames.size = 1 ∧
      f.extra.toList = if p.variadic then args.drop p.params else [] := by
  obtain ⟨code, f, m, hreached, ha, hprototype, hnext, hsize, -, hextra⟩ :=
    exists_reached_fresh hp hregisters hargs hlength fuel
  exact ⟨code, f, m, hreached, ha, hprototype, hnext, hsize, hextra⟩

/-- The loop of a program begins on a new machine. -/
theorem exists_reached_loop : ∃ p, Reached {} #[] p ∧ p.task = .loop := by
  have hcompile : (compile "return" "text").toOption.map (fun p => p.registers) = some 2 := by
    decide +kernel
  cases hp : compile "return" "text" with
  | error e =>
    rw [hp] at hcompile
    cases hcompile
  | ok p =>
    rw [hp] at hcompile
    have hregisters : p.registers = 2 := Option.some.inj hcompile
    obtain ⟨_, _, m, hm, -⟩ :=
      exists_reached_main hp (by omega) (List.forall_mem_nil _) (Nat.zero_le _) 1
    exact ⟨_, hm, rfl⟩

namespace Moment

/-- A machine that the moment has to do with: the one it begins with, the one on which the fetched
instruction is performed, and the one that is left in the end, also when an error got a position. -/
inductive Meets (p : Moment) : Machine → Prop where
  | now : Meets p p.machine
  | fetched {i : Instruction} {m : Machine} (hloop : p.task = .loop)
      (h : fetching.run p.machine = .ok i m) : Meets p m
  | done {m : Machine} (h : p.run = .ok () m) : Meets p m
  | failed {e : Fault} {m : Machine} (h : p.run = .error e m) : Meets p m
  | positioned {e : RuntimeError} {text : String} {m m' : Machine} (h : p.run = .error (.runtime e) m)
      (htext : (Machine.positioned e).run m = .ok text m') : Meets p m'

/-- What is done at a sound moment leaves a sound machine. -/
theorem Sound.ends (h : p.Sound) :
    p.machine.Ensures (p.task.perform p.fuel) (fun _ => Live) fun _ => Live := by
  obtain ⟨fuel, task, m⟩ := p
  cases task with
  | loop =>
    obtain ⟨f₀, k, hhost, hloop⟩ := h
    exact (ensures_map _ _).mpr (((kept fuel).execute hloop hhost).mono (fun _ _ hr => hr.live)
      fun _ _ hfalls => hfalls.live)
  | callSlot =>
    obtain ⟨f₀, k, code, f, hhost, hloop, ha, hasks⟩ := h
    exact ((kept fuel).callSlot hloop ha hasks).mono (fun _ _ hgoes => hgoes.loop.live)
      fun _ _ hfalls => hfalls.live
  | native =>
    exact (ensures_map _ _).mpr (((kept fuel).runNative h.1 h.2).mono
      (fun _ _ hy => hy.stays.live) fun _ _ hfalls => hfalls.live)
  | interpret =>
    exact (ensures_map _ _).mpr (((kept fuel).interpret h.1 h.2).mono
      (fun _ _ hy => hy.stays.live) fun _ _ hfalls => hfalls.live)
  | call =>
    exact (ensures_map _ _).mpr (((kept fuel).call h.1 h.2.1 h.2.2).mono
      (fun _ _ hy => hy.stays.live) fun _ _ hfalls => hfalls.live)
  | protectedCall =>
    exact (ensures_map _ _).mpr (((kept fuel).protectedCall h.1 h.2.1 h.2.2).mono
      (fun _ _ hy => hy.stays.live) fun _ _ hfalls => hfalls.2.live)

/-- All machines that a sound moment has to do with are sound. -/
theorem Sound.meets (h : p.Sound) (hm : p.Meets m) : Live m := by
  cases hm with
  | now => exact h.live
  | fetched hloop hfetch =>
    obtain ⟨fuel, task, m₀⟩ := p
    cases hloop
    obtain ⟨f₀, k, -, hlooping⟩ := h
    exact ((fetching_kept hlooping).of_ok hfetch).goes.loop.live
  | done hrun => exact h.ends.of_ok hrun
  | failed hrun => exact h.ends.of_error hrun
  | positioned hrun htext =>
    obtain ⟨code, hready⟩ := h.ends.of_error hrun
    exact Ensures.of_ok (Q := fun _ => Live) (E := fun _ _ => False)
      (ensures_positioned hready _ fun p _ hp _ => ⟨code, hp⟩) htext

theorem Meets.ages (h : p.Meets m) : p.machine.Ages m := by
  cases h with
  | now => exact .refl _
  | fetched _ hfetch => exact Ensures.of_ok (lasts_fetching (R := Ages) (N := fun _ => True) _) hfetch
  | done hrun => exact Ensures.of_ok (lasts_task (R := Ages) _ _ _) hrun
  | failed hrun => exact (Ensures.of_error (lasts_task (R := Ages) _ _ _) hrun).1
  | positioned hrun htext =>
    exact (Ensures.of_error (lasts_task (R := Ages) _ _ _) hrun).1.trans
      (Ensures.of_ok (lasts_positioned (R := Ages) (N := fun _ => True) _ _) htext)

end Moment
end Machine
end LuaMachine
