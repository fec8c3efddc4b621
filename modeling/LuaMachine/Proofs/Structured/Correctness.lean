import LuaMachine.Proofs.Machine.Unwinding
import LuaMachine.Proofs.Structured.Programs
/-! # The compiler is correct on structured programs

A program text is compiled, made a closure over a table of globals, and called. If the program is
structured, the machine ends as the program does: with the same values and tables, or with an error;
and it goes on as long as the program does.

* `Machine.runProgram`: compiles a program text and runs it, in so many steps at most.
* `Machine.Settles`: the loop ends with a result as soon as it may take enough steps.
* `Structured.runProgram_correct`: the machine and the meaning of the tree agree.
-/
set_option autoImplicit false

namespace LuaMachine

/-- Every table was there before. -/
def Heap.TablesOf (h h' : Heap) : Prop :=
  ∀ (r : Ref) (t : Table), h'.cells[r]? = some (.table t) → h.cells[r]? = some (.table t)

theorem Heap.TablesOf.trans {h h' h'' : Heap} (ht : h.TablesOf h') (ht' : h'.TablesOf h'') :
    h.TablesOf h'' := fun r t hr => ht r t (ht' r t hr)

theorem Heap.Thins.tables {h h' : Heap} (ht : h.Thins h') : h.TablesOf h' :=
  fun r _ hr => ht r _ hr Object.noConfusion

theorem Heap.thins_collect (h : Heap) (pools : Pools) (roots : Roots) :
    h.Thins (h.collect pools roots).1 := by
  intro r o ho hne
  rw [collect, sweep_getElem?] at ho
  split at ho
  · exact absurd (Option.some.inj ho).symm hne
  · exact ho

theorem Heap.tablesOf_allocate (h : Heap) {o : Object} (ho : ∀ t, o ≠ .table t) :
    h.TablesOf (h.allocate o).1 := by
  intro r t hr
  rw [allocate_getElem?] at hr
  split at hr
  · exact absurd (Option.some.inj hr) (ho t)
  · exact hr

theorem Heap.tablesOf_setClosure (h : Heap) (r : Ref) (c : Closure) :
    h.TablesOf (h.setClosure r c) := by
  intro r' t hr
  rw [setClosure, Array.getElem?_setIfInBounds] at hr
  split at hr
  · split at hr
    · cases hr
    · cases hr
  · exact hr

namespace Machine

variable {code : Nat → Prototype} {m m' m₁ : Machine} {n k : Nat} {r : Ref} {c : Closure}

/-! ## What is left of the heap when a function starts -/

theorem thins_collectIfDue (m : Machine) (size : Nat) :
    m.heap.Thins (m.collectIfDue size).heap := by
  unfold collectIfDue
  split
  · rw [(collect_frame m).1]
    exact Heap.thins_collect _ _ _
  · exact .refl _

theorem newText_thins (s : String) :
    m.Ensures (newText s) (fun _ m' => m.heap.Thins m'.heap) fun _ _ => False := by
  simp only [newText, ensures_bind, ensures_get, ensures_ite, ensures_modify, ensures_pure]
  exact ⟨fun _ => thins_collectIfDue m Heap.textHead, fun _ => .refl _⟩

theorem fillPool_thins (ks : List Constant) :
    m.Ensures (fillPool ks) (fun _ m' => m.heap.Thins m'.heap) fun _ _ => False := by
  induction ks generalizing m with
  | nil => exact .refl _
  | cons k rest ih =>
    cases k with
    | str s =>
      simp only [fillPool, ensures_bind, ensures_modify]
      refine (newText_thins s).mono_ok fun v m' ht => ?_
      exact ih.mono_ok fun _ m'' ht' => ht.trans ht'
    | _ =>
      simp only [fillPool, ensures_bind, ensures_pure, ensures_modify]
      exact ih

theorem constants_thins (c : Closure) :
    m.Ensures (constants c) (fun _ m' => m.heap.Thins m'.heap) fun _ _ => False := by
  simp only [constants, ensures_bind, ensures_get]
  split
  · exact .refl _
  · simp only [ensures_bind]
    exact (fillPool_thins _).mono_ok fun _ m' ht => ht

theorem enter_thins (r : Ref) (func : Nat) (argc wanted : Option Nat) (toHost : Bool) :
    m.Ensures (enter r func argc wanted toHost) (fun _ m' => m.heap.Thins m'.heap)
      fun _ _ => True := by
  simp only [enter, ensures_bind, ensures_get, ensures_ite, ensures_raise]
  refine ⟨fun _ => trivial, fun _ => ?_⟩
  split
  · trivial
  · simp only [ensures_bind, ensures_ensureStack]
    refine ⟨fun _ => trivial, fun _ => ?_⟩
    refine (constants_thins _).mono (fun pool m' ht => ?_) fun _ _ => False.elim
    split
    · split
      · exact ht
      · trivial
    · exact ht

/-! ## Closures of programs -/

/-- The first upvalue of a closure is closed and holds the value. -/
def Holding (r : Ref) (v : Value) (h : Heap) : Prop :=
  ∃ c u, h.cells[r]? = some (.closure c) ∧ c.upvalue? 0 = some u ∧
    h.cells[u]? = some (.upvalue (.closed v))

/-- The upvalue of a closure is made last. -/
theorem Holding.fill (v : Value) (h : Heap) (hr : r < h.cells.size) (hc : 0 < c.upvalues.size) :
    Holding r v ((h.allocate (.upvalue (.closed v))).1.setClosure r
      { c with upvalues := c.upvalues.setIfInBounds 0 (some h.cells.size) }) := by
  refine ⟨_, h.cells.size, Array.getElem?_setIfInBounds_self_of_lt ?_, ?_, ?_⟩
  · show r < (h.cells.push _).size
    rw [Array.size_push]
    exact Nat.lt_succ_of_lt hr
  · rw [Closure.upvalue?, Array.getElem?_setIfInBounds_self_of_lt hc]
    rfl
  · show (Array.setIfInBounds _ _ _)[_]? = _
    rw [Array.getElem?_setIfInBounds_ne (Nat.ne_of_lt hr)]
    exact Heap.allocate_self h _

/-- A new object is in the last cell. -/
theorem ensures_allocate_last {o : Object} {Q : Ref → Machine → Prop} {E : Fault → Machine → Prop}
    (hQ : ∀ d : Machine, m.heap.Thins d.heap → d.heap.cells.size = m.heap.cells.size →
      Q d.heap.cells.size { d with heap := (d.heap.allocate o).1 }) : m.Ensures (allocate o) Q E := by
  simp only [allocate, ensures_bind, ensures_modify, ensures_modifyGet]
  exact hQ _ (thins_collectIfDue _ _) (collectIfDue_size _ _)

/-- The closure of a program holds the table of globals, and no table is new. -/
theorem instantiate_holds {p : Program} {globals : Option Ref}
    (hup : p.prototype.upvalues.size ≠ 0) :
    m.Ensures (instantiate p globals) (fun r m' =>
        Holding r (.table (globals.getD m.globals)) m'.heap ∧ m.heap.TablesOf m'.heap)
      fun _ _ => True := by
  unfold instantiate
  simp only [pin, unpin, ensures_bind, ensures_get, ensures_modify]
  generalize globals.getD m.globals = env
  refine ensures_allocate_last fun d hd hsize => ?_
  have hcount : (Closure.create p.id p.prototype).upvalues.size ≠ 0 := by
    simpa [Closure.create] using hup
  rw [if_pos hcount, ensures_bind]
  refine ensures_allocate_last fun d' hd' hsize' => ?_
  have hpos := Nat.pos_of_ne_zero hcount
  simp only [Closure.setUpvalue, if_pos hpos, modifyHeap]
  have hsize'' : d'.heap.cells.size = d.heap.cells.size + 1 :=
    hsize'.trans (Array.size_push _)
  refine ⟨.fill _ d'.heap (hsize'' ▸ Nat.lt_succ_self _) hpos, ?_⟩
  refine Heap.TablesOf.trans ?_ (Heap.tablesOf_setClosure _ _ _)
  refine Heap.TablesOf.trans ?_ (Heap.tablesOf_allocate _ (by simp))
  refine Heap.TablesOf.trans ?_ hd'.tables
  exact hd.tables.trans (Heap.tablesOf_allocate _ (by simp))

/-! ## The loop until its end -/

/-- The loop ends with the result as soon as it may take more than so many instructions. -/
def Settles (m : Machine) (r : EStateM.Result Fault Machine Nat) : Prop :=
  ∃ k, (∀ fuel ≤ k, ∃ m', (execute fuel).run m = .error .outOfSteps m') ∧
    ∀ fuel, k < fuel → (execute fuel).run m = r

theorem execute_zero (m : Machine) : (execute 0).run m = .error .outOfSteps m := by
  rw [execute]
  rfl

theorem Runs.settles {result : EStateM.Result Fault Machine Nat} (h : Runs k m m')
    (hhalts : Halts m' result) : Settles m result := by
  refine ⟨k, fun fuel hle => ?_, fun fuel hlt => ?_⟩
  · rcases Nat.lt_or_eq_of_le hle with hlt | rfl
    · exact h.before fuel hlt
    · refine ⟨m', ?_⟩
      have hlater := h.later 0
      rw [Nat.zero_add] at hlater
      rw [hlater, execute_zero]
  · obtain ⟨more, rfl⟩ := Nat.exists_eq_add_of_lt hlt
    rw [show k + more + 1 = more + 1 + k by omega, h.later, hhalts]

/-- A machine whose loop goes on for `n` instructions has not ended before. -/
theorem Leads.busy {Q : Machine → Prop} (h : Leads n m Q) {fuel : Nat} (hlt : fuel < n) :
    ∃ m', (execute fuel).run m = .error .outOfSteps m' := by
  obtain ⟨k, m', hle, hruns, -⟩ := h
  exact hruns.before fuel (Nat.lt_of_lt_of_le hlt hle)

theorem Settles.ends {result : EStateM.Result Fault Machine Nat} (h : Settles m result) :
    ∃ fuel, (execute fuel).run m = result := by
  obtain ⟨k, -, hafter⟩ := h
  exact ⟨k + 1, hafter _ (Nat.lt_succ_self k)⟩

theorem Settles.cases {result : EStateM.Result Fault Machine Nat} (h : Settles m result)
    (fuel : Nat) : (∃ m', (execute fuel).run m = .error .outOfSteps m') ∨
      (execute fuel).run m = result := by
  obtain ⟨k, hbefore, hafter⟩ := h
  rcases Nat.lt_or_ge k fuel with hlt | hle
  · exact .inr (hafter fuel hlt)
  · exact .inl (hbefore fuel hle)

/-! ## Calls -/

/-- There is room for a call of a function. -/
structure Room (m : Machine) (p : Prototype) : Prop where
  depth : m.nativeDepth < m.options.maxNativeDepth
  frames : m.frames.size < m.options.maxFrames
  slots : m.top + 1 + p.registers ≤ m.options.maxSlots

theorem enterFromHost_thins (r : Ref) (func : Nat) (args : List Value) :
    m.Ensures (enterFromHost r func args) (fun _ m' => m.heap.Thins m'.heap)
      fun _ _ => True := by
  simp only [enterFromHost, ensures_bind, ensures_ensureStack, ensures_setSlots, ensures_setTop]
  exact ⟨fun _ => trivial, fun _ => enter_thins ..⟩

open Structured in
/-- A closure that is entered is about to perform its first word. -/
theorem enterFromHost_at {v : Value} {tables : Tables} (hready : Ready code m)
    (hc : m.heap.cells[r]? = some (.closure c)) (hframes : m.frames.size < m.options.maxFrames)
    (hslots : m.top + 1 + c.prototype.registers ≤ m.options.maxSlots) (hv : Holding r v m.heap)
    (htables : ∀ (r : Ref) (t : Table), m.heap.cells[r]? = some (.table t) → tables r = t) :
    ∃ (g : Activation) (m₁ : Machine), (enterFromHost r m.top []).run m = .ok () m₁ ∧
      g.frame.prototype = c.prototype ∧ g.frame.destination = m.top ∧ g.At 0 m₁ ∧
      Shows g.frame v tables m₁ := by
  have henter : m.Ensures (enterFromHost r m.top []) (fun _ m₁ => ∃ g : Activation,
      g.frame.closure = r ∧ g.frame.prototype = c.prototype ∧ g.frame.destination = m.top ∧
      g.At 0 m₁) fun _ _ => False := by
    simp only [enterFromHost, ensures_bind, ensures_ensureStack, ensures_setSlots, ensures_setTop,
      List.length_nil]
    refine ⟨fun hsize => by omega, fun hsize => ?_⟩
    have hhas : m.heap.Has (.closure r) := ⟨c, hc⟩
    obtain ⟨hcalling, -⟩ := hready.calling hhas (List.forall_mem_nil _) hsize
    refine ensures_enter hcalling hc (calling_slot _ _ _) (hready.callable _ _)
      (fun p pool hentered => ?_) (fun hover => ?_) fun _ _ hnone => by cases hnone
    · exact ⟨⟨code, ⟨m.frames, m.openUpvalues⟩, enteredFrame r c pool m.top none (extraArguments
        c.prototype m.top (some 0) (m.calling (.closure r) []).stack) true, rfl, rfl,
        fun u hu => Nat.lt_succ_of_lt (hready.opened.below u hu)⟩, rfl, rfl, rfl, hentered, rfl, rfl⟩
    · rcases hover with hover | hover
      · exact Nat.not_lt.mpr hover hframes
      · have hover : m.options.maxSlots < max (m.top + 1 + c.prototype.registers) (m.top + 1 + 0) :=
          hover
        omega
  rcases ensures_iff_run.mp (henter.and (enterFromHost_thins r m.top [])) with
    ⟨_, m₁, hrun, ⟨g, rfl, hproto, hdestination, hat⟩, hthins⟩ | ⟨_, _, _, hfalse, -⟩
  · have hshows : Shows g.frame v tables m := ⟨hv, htables⟩
    exact ⟨g, m₁, hrun, hproto, hdestination, hat, hshows.thins hat hthins⟩
  · exact hfalse.elim

/-- What a call gives depends on the loop that it begins. -/
theorem ensures_call {fuel : Nat} {Q : List Value → Machine → Prop} {E : Fault → Machine → Prop}
    (hdepth : m.nativeDepth < m.options.maxNativeDepth)
    (henter : (enterFromHost r m.top []).run m.deeper = .ok () m₁)
    (hloop : m₁.Ensures (execute fuel) (fun count m' => ∀ m'', m''.heap = m'.heap →
        m''.globals = m'.globals → Q (m'.stack.extract m.top (m.top + count)).toList m'')
      fun e m' => E e m'.shallower) :
    m.Ensures (call (fuel + 1) (.closure r) []) Q E := by
  rw [call_closure]
  refine ensures_guarded (fun hle => absurd hdepth (Nat.not_lt.mpr hle)) fun _ => ?_
  simp only [ensures_bind, ensures_get]
  refine ensures_iff_run.mpr (.inl ⟨(), m₁, henter, ?_⟩)
  refine hloop.mono_ok fun count m' hQ => ?_
  simp only [takeResults, ensures_bind, ensures_slots, ensures_get, ensures_clearStack,
    ensures_setTop, ensures_pure]
  exact hQ _ rfl rfl

/-- Compiles a program text and runs it over a table of globals, which is the machine's own one if
none is given, in so many steps at most. A text that is no program is an error. -/
def runProgram (fuel : Nat) (text name : String) (globals : Option Ref) : Exec (List Value) := do
  match ← compileText text name with
  | .ok p => call fuel (.closure (← instantiate p globals)) []
  | .error e =>
    let message := e.located name
    throw (.script (← newText message) message)

end Machine

namespace Structured

open Machine

variable {m m₁ m₂ : Machine} {text name : String} {program : Block}
  {p : Prototype} {globals : Option Ref} {env : Ref} {tables : Tables} {r : Ref}

/-- What is about to run when the closure of a program is called: the call comes to the first word of
the program, whose upvalue shows the globals. -/
structure Enters (r : Ref) (p : Prototype) (env : Ref) (tables : Tables) (m m₁ : Machine)
    (g : Activation) : Prop where
  room : m.nativeDepth < m.options.maxNativeDepth
  enter : (enterFromHost r m.top []).run m.deeper = .ok () m₁
  prototype : g.frame.prototype = p
  destination : g.frame.destination = m.top
  at' : g.At 0 m₁
  shown : Shows g.frame (.table env) tables m₁

theorem Agrees.of_heap {vs : List Value} (h : Agrees vs tables m) (hheap : m₁.heap = m.heap)
    (hglobals : m₁.globals = m.globals) : Agrees vs tables m₁ where
  values := hheap ▸ h.values
  globals := by rw [hheap, hglobals]; exact h.globals
  tables := hheap ▸ h.tables
  contents := hheap ▸ h.contents

/-- The closure of a program that was just compiled, over a table of globals. -/
structure Instantiated (r : Ref) (p : Prototype) (env : Ref) (m m₂ : Machine) : Prop where
  live : Live m₂
  room : m.Room p → m₂.Room p
  closure : ∃ c, m₂.heap.cells[r]? = some (.closure c) ∧ c.prototype = p
  holds : Holding r (.table env) m₂.heap
  tables : m.heap.TablesOf m₂.heap

theorem instantiate_program (hp : p.Runnable) (hup : p.upvalues.size ≠ 0) (hm : Live m)
    (hglobals : m.heap.Has (.table (globals.getD m.globals))) :
    ({ m with programs := m.programs + 1 } : Machine).Ensures
      (instantiate ⟨⟨m.programs, []⟩, p⟩ globals)
      (fun r m₂ => Instantiated r p (globals.getD m.globals) m m₂) fun _ _ => False := by
  obtain ⟨code, hready⟩ := hm
  have hmade : ({ m with programs := m.programs + 1 } : Machine).Ensures
      (instantiate ⟨⟨m.programs, []⟩, p⟩ globals) (fun r m₂ => Live m₂ ∧
        (m.Room p → m₂.Room p) ∧ ∃ c, m₂.heap.cells[r]? = some (.closure c) ∧ c.prototype = p) fun _ _ => False := by
    refine ensures_instantiate (hready.withProgram hp) (Nat.lt_succ_self _) ?_ hglobals
      fun q r c hq hr hc =>
        ⟨⟨_, hq⟩, fun h => ⟨h.depth, h.frames, h.slots⟩, c, hr, hc⟩
    rw [PrototypeId.prototype?, withProgram, if_pos rfl]
    rfl
  exact (hmade.and (instantiate_holds hup)).mono (fun r m₂ h => ⟨h.1.1, h.1.2.1, h.1.2.2, h.2.1, h.2.2⟩)
    fun _ _ h => h.1

/-- The code is made a closure, whose call begins. -/
theorem exists_enters (hp : p.Runnable) (hup : p.upvalues.size ≠ 0) (hm : Live m) (hroom : m.Room p)
    (hglobals : m.heap.Has (.table (globals.getD m.globals)))
    (htables : ∀ (r : Ref) (t : Table), m.heap.cells[r]? = some (.table t) → tables r = t) :
    ∃ r m₂ m₁ g, Enters r p (globals.getD m.globals) tables m₂ m₁ g ∧
      (instantiate ⟨⟨m.programs, []⟩, p⟩ globals).run { m with programs := m.programs + 1 } =
        .ok r m₂ := by
  rcases ensures_iff_run.mp (instantiate_program hp hup hm hglobals) with
    ⟨r, m₂, hrun, hmade⟩ | ⟨_, _, _, hfalse⟩
  · obtain ⟨hlive, hroom, ⟨c, hc, rfl⟩, hholds, hfrom⟩ := hmade
    have hroom := hroom ‹_›
    obtain ⟨code, hdeeper⟩ := hlive.deeper hroom.depth
    obtain ⟨g, m₁, henter, hproto, hdestination, hat, hshows⟩ :=
      enterFromHost_at hdeeper hc hroom.frames hroom.slots hholds
        fun r t ht => htables r t (hfrom r t ht)
    exact ⟨r, m₂, m₁, g, ⟨hroom.depth, henter, hproto, hdestination, hat, hshows⟩, hrun⟩
  · exact hfalse.elim

/-- How the call of a program begins does not depend on the steps that it may take. -/
theorem runProgram_enters (hcompile : compile text name = .ok p) (hm : Live m) (hroom : m.Room p)
    (hglobals : m.heap.Has (.table (globals.getD m.globals)))
    (htables : ∀ (r : Ref) (t : Table), m.heap.cells[r]? = some (.table t) → tables r = t) :
    ∃ r m₂ m₁ g, Enters r p (globals.getD m.globals) tables m₂ m₁ g ∧
      ∀ fuel, (runProgram fuel text name globals).run m = (call fuel (.closure r) []).run m₂ := by
  obtain ⟨program, hgenerate⟩ := exists_generate hcompile
  obtain ⟨_, _, _, hg⟩ := exists_generation hgenerate
  have hup : p.upvalues.size ≠ 0 := by
    rw [hg.upvalues]
    decide
  obtain ⟨r, m₂, m₁, g, henters, hrun⟩ :=
    exists_enters (compile_runnable hcompile) hup hm hroom hglobals htables
  refine ⟨r, m₂, m₁, g, henters, fun fuel => ?_⟩
  have hcompiled : (compileText text name).run m =
      .ok (.ok ⟨⟨m.programs, []⟩, p⟩) { m with programs := m.programs + 1 } := by
    unfold compileText
    rw [hcompile]
    rfl
  rw [runProgram, EStateM.run_bind, hcompiled]
  show ((instantiate _ globals >>= fun r => call fuel (.closure r) []) : Exec _).run _ = _
  rw [EStateM.run_bind, hrun]

/-- The end of the loop is the end of the program. -/
theorem Enters.returns {g : Activation} {vs : List Value} {T : Tables} (h : Enters r p env tables m m₁ g)
    {m' : Machine} {fuel : Nat}
    (hloop : (execute fuel).run m₁ = .ok vs.length m')
    (hvalues : (m'.stack.extract g.frame.destination (g.frame.destination + vs.length)).toList = vs)
    (hagrees : Agrees vs T m') :
    ∃ m'', (call (fuel + 1) (.closure r) []).run m = .ok vs m'' ∧ Agrees vs T m'' := by
  have hcall : m.Ensures (call (fuel + 1) (.closure r) [])
      (fun vs' m'' => vs' = vs ∧ Agrees vs T m'') fun _ _ => False := by
    refine ensures_call h.room h.enter (ensures_iff_run.mpr (.inl ⟨_, m', hloop, ?_⟩))
    intro m'' hheap hglobals
    rw [← h.destination]
    exact ⟨hvalues, hagrees.of_heap hheap hglobals⟩
  rcases ensures_iff_run.mp hcall with ⟨_, m'', hrun, rfl, hagrees'⟩ | ⟨_, _, _, hfalse⟩
  · exact ⟨m'', hrun, hagrees'⟩
  · exact hfalse.elim

theorem Enters.throws {g : Activation} (h : Enters r p env tables m m₁ g) {e : Fault} {m' : Machine}
    {fuel : Nat} (hloop : (execute fuel).run m₁ = .error e m') :
    ∃ m'', (call (fuel + 1) (.closure r) []).run m = .error e m'' := by
  have hcall : m.Ensures (call (fuel + 1) (.closure r) []) (fun _ _ => False) fun e' _ => e' = e :=
    ensures_call h.room h.enter (ensures_iff_run.mpr (.inr ⟨e, m', hloop, rfl⟩))
  rcases ensures_iff_run.mp hcall with ⟨_, _, _, hfalse⟩ | ⟨_, m'', hrun, rfl⟩
  · exact hfalse.elim
  · exact ⟨m'', hrun⟩

/-- The loop of a program ends with its values and tables, or with an error, or is not done. -/
def Answers (f : Frame) (m : Machine) : Ending → Prop
  | .returned vs T => ∃ m', Settles m (.ok vs.length m') ∧ Agrees vs T m' ∧
      (m'.stack.extract f.destination (f.destination + vs.length)).toList = vs
  | .failed => ∃ v error m', Settles m (.error (.script v error) m')
  | .unfinished => True
  | .next _ | .leave _ => False

theorem Ends.answers {f : Frame} {n : Nat} {e : Ending}
    (h : Ends f (fun _ _ => False) (fun _ _ => False) n m e) : Answers f m e := by
  cases e with
  | next s =>
    obtain ⟨_, _, _, _, hfalse⟩ := h
    exact hfalse
  | leave s =>
    obtain ⟨_, _, _, _, hfalse⟩ := h
    exact hfalse
  | returned vs T =>
    obtain ⟨k, m', -, hruns, m'', hhalts, hvalues, hagrees⟩ := h
    exact ⟨m'', hruns.settles hhalts, hagrees, hvalues⟩
  | failed =>
    obtain ⟨k, m', -, hruns, error, m'', hhalts⟩ := h
    exact ⟨_, error, m'', hruns.settles hhalts⟩
  | unfinished => trivial

/-- What the program comes to, the machine comes to. -/
theorem Enters.reaches {g : Activation} {e : Ending} (h : Enters r p env tables m m₁ g)
    (ha : Answers g.frame m₁ e) :
    (∀ vs T, e = .returned vs T →
      ∃ fuel m', (call fuel (.closure r) []).run m = .ok vs m' ∧ Agrees vs T m') ∧
    (e = .failed →
      ∃ fuel v error m', (call fuel (.closure r) []).run m = .error (.script v error) m') := by
  constructor
  · rintro vs T rfl
    obtain ⟨m', hsettles, hagrees, hvalues⟩ := ha
    obtain ⟨fuel, hloop⟩ := hsettles.ends
    obtain ⟨m'', hcall⟩ := h.returns hloop hvalues hagrees
    exact ⟨fuel + 1, m'', hcall⟩
  · rintro rfl
    obtain ⟨v, error, m', hsettles⟩ := ha
    obtain ⟨fuel, hloop⟩ := hsettles.ends
    obtain ⟨m'', hcall⟩ := h.throws hloop
    exact ⟨fuel + 1, v, error, m'', hcall⟩

/-- What the machine comes to, the program comes to. -/
theorem Enters.reached {g : Activation} {e : Nat → Ending} (h : Enters r p env tables m m₁ g)
    (hends : ∀ n, Ends g.frame (fun _ _ => False) (fun _ _ => False) n m₁ (e n)) (fuel : Nat) :
    (∃ m', (call fuel (.closure r) []).run m = .error .outOfSteps m') ∨
    (∃ n vs T m', e n = .returned vs T ∧ (call fuel (.closure r) []).run m = .ok vs m' ∧
      Agrees vs T m') ∨
    ∃ n v error m', e n = .failed ∧
      (call fuel (.closure r) []).run m = .error (.script v error) m' := by
  cases fuel with
  | zero => exact .inl ⟨m, by rw [call]; rfl⟩
  | succ fuel =>
    have hend := hends (fuel + 1)
    have ha := hend.answers
    cases he : e (fuel + 1) with
    | next s => rw [he] at ha; exact ha.elim
    | leave s => rw [he] at ha; exact ha.elim
    | unfinished =>
      -- as many rounds as there are steps cannot all be done
      rw [he] at hend
      obtain ⟨m', hloop⟩ := Leads.busy hend (Nat.lt_succ_self fuel)
      exact .inl (h.throws hloop)
    | returned vs T =>
      rw [he] at ha
      obtain ⟨m', hsettles, hagrees, hvalues⟩ := ha
      rcases hsettles.cases fuel with ⟨m'', hloop⟩ | hloop
      · exact .inl (h.throws hloop)
      · obtain ⟨m'', hcall, hagrees'⟩ := h.returns hloop hvalues hagrees
        exact .inr (.inl ⟨_, vs, T, m'', he, hcall, hagrees'⟩)
    | failed =>
      rw [he] at ha
      obtain ⟨v, error, m', hsettles⟩ := ha
      rcases hsettles.cases fuel with ⟨m'', hloop⟩ | hloop
      · exact .inl (h.throws hloop)
      · obtain ⟨m'', hcall⟩ := h.throws hloop
        exact .inr (.inr ⟨_, v, error, m'', he, hcall⟩)

/-- A structured program that compiles runs as its tree says. The machine ends with the values of the
program, and what is left of the tables are its tables; it ends with an error if the program does;
and it has no other end. -/
theorem runProgram_correct (hparse : parse text = .ok program) (hprogram : isBlock program = true)
    (hcompile : compile text name = .ok p) (hm : Live m) (hroom : m.Room p)
    (hglobals : m.heap.Has (.table (globals.getD m.globals)))
    (htables : ∀ (r : Ref) (t : Table), m.heap.cells[r]? = some (.table t) → tables r = t) :
    (∀ vs m', (∃ fuel, (runProgram fuel text name globals).run m = .ok vs m') →
      ∃ n T, run n program (globals.getD m.globals) tables = .returned vs T ∧ Agrees vs T m') ∧
    (∀ vs T, (∃ n, run n program (globals.getD m.globals) tables = .returned vs T) →
      ∃ fuel m', (runProgram fuel text name globals).run m = .ok vs m' ∧ Agrees vs T m') ∧
    ((∃ fuel v error m', (runProgram fuel text name globals).run m = .error (.script v error) m') ↔
      ∃ n, run n program (globals.getD m.globals) tables = .failed) ∧
    ∀ fuel e m', (runProgram fuel text name globals).run m = .error e m' →
      e = .outOfSteps ∨ ∃ v error, e = .script v error := by
  obtain ⟨r, m₂, m₁, g, henters, hrun⟩ := runProgram_enters hcompile hm hroom hglobals htables
  have hgenerate : generate program name = .ok p := by
    unfold compile at hcompile
    rw [hparse] at hcompile
    exact hcompile
  have hends := generate_ends hgenerate hprogram henters.prototype henters.at' henters.shown
  simp only [hrun]
  refine ⟨?_, ?_, ⟨?_, ?_⟩, ?_⟩
  · rintro vs m' ⟨fuel, hcall⟩
    rcases henters.reached hends fuel with ⟨_, hcall'⟩ | ⟨n, _, T, _, hn, hcall', hagrees⟩ |
      ⟨_, _, _, _, -, hcall'⟩
    · cases hcall.symm.trans hcall'
    · cases hcall.symm.trans hcall'
      exact ⟨n, T, hn, hagrees⟩
    · cases hcall.symm.trans hcall'
  · rintro vs T ⟨n, hn⟩
    exact (henters.reaches (hends n).answers).1 vs T hn
  · rintro ⟨fuel, v, error, m', hcall⟩
    rcases henters.reached hends fuel with ⟨_, hcall'⟩ | ⟨_, _, _, _, -, hcall', -⟩ |
      ⟨n, _, _, _, hn, -⟩
    · cases hcall.symm.trans hcall'
    · cases hcall.symm.trans hcall'
    · exact ⟨n, hn⟩
  · rintro ⟨n, hn⟩
    exact (henters.reaches (hends n).answers).2 hn
  · intro fuel e m' hcall
    rcases henters.reached hends fuel with ⟨_, hcall'⟩ | ⟨_, _, _, _, -, hcall', -⟩ |
      ⟨_, v, error, _, -, hcall'⟩
    · cases hcall.symm.trans hcall'
      exact .inl rfl
    · cases hcall.symm.trans hcall'
    · cases hcall.symm.trans hcall'
      exact .inr ⟨v, error, rfl⟩

/-! ## A program on a new machine -/

/-- A new machine has no table but that of its globals, which is empty. -/
theorem create_tables (options : Options) (hosts : Array HostFunction) :
    (create options hosts).globals = 0 ∧ ∀ (r : Ref) (t : Table),
      (create options hosts).heap.cells[r]? = some (.table t) → t = {} := by
  have hprepare : ({ options := options, hosts := hosts, threshold := options.initialThreshold } :
      Machine).Ensures prepare (fun _ m => m.globals = 0 ∧ ∀ (r : Ref) (t : Table),
        m.heap.cells[r]? = some (.table t) → t = {}) fun _ _ => False := by
    simp only [prepare, ensures_bind, ensures_modify, ensures_pure]
    refine ensures_allocate_last fun d hd hsize => ?_
    have hglobals : ∀ s, ({ d with
        heap := (d.heap.allocate (.table {})).1, globals := d.heap.cells.size } : Machine).Ensures
        (newText s) (fun _ m => m.globals = d.heap.cells.size) fun _ _ => False := fun s => by
      simp only [newText, ensures_bind, ensures_get, ensures_ite, ensures_modify, ensures_pure]
      refine ⟨fun _ => ?_, fun _ => trivial⟩
      rw [collectIfDue_eq]
      rfl
    refine ((hglobals _).and (newText_thins _)).mono ?_ fun _ _ h => h.1
    rintro _ m ⟨hglobals, hthins⟩
    refine ⟨hglobals.trans hsize, fun r t hr => ?_⟩
    have hold := hthins.tables r t hr
    rw [Heap.allocate_getElem?] at hold
    split at hold
    · cases hold
      rfl
    · have hnone := hd.tables r t hold
      simp at hnone
  unfold Ensures at hprepare
  unfold create
  split at hprepare
  next hrun =>
    rw [hrun]
    exact hprepare
  next => exact hprepare.elim

/-- The program ends with the values nil and true. -/
def Ending.swapped : Ending → Bool
  | .returned [.nil, .bool true] _ => true
  | _ => false

/-- The program takes one round, in which two variables are exchanged. -/
theorem runProgram_correct_exchange : ∃ fuel m',
    (runProgram fuel "local x, y = true while x do x, y = y, x end return x, y" "text" none).run
      (create {} #[]) = .ok [.nil, .bool true] m' := by
  have hparsed : (parse "local x, y = true while x do x, y = y, x end return x, y").toOption.map
      (fun program => (isBlock program, (run 2 program 0 fun _ => {}).swapped)) =
        some (true, true) := by
    decide +kernel
  have hcompiled : (compile "local x, y = true while x do x, y = y, x end return x, y"
      "text").toOption.map (fun p => p.registers) = some 4 := by
    decide +kernel
  cases hparse : parse "local x, y = true while x do x, y = y, x end return x, y" with
  | error e => rw [hparse] at hparsed; cases hparsed
  | ok program =>
    cases hcompile : compile "local x, y = true while x do x, y = y, x end return x, y" "text" with
    | error e => rw [hcompile] at hcompiled; cases hcompiled
    | ok p =>
      rw [hparse] at hparsed
      rw [hcompile] at hcompiled
      obtain ⟨hblock, hresult⟩ := Prod.mk.inj (Option.some.inj hparsed)
      have hregisters : p.registers = 4 := Option.some.inj hcompiled
      obtain ⟨code, hready, hblank⟩ := ready_create {} #[] (by simp)
      obtain ⟨hglobals, htables⟩ := create_tables {} #[]
      have hroom : (create {} #[]).Room p := by
        refine ⟨?_, ?_, ?_⟩
        · rw [hblank.depth, hblank.options]
          decide
        · rw [hblank.frames, hblank.options]
          decide
        · rw [hblank.top, hblank.options, hregisters]
          decide
      have hcorrect := @runProgram_correct _ _ _ _ _ none (fun _ => {}) hparse hblock hcompile
        ⟨code, hready⟩ hroom hready.globals fun r t ht => (htables r t ht).symm
      rw [Option.getD_none, hglobals] at hcorrect
      have hreturned : ∃ T, run 2 program 0 (fun _ => {}) = .returned [.nil, .bool true] T := by
        have hresult : (run 2 program 0 fun _ => {}).swapped = true := hresult
        unfold Ending.swapped at hresult
        split at hresult
        next T hrun => exact ⟨T, hrun⟩
        next => cases hresult
      obtain ⟨T, hrun⟩ := hreturned
      obtain ⟨fuel, m', hdone, -⟩ := hcorrect.2.1 _ T ⟨2, hrun⟩
      exact ⟨fuel, m', hdone⟩

end Structured
end LuaMachine
