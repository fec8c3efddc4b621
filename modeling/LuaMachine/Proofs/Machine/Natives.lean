import LuaMachine.Proofs.Machine.Calls
/-! # Native functions of a sound machine

The functions of the base library keep a machine sound and leave all but its memory as it was. What
they give out is in the heap.

* `Machine.ensures_instantiate`, `Machine.ensures_compileText`: from a text to a closure.
* `Machine.Stays`: a sound machine on which nothing runs that did not run before.
* `Machine.ensures_run`: every function of the base library.
-/
set_option autoImplicit false

namespace LuaMachine

/-! ## More programs -/

/-- The programs with one more. -/
def withProgram (code : Nat → Prototype) (n : Nat) (p : Prototype) : Nat → Prototype :=
  fun k => if k = n then p else code k

theorem withProgram_of_lt {code : Nat → Prototype} {n k : Nat} (hk : k < n) (p : Prototype) :
    withProgram code n p k = code k := if_neg (Nat.ne_of_lt hk)

theorem PrototypeId.prototype?_withProgram {code : Nat → Prototype} {id : PrototypeId} {n : Nat}
    (hid : id.program < n) (p : Prototype) :
    id.prototype? (withProgram code n p) = id.prototype? code := by
  unfold PrototypeId.prototype?
  rw [withProgram_of_lt hid]

namespace Heap

variable {code : Nat → Prototype} {programs : Nat} {opened : List (Nat × Ref)} {pools : Pools}
  {h : Heap}

theorem Sound.withProgram (hs : h.Sound code programs opened pools) (p : Prototype) :
    h.Sound (LuaMachine.withProgram code programs p) (programs + 1) opened pools where
  listed := hs.listed
  interned := hs.interned
  objects r o ho := by
    have hold := hs.objects r o ho
    cases o with
    | closure c =>
      have hc : ClosureSound code programs h c := hold
      refine ⟨Nat.lt_succ_of_lt hc.program, ?_, hc.size, hc.upvalues⟩
      rw [PrototypeId.prototype?_withProgram hc.program]
      exact hc.prototype
    | upvalue u =>
      cases u with
      | opened slot => exact hold
      | closed v => exact hold
    | table t => exact hold
    | dead => trivial
  pools id vs hvs := by
    have hold := hs.pools id vs hvs
    refine ⟨Nat.lt_succ_of_lt hold.program, ?_, hold.has⟩
    rw [PrototypeId.prototype?_withProgram hold.program]
    exact hold.values

end Heap

/-! ## Arguments -/

namespace Argument

variable {f : BaseFunction} {i : Nat} {args : List Value} {v : Value} {r : Ref}

theorem mem_of_any (h : any f i args = .ok v) : v ∈ args := by
  unfold any at h
  split at h
  next hv =>
    cases h
    exact List.mem_of_getElem? hv
  next => cases h

theorem mem_of_table (h : table f i args = .ok r) : .table r ∈ args := by
  unfold table at h
  split at h
  next hv =>
    cases h
    exact List.mem_of_getElem? hv
  next => cases h

end Argument

namespace Library

theorem plain_ofNumber (n : Number) : (Value.ofNumber n).Plain := by
  cases n with
  | int i => trivial
  | float d => trivial

theorem bind_ok {α β : Type} {x : Except RuntimeError α} {f : α → Except RuntimeError β} {b : β}
    (h : x >>= f = .ok b) : ∃ a, x = .ok a ∧ f a = .ok b := by
  cases x with
  | error e => cases h
  | ok a => exact ⟨a, rfl, h⟩

theorem plain_of_tonumber {args : List Value} {v : Value} (h : tonumber args = .ok v) :
    v.Plain := by
  unfold tonumber at h
  obtain ⟨x, -, h⟩ := bind_ok h
  dsimp only at h
  split at h
  · split at h
    · cases h
      trivial
    · cases h
      trivial
    · split at h
      · cases h
        exact plain_ofNumber _
      · cases h
        trivial
    · cases h
      trivial
  · obtain ⟨base, -, h⟩ := bind_ok h
    split at h
    · cases h
    · obtain ⟨digits, -, h⟩ := bind_ok h
      split at h
      · cases h
        trivial
      · cases h
        trivial

theorem mem_of_select {args results : List Value} (h : select args = .ok results) :
    ∀ v ∈ results, v.Plain ∨ v ∈ args := by
  intro v hv
  unfold select at h
  dsimp only at h
  split at h
  · cases h
    rw [List.mem_singleton.mp hv]
    exact .inl trivial
  · obtain ⟨n, -, h⟩ := bind_ok h
    split at h
    · split at h
      · cases h
      · cases h
        exact .inr (List.mem_of_mem_drop hv)
    · split at h
      · cases h
      · cases h
        exact .inr (List.mem_of_mem_drop hv)

end Library

namespace Machine

variable {code : Nat → Prototype} {m m' m'' : Machine} {E : Fault → Machine → Prop}

theorem Ready.withProgram (hm : Ready code m) {p : Prototype} (hp : p.Runnable) :
    Ready (LuaMachine.withProgram code m.programs p) { m with programs := m.programs + 1 } := by
  refine ⟨{ hm with heap := hm.heap.withProgram p, programs := fun n hn => ?_ }, hm.idle⟩
  by_cases heq : n = m.programs
  · rw [LuaMachine.withProgram, if_pos heq]
    exact hp
  · have hlt : n < m.programs := by
      have hn : n < m.programs + 1 := hn
      omega
    rw [withProgram_of_lt hlt]
    exact hm.programs n hlt

/-! ## Closures of programs -/

theorem Ready.withPinned (hm : Ready code m) (vs : List Value) (hvs : ∀ v ∈ vs, m.heap.Has v) :
    Ready code { m with pinned := vs } :=
  ⟨{ hm with pinned := hvs }, hm.idle⟩

theorem ensures_unpin {v : Value} {vs : List Value} {Q : Unit → Machine → Prop}
    (hpinned : m.pinned = v :: vs) (hv : v.rawEq v = true) (hQ : Q () { m with pinned := vs }) :
    m.Ensures (unpin v) Q E := by
  have hrest : (v :: vs).eraseP (fun p => p.rawEq v) = vs := List.eraseP_cons_of_pos hv
  rw [unpin, ensures_modify, hpinned, hrest]
  exact hQ

/-- The pins of an instantiation are removed again. -/
theorem ensures_unpin_both {r env : Ref} {vs : List Value} {Q : Ref → Machine → Prop}
    (hpinned : m.pinned = .closure r :: .table env :: vs) (hQ : Q r { m with pinned := vs }) :
    m.Ensures (do unpin (.closure r); unpin (.table env); return r) Q E := by
  simp only [ensures_bind, ensures_pure]
  refine ensures_unpin hpinned (beq_self_eq_true r) ?_
  exact ensures_unpin rfl (beq_self_eq_true env) hQ

theorem ensures_instantiate {p : Program} {globals : Option Ref} {Q : Ref → Machine → Prop}
    (hm : Ready code m) (hprogram : p.id.program < m.programs)
    (hproto : p.id.prototype? code = some p.prototype)
    (hglobals : m.heap.Has (.table (globals.getD m.globals)))
    (hQ : ∀ q r c, Ready code (m.withMemory q) → q.heap.cells[r]? = some (.closure c) →
      c.prototype = p.prototype → Q r (m.withMemory q)) :
    m.Ensures (instantiate p globals) Q E := by
  unfold instantiate
  simp only [pin, ensures_bind, ensures_get, ensures_modify]
  generalize globals.getD m.globals = env at hglobals ⊢
  have hpinned := hm.withPinned (.table env :: m.pinned)
    (List.forall_mem_cons.mpr ⟨hglobals, hm.pinned⟩)
  refine ensures_allocate hpinned.toSound Object.noConfusion (fun q _ => ?_) fun q hq _ hcell => ?_
  · exact ⟨hprogram, hproto, Array.size_replicate, fun r hr => by
      cases (Array.mem_replicate.mp hr).2⟩
  generalize m.heap.cells.size = r at hcell ⊢
  have hclosure : q.heap.Has (.closure r) := ⟨_, hcell⟩
  have hq : Ready code (({ m with pinned := .table env :: m.pinned } : Machine).withMemory q) :=
    ⟨hq, hm.idle⟩
  have hboth := hq.withPinned (.closure r :: .table env :: m.pinned)
    (List.forall_mem_cons.mpr ⟨hclosure, hq.pinned⟩)
  have hfirst : ∀ q' : Machine, Ready code ({ m.withMemory q with
      pinned := .closure r :: .table env :: m.pinned }.withMemory q') →
      Ready code (m.withMemory q') := fun q' hq' =>
    hq'.withPinned _ fun v hv => hq'.pinned v (List.mem_cons_of_mem _ (List.mem_cons_of_mem _ hv))
  split
  next hsize =>
    rw [ensures_bind]
    refine ensures_allocate hboth.toSound Object.noConfusion (fun q' hq' => ?_)
      fun q' hq' hretains hup => ?_
    · exact hq'.pinned (.table env) (List.mem_cons_of_mem _ List.mem_cons_self)
    · have hthere : q'.heap.Has (.closure r) := hq'.pinned _ List.mem_cons_self
      have hcell' := hretains.closure hcell hthere
      have hfilled := hq'.fillUpvalue (i := 0) (u := some q.heap.cells.size) hcell'
        fun r' hr' => by
          cases hr'
          exact ⟨_, hup⟩
      have hset := Nat.pos_of_ne_zero hsize
      simp only [Closure.setUpvalue, if_pos hset, modifyHeap]
      rw [ensures_bind, ensures_modify]
      refine ensures_unpin_both rfl ?_
      exact hQ { q' with heap := _ } r _ (hfirst { q' with heap := _ } ⟨hfilled, hm.idle⟩)
        (Heap.replaces_set _ hcell').new rfl
  next =>
    refine ensures_unpin_both rfl ?_
    exact hQ q r _ (hfirst q hboth) hcell rfl

/-! ## What a native function leaves -/

theorem Restores.withMemory (m p : Machine) : m.Restores (m.withMemory p) :=
  ⟨(Follows.here m m.top).withMemory, rfl, rfl, rfl⟩

/-- The machine is sound. -/
def Live (m : Machine) : Prop := ∃ code, Ready code m

/-- The machine is sound, and nothing runs on it that did not run before. -/
structure Stays (m m' : Machine) : Prop where
  live : Live m'
  restores : m.Restores m'

/-- A native function goes on with a step that uses only what is there. -/
structure Gives (m : Machine) (next : NativeStep) (m' : Machine) : Prop where
  stays : Stays m m'
  draws : next.Draws m'.heap.Has

/-- A native function fails. -/
structure Stops (m : Machine) (e : Fault) (m' : Machine) : Prop where
  stays : Stays m m'
  held : e.Held m'.heap.Has

theorem Ready.stays (hm : Ready code m) : Stays m m := ⟨⟨code, hm⟩, .refl m⟩

theorem Ready.stays_memory {p : Machine} (hp : Ready code (m.withMemory p)) :
    Stays m (m.withMemory p) :=
  ⟨⟨code, hp⟩, .withMemory m p⟩

theorem Stays.done (hs : Stays m m') {results : List Value}
    (hresults : ∀ v ∈ results, m'.heap.Has v) : Gives m (.done results) m' :=
  ⟨hs, .done hresults⟩

theorem Stays.done_one (hs : Stays m m') {v : Value} (hv : m'.heap.Has v) :
    Gives m (.done [v]) m' :=
  hs.done (List.forall_mem_singleton.mpr hv)

theorem Stays.stops (hs : Stays m m') {e : Fault} (he : e.Held m'.heap.Has) : Stops m e m' :=
  ⟨hs, he⟩

/-! ## The base library -/

theorem headD_has {h : Heap} {args : List Value} (hargs : ∀ v ∈ args, h.Has v) :
    h.Has (args.headD .nil) := by
  cases args with
  | nil => exact h.has_nil
  | cons v rest => exact hargs v List.mem_cons_self

theorem ensures_collectGarbage (hm : Ready code m) (option : String) :
    m.Ensures (do
      if option = "count" then
        return .done [.float (Double.ofRatio false (← get).heap.bytes 1024)]
      else if option = "collect" then
        collectGarbage
        return .done [.int 0]
      else if option = "step" then
        collectGarbage
        return .done [.bool true]
      else raise (Argument.bad .collectgarbage 0 ("invalid option '" ++ option ++ "'")))
      (Gives m) (Stops m) := by
  have hcollected : Ready code (m.withMemory m.collect) := by
    have hsound := hm.toSound.collect
    rw [collect_eq] at hsound
    exact ⟨hsound, hm.idle⟩
  have hcollect : ∀ {v : Value}, v.Plain → m.Ensures (do collectGarbage; return .done [v]) (Gives m)
      (Stops m) := by
    intro v hv
    show Gives m (.done [v]) m.collect
    rw [collect_eq]
    exact hcollected.stays_memory.done_one (Heap.has_plain _ hv)
  split
  · exact hm.stays.done_one trivial
  · split
    · exact hcollect trivial
    · split
      · exact hcollect trivial
      · exact hm.stays.stops trivial

/-- A text is compiled and made a function. -/
theorem ensures_compileText (text name : String)
    {Q : Except CompileError Program → Machine → Prop}
    (hok : ∀ p, compile text name = .ok p → Q (.ok ⟨⟨m.programs, []⟩, p⟩)
      { m with programs := m.programs + 1 })
    (herror : ∀ e, compile text name = .error (.error e) → Q (.error e) m)
    (hdefect : ∀ why, compile text name = .error (.defect why) → E (.defect why) m) :
    m.Ensures (compileText text name) Q E := by
  unfold compileText
  split
  next p hp => exact hok p hp
  next e he => exact herror e he
  next why hwhy => exact hdefect why hwhy

theorem ensures_load (hm : Ready code m) (source name : String) :
    m.Ensures (do
      match ← compileText source name with
      | .ok p => return .done [.closure (← instantiate p none)]
      | .error e => return .done [.nil, ← newText (e.located name)]) (Gives m) (Stops m) := by
  rw [ensures_bind]
  refine ensures_compileText source name (fun p hp => ?_) (fun e _ => ?_)
    fun why _ => hm.stays.stops trivial
  · have hnext := hm.withProgram (compile_runnable hp)
    simp only [ensures_bind]
    refine ensures_instantiate hnext (Nat.lt_succ_self _) ?_ hm.globals fun q r c hq hr _ => ?_
    · rw [PrototypeId.prototype?, withProgram, if_pos rfl]
      rfl
    · refine Stays.done_one ⟨⟨_, hq⟩, ?_⟩ ⟨c, hr⟩
      exact ⟨{ Follows.here m m.top with }, rfl, rfl, rfl⟩
  · simp only [ensures_bind]
    refine ensures_newText hm.toSound fun p hp _ htext => ?_
    refine (Ready.stays_memory ⟨hp, hm.idle⟩).done fun v hv => ?_
    rcases List.mem_cons.mp hv with rfl | hv
    · exact Heap.has_nil _
    · rw [List.mem_singleton.mp hv]
      exact htext

theorem ensures_run (hm : Ready code m) (f : BaseFunction) {args : List Value}
    (hargs : ∀ v ∈ args, m.heap.Has v) : m.Ensures (f.run args) (Gives m) (Stops m) := by
  have hhere := hm.stays
  have hfail : ∀ e : RuntimeError, Stops m (.runtime e) m := fun e => hhere.stops trivial
  unfold BaseFunction.run
  cases f with
  | print =>
    have hwritten : Ready code (m.withMemory { m with
        output := m.output ++ ("\t".intercalate (args.map Value.toText) ++ "\n") }) := ⟨{ hm with }, hm.idle⟩
    exact hwritten.stays_memory.done fun _ hv => by cases hv
  | type =>
    simp only [ensures_bind]
    refine ensures_ofExcept _ (fun v _ => ?_) fun e _ => hfail e
    refine ensures_newText hm.toSound fun p hp _ htext => ?_
    exact (Ready.stays_memory ⟨hp, hm.idle⟩).done_one htext
  | tostring =>
    simp only [ensures_bind]
    refine ensures_ofExcept _ (fun v hv => ?_) fun e _ => hfail e
    split
    · exact hhere.done_one (hargs _ (Argument.mem_of_any hv))
    · rw [ensures_bind]
      refine ensures_newText hm.toSound fun p hp _ htext => ?_
      exact (Ready.stays_memory ⟨hp, hm.idle⟩).done_one htext
  | tonumber =>
    simp only [ensures_bind]
    refine ensures_ofExcept _ (fun v hv => ?_) fun e _ => hfail e
    exact hhere.done_one (m.heap.has_plain (Library.plain_of_tonumber hv))
  | error => exact hhere.stops (headD_has hargs)
  | pcall =>
    simp only [ensures_bind]
    refine ensures_ofExcept _ (fun v hv => ?_) fun e _ => hfail e
    refine ⟨hhere, .protect (hargs _ (Argument.mem_of_any hv))
      (fun w hw => hargs w (List.mem_of_mem_drop hw)) fun P ok results hplain hresults => ?_⟩
    exact .done (List.forall_mem_cons.mpr ⟨hplain _ trivial, hresults⟩)
  | assert =>
    simp only [ensures_bind]
    refine ensures_ofExcept _ (fun v _ => ?_) fun e _ => hfail e
    split
    · split
      next e he => exact hhere.stops (hargs e (List.mem_of_getElem? he))
      next => exact hfail _
    · exact hhere.done hargs
  | select =>
    simp only [ensures_bind]
    refine ensures_ofExcept _ (fun results hresults => ?_) fun e _ => hfail e
    refine hhere.done fun v hv => ?_
    rcases Library.mem_of_select hresults v hv with hplain | hmem
    · exact m.heap.has_plain hplain
    · exact hargs v hmem
  | next =>
    simp only [ensures_bind, ensures_get]
    refine ensures_ofExcept _ (fun r _ => ?_) fun e _ => hfail e
    refine ensures_ofExcept _ (fun entry hentry => ?_) fun e _ => hfail e
    split
    next k v =>
      obtain ⟨hk, hv⟩ := (hm.heap.table r).next (fun v hv => m.heap.has_plain hv) _ hentry
      exact hhere.done (List.forall_mem_cons.mpr ⟨hk, List.forall_mem_singleton.mpr hv⟩)
    next => exact hhere.done_one m.heap.has_nil
  | pairs =>
    simp only [ensures_bind]
    refine ensures_ofExcept _ (fun r hr => ?_) fun e _ => hfail e
    refine hhere.done (List.forall_mem_cons.mpr ⟨trivial, List.forall_mem_cons.mpr ⟨?_, ?_⟩⟩)
    · exact hargs _ (Argument.mem_of_table hr)
    · exact List.forall_mem_singleton.mpr trivial
  | ipairs =>
    simp only [ensures_bind]
    refine ensures_ofExcept _ (fun r hr => ?_) fun e _ => hfail e
    refine hhere.done (List.forall_mem_cons.mpr ⟨trivial, List.forall_mem_cons.mpr ⟨?_, ?_⟩⟩)
    · exact hargs _ (Argument.mem_of_table hr)
    · exact List.forall_mem_singleton.mpr trivial
  | ipairsStep =>
    simp only [ensures_bind, ensures_get]
    refine ensures_ofExcept _ (fun r _ => ?_) fun e _ => hfail e
    refine ensures_ofExcept _ (fun i _ => ?_) fun e _ => hfail e
    have hitem := (hm.heap.table r).getInt m.heap.has_nil (i + 1)
    split
    · exact hhere.done_one m.heap.has_nil
    · exact hhere.done (List.forall_mem_cons.mpr ⟨trivial, List.forall_mem_singleton.mpr hitem⟩)
  | rawequal =>
    simp only [ensures_bind]
    refine ensures_ofExcept _ (fun a _ => ?_) fun e _ => hfail e
    refine ensures_ofExcept _ (fun b _ => ?_) fun e _ => hfail e
    exact hhere.done_one trivial
  | rawget =>
    simp only [ensures_bind, ensures_get]
    refine ensures_ofExcept _ (fun r _ => ?_) fun e _ => hfail e
    refine ensures_ofExcept _ (fun k _ => ?_) fun e _ => hfail e
    exact hhere.done_one ((hm.heap.table r).get m.heap.has_nil k)
  | rawset =>
    simp only [ensures_bind]
    refine ensures_ofExcept _ (fun r hr => ?_) fun e _ => hfail e
    refine ensures_ofExcept _ (fun k hk => ?_) fun e _ => hfail e
    refine ensures_ofExcept _ (fun v hv => ?_) fun e _ => hfail e
    refine ensures_setKey hm.toSound (hargs k (Argument.mem_of_any hk))
      (hargs v (Argument.mem_of_any hv)) (fun heap hheap hgrows => ?_) hfail
    refine Stays.done_one ⟨⟨code, hheap, hm.idle⟩, ?_⟩
      (hgrows.has (hargs _ (Argument.mem_of_table hr)))
    exact ⟨(Follows.here m m.top).withHeap heap, rfl, rfl, rfl⟩
  | rawlen =>
    dsimp only
    split
    · exact hhere.done_one trivial
    · exact hhere.done_one trivial
    · exact hfail _
  | collectgarbage =>
    dsimp only
    split
    · exact ensures_collectGarbage hm "collect"
    · rw [ensures_bind]
      refine ensures_ofExcept _ (fun option _ => ?_) fun e _ => hfail e
      exact ensures_collectGarbage hm option
  | load =>
    simp only [ensures_bind]
    refine ensures_ofExcept _ (fun source _ => ?_) fun e _ => hfail e
    rw [← ensures_bind]
    exact ensures_load hm source _

end Machine
end LuaMachine
