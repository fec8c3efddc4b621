import LuaMachine.Machine.Embedding
import LuaMachine.Proofs.Machine.Natives
/-! # New machines

A new machine is sound, and so it is with the base library and the functions of the embedder.

* `Machine.ready_create`: a machine with an empty table of globals.
* `Machine.ensures_openBase`, `Machine.ensures_openHosts`: functions become global.
-/
set_option autoImplicit false

namespace LuaMachine
namespace Machine

variable {code : Nat → Prototype} {m m' m'' : Machine} {E : Fault → Machine → Prop}
  {options : Options}

/-! ## An empty machine -/

theorem collectIfDue_heap (hm : m.heap.Sound code m.programs m.openUpvalues m.pools) (size : Nat) :
    (m.collectIfDue size).heap.Sound code m.programs m.openUpvalues (m.collectIfDue size).pools := by
  unfold collectIfDue
  split
  · rw [(collect_frame m).1, (collect_frame m).2.1]
    exact hm.collect m.roots
  · exact hm

theorem collectIfDue_globals (hm : m.heap.Has (.table m.globals)) (size : Nat) :
    (m.collectIfDue size).heap.Has (.table m.globals) := by
  unfold collectIfDue
  split
  · refine has_collect hm fun n hn => ?_
    obtain rfl := Option.some.inj hn
    exact .globals
  · exact hm

theorem heap_empty (code : Nat → Prototype) : Heap.Sound code 0 [] {} {} where
  listed := ⟨List.nodup_nil, fun r => by simp [Heap.isLiving_iff]⟩
  interned := Heap.interned_empty
  objects r o ho := by simp at ho
  pools id vs hvs := by simp at hvs

/-- Nothing has run on the machine. -/
structure Blank (options : Options) (m : Machine) : Prop where
  options : m.options = options
  stack : m.stack = #[]
  top : m.top = 0
  frames : m.frames = #[]
  opened : m.openUpvalues = []
  depth : m.nativeDepth = 0
  pinned : m.pinned = []
  filling : m.filling = #[]
  programs : m.programs = 0
  hosts : ∀ f ∈ m.hosts, HostFunction.Honest f

theorem Blank.ready (hb : Blank options m)
    (hheap : m.heap.Sound code m.programs m.openUpvalues m.pools)
    (hglobals : m.heap.Has (.table m.globals)) (htext : m.heap.Has (.str outOfMemoryText)) :
    Ready code m where
  heap := hheap
  stack := by
    rw [hb.stack, hb.top]
    exact ⟨by simp, Nat.le_refl 0, Nat.zero_le _, by simp⟩
  frames := by
    rw [hb.frames]
    exact ⟨by simp, by simp, by simp⟩
  opened := by
    rw [hb.opened]
    exact ⟨.nil, by simp, by simp, by simp, by simp⟩
  programs := by simp [hb.programs]
  frameCount := by simp [hb.frames]
  depth := by simp [hb.depth]
  globals := hglobals
  memoryText := htext
  filling := by simp [hb.filling]
  pinned := by simp [hb.pinned]
  hosts := hb.hosts
  idle := hb.filling

/-- With the text of the memory error the machine is sound. -/
theorem Blank.ensures_memoryText {Q : Value → Machine → Prop} (hb : Blank options m)
    (hheap : m.heap.Sound code m.programs m.openUpvalues m.pools)
    (hglobals : m.heap.Has (.table m.globals)) (hQ : ∀ m v, Ready code m → Blank options m → Q v m) :
    m.Ensures (newText outOfMemoryText) Q E := by
  simp only [newText, ensures_bind, ensures_get, ensures_ite, ensures_modify, ensures_pure]
  refine ⟨fun hmissing => ?_, fun hthere => hQ _ _ (hb.ready hheap hglobals ?_) hb⟩
  · have hdue := collectIfDue_heap hheap Heap.textHead
    have hglobals' := collectIfDue_globals hglobals Heap.textHead
    have heq := collectIfDue_eq m Heap.textHead
    have hnew : outOfMemoryText ∉ (m.collectIfDue Heap.textHead).heap.texts := fun hs => by
      simp [Std.HashMap.contains_iff_mem.mpr (mem_texts_of_collectIfDue hs)] at hmissing
    generalize m.collectIfDue Heap.textHead = d at hdue hglobals' heq hnew ⊢
    rw [heq]
    have hadded : Blank options { m.withMemory d with heap := d.heap.addText outOfMemoryText } :=
      { hb with }
    exact hQ _ _ (hadded.ready (hdue.addText hnew) ((Heap.addText_grows _ _).has hglobals')
      (Heap.mem_addText _ _)) hadded
  · exact Std.HashMap.contains_iff_mem.mp (by simpa using hthere)

/-- The table of globals is made first. -/
theorem Blank.ensures_prepare {Q : Unit → Machine → Prop} (hb : Blank options m)
    (hheap : m.heap.Sound code m.programs m.openUpvalues m.pools)
    (hQ : ∀ m, Ready code m → Blank options m → Q () m) : m.Ensures prepare Q E := by
  simp only [prepare, allocate, ensures_bind, ensures_modify, ensures_modifyGet, ensures_pure]
  have hdue := collectIfDue_heap hheap (Heap.headSize (.table {}))
  have heq := collectIfDue_eq m (Heap.headSize (.table {}))
  generalize m.collectIfDue (Heap.headSize (.table {})) = d at hdue heq ⊢
  rw [heq]
  refine Blank.ensures_memoryText ?_ (hdue.allocate Object.noConfusion Table.Holds.empty)
    ⟨_, Heap.allocate_self d.heap _⟩ fun m _ hm hb => hQ m hm hb
  exact { hb with }

theorem ready_create (options : Options) (hosts : Array HostFunction)
    (hhosts : ∀ f ∈ hosts, HostFunction.Honest f) :
    ∃ code, Ready code (create options hosts) ∧ Blank options (create options hosts) := by
  have h : ({ options := options, hosts := hosts, threshold := options.initialThreshold } :
      Machine).Ensures prepare (fun _ m => ∃ code, Ready code m ∧ Blank options m)
      fun _ _ => False :=
    Blank.ensures_prepare ⟨rfl, rfl, rfl, rfl, rfl, rfl, rfl, rfl, rfl, hhosts⟩
      (heap_empty fun _ => default) fun m hm hb => ⟨_, hm, hb⟩
  unfold Ensures at h
  unfold create
  split at h
  next hrun =>
    rw [hrun]
    exact h
  next => exact h.elim

/-! ## Globals -/

theorem ensures_setKey_text {r : Ref} {name : String} {v : Value} {Q : Unit → Machine → Prop}
    (hm : Ready code m) (hname : m.heap.Has (.str name)) (hv : m.heap.Has v)
    (hQ : ∀ h, Ready code { m with heap := h } → Q () { m with heap := h }) :
    m.Ensures (setKey r (.str name) v) Q E := by
  show Q () { m with heap := m.heap.modifyTable r fun t => t.setKey (.str name) v }
  exact hQ _ ⟨hm.toSound.setKey r (k := .str name) hname hv, hm.idle⟩

/-- A value that equals itself becomes global. -/
theorem ensures_setGlobal {name : String} {v : Value} {Q : Unit → Machine → Prop}
    (hm : Ready code m) (hv : m.heap.Has v) (hself : v.rawEq v = true)
    (hQ : ∀ m', Ready code m' → m.Restores m' → Q () m') : m.Ensures (setGlobal name v) Q E := by
  simp only [setGlobal, pin, ensures_bind, ensures_modify, ensures_get]
  have hpinned := hm.withPinned _ (List.forall_mem_cons.mpr ⟨hv, hm.pinned⟩)
  refine ensures_newText hpinned.toSound fun p hp _ hname => ?_
  have hkept : p.heap.Has v := hp.pinned v List.mem_cons_self
  have hunpinned : Ready code (m.withMemory p) :=
    Ready.withPinned ⟨hp, hm.idle⟩ _ fun w hw => hp.pinned w (List.mem_cons_of_mem v hw)
  refine ensures_unpin rfl hself ?_
  refine ensures_setKey_text hunpinned hname hkept fun h hh => hQ _ hh ?_
  exact ⟨{ Follows.here m m.top with }, rfl, rfl, rfl⟩

theorem ensures_registered {fs : List BaseFunction} {Q : Unit → Machine → Prop}
    (hm : Ready code m) (hQ : ∀ m', Ready code m' → m.Restores m' → Q () m') :
    m.Ensures (fs.forM fun f => setGlobal f.name (.native (.base f))) Q E := by
  induction fs generalizing m with
  | nil => exact hQ m hm (.refl m)
  | cons f rest ih =>
    show m.Ensures (do
      setGlobal f.name (.native (.base f))
      rest.forM fun f => setGlobal f.name (.native (.base f))) Q E
    rw [ensures_bind]
    refine ensures_setGlobal hm trivial (beq_self_eq_true _) fun m' hm' hr => ?_
    exact ih hm' fun m'' hm'' hr' => hQ m'' hm'' (hr.trans hr')

theorem ensures_openBase {Q : Unit → Machine → Prop} (hm : Ready code m)
    (hQ : ∀ m', Ready code m' → m.Restores m' → Q () m') : m.Ensures openBase Q E := by
  rw [openBase, ensures_bind]
  refine ensures_registered hm fun m' hm' hr => ?_
  simp only [ensures_bind, ensures_get]
  refine ensures_newText hm'.toSound fun p hp _ hname => ?_
  refine ensures_setKey_text ⟨hp, hm'.idle⟩ hname hp.globals fun h hh => hQ _ hh ?_
  exact hr.trans ⟨{ Follows.here m' m'.top with }, rfl, rfl, rfl⟩

theorem ensures_openHosts {i : Nat} {names : List String} {Q : Unit → Machine → Prop}
    (hm : Ready code m) (hQ : ∀ m', Ready code m' → m.Restores m' → Q () m') :
    m.Ensures (openHosts i names) Q E := by
  induction names generalizing m i with
  | nil => exact hQ m hm (.refl m)
  | cons name rest ih =>
    rw [openHosts, ensures_bind]
    refine ensures_setGlobal hm trivial (beq_self_eq_true _) fun m' hm' hr => ?_
    exact ih hm' fun m'' hm'' hr' => hQ m'' hm'' (hr.trans hr')

end Machine
end LuaMachine
