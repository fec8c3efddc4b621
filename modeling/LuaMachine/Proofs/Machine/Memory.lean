import LuaMachine.Proofs.Machine.Slots
/-! # Memory of a sound machine

Collections, new objects and new texts keep a machine sound. Each of them may collect, so of what the
heap had before only that is sure to be there afterwards which is in use.

* `Machine.withMemory`: a machine with the memory of another one.
* `Machine.Sound.collectIfDue`: a collection, if it is due.
* `Machine.ensures_allocate`, `Machine.ensures_newText`, `Machine.ensures_setKey`.
-/
set_option autoImplicit false

namespace LuaMachine
namespace Machine

/-- The machine with the heap of another one and with what is written when that is collected. -/
def withMemory (m p : Machine) : Machine :=
  { m with
    heap := p.heap
    pools := p.pools
    threshold := p.threshold
    collections := p.collections
    output := p.output
    errors := p.errors }

variable {code : Nat → Prototype} {m m₀ p : Machine} {k limit : Nat}

theorem Follows.withMemory (hf : m₀.Follows k limit m) : m₀.Follows k limit (m.withMemory p) :=
  { hf with }

/-! ## Collections -/

theorem collect_eq (m : Machine) : m.collect = m.withMemory m.collect := by
  unfold collect report
  dsimp only
  split
  · rfl
  · split
    · rfl
    · rfl

theorem reachable_root {n : Heap.Item} (hroot : m.Root n) :
    Heap.Reachable m.heap m.pools m.roots n := (reaches_iff m n).mp (.root hroot)

/-- What the heap of a machine has of the values in use, it has after a collection. -/
theorem has_collect {v : Value} (hv : m.heap.Has v) (hroot : ∀ n, v.item? = some n → m.Root n) :
    m.collect.heap.Has v := by
  rw [(collect_frame m).1]
  exact hv.collect fun n hn => reachable_root (hroot n hn)

theorem cell_collect {r : Ref} {o : Object} (ho : m.heap.cells[r]? = some o)
    (hroot : m.Root (.place r)) : m.collect.heap.cells[r]? = some o := by
  rw [(collect_frame m).1]
  exact (Heap.collect_cell _ _ _ (reachable_root hroot)).trans ho

theorem Sound.collect (hm : Sound code m) : Sound code m.collect := by
  have hheap := hm.heap.collect m.roots
  rw [← (collect_frame m).1, ← (collect_frame m).2.1] at hheap
  rw [collect_eq]
  refine { hm with heap := hheap, stack := ?_, frames := ?_, opened := ?_, globals := ?_,
                   memoryText := ?_, filling := ?_, pinned := ?_ }
  · refine { hm.stack with has := fun v hv => ?_ }
    obtain ⟨i, hi⟩ := Array.mem_iff_getElem?.mp hv
    by_cases hlt : i < m.top
    · exact has_collect (hm.stack.has v hv) fun n hn => .slot hlt hi hn
    · obtain rfl := hm.stack.clear i v (Nat.le_of_not_lt hlt) hi
      exact Heap.has_nil _
  · refine { hm.frames with each := fun f hf => ?_ }
    have hframe := hm.frames.each f hf
    obtain ⟨c, hc, hid, hproto⟩ := hframe.closure
    refine { hframe with closure := ?_, constants := ?_, extra := fun v hv => ?_ }
    · exact ⟨c, cell_collect hc (.running hf), hid, hproto⟩
    · show m.collect.pools[f.id]? = some f.constants
      rw [(collect_frame m).2.1]
      exact (Heap.collect_pool_iff _ _ _ _ _).mpr
        ⟨hframe.constants, _, c, reachable_root (.running hf), hc, hid⟩
    · exact has_collect (hframe.extra v hv) fun n hn => .extra hf hv hn
  · exact { hm.opened with cell := fun u hu => cell_collect (hm.opened.cell u hu) (.openUpvalue hu) }
  · refine has_collect hm.globals fun n hn => ?_
    obtain rfl := Option.some.inj hn
    exact .globals
  · refine has_collect hm.memoryText fun n hn => ?_
    obtain rfl := Option.some.inj hn
    exact .memoryError
  · exact fun v hv => has_collect (hm.filling v hv) fun n hn => .filling hv hn
  · exact fun v hv => has_collect (hm.pinned v hv) fun n hn => .pinned hv hn

theorem collectIfDue_eq (m : Machine) (size : Nat) :
    m.collectIfDue size = m.withMemory (m.collectIfDue size) := by
  unfold collectIfDue
  split
  · exact collect_eq m
  · rfl

theorem Sound.collectIfDue (hm : Sound code m) (size : Nat) : Sound code (m.collectIfDue size) := by
  unfold Machine.collectIfDue
  split
  · exact hm.collect
  · exact hm

theorem collectIfDue_size (m : Machine) (size : Nat) :
    (m.collectIfDue size).heap.cells.size = m.heap.cells.size := by
  unfold collectIfDue
  split
  · rw [(collect_frame m).1]
    exact Heap.collect_size _ _ _
  · rfl

theorem Sound.collectIfDue_retains (hm : Sound code m) (size : Nat) :
    m.heap.Retains (m.collectIfDue size).heap := by
  unfold Machine.collectIfDue
  split
  · rw [(collect_frame m).1]
    exact Heap.collect_retains hm.heap.listed
  · exact .refl m.heap

/-- A collection makes no text. -/
theorem mem_texts_of_collectIfDue {s : String} {size : Nat}
    (hs : s ∈ (m.collectIfDue size).heap.texts) : s ∈ m.heap.texts := by
  unfold Machine.collectIfDue at hs
  split at hs
  · rw [(collect_frame m).1, Heap.collect_texts_iff] at hs
    exact hs.1
  · exact hs

/-! ## Changes of the heap -/

/-- The heap of a sound machine grows, and upvalues are opened or closed. -/
theorem Sound.grows (hm : Sound code m) {h : Heap} {opened : List (Nat × Ref)}
    (hg : m.heap.Grows h) (hh : h.Sound code m.programs opened m.pools)
    (hopen : OpenSound h m.top m.frames opened) :
    Sound code { m with heap := h, openUpvalues := opened } where
  heap := hh
  stack := hm.stack.mono fun _ hv => hg.has hv
  frames := by
    refine { hm.frames with each := fun f hf => ?_ }
    have hframe := hm.frames.each f hf
    obtain ⟨c, hc, hid, hproto⟩ := hframe.closure
    obtain ⟨c', hc', hid', hproto'⟩ := hg.closure _ c hc
    exact { hframe with
      closure := ⟨c', hc', hid'.trans hid, hproto'.trans hproto⟩
      extra := fun v hv => hg.has (hframe.extra v hv) }
  opened := hopen
  programs := hm.programs
  frameCount := hm.frameCount
  depth := hm.depth
  globals := hg.has hm.globals
  memoryText := hg.has hm.memoryText
  filling v hv := hg.has (hm.filling v hv)
  pinned v hv := hg.has (hm.pinned v hv)
  hosts := hm.hosts

theorem Follows.withHeap (hf : m₀.Follows k limit m) (h : Heap) :
    m₀.Follows k limit { m with heap := h } := { hf with }

variable {E : Fault → Machine → Prop}

/-- A new object of which nothing is known but what it leads to. -/
theorem ensures_allocate {o : Object} {Q : Ref → Machine → Prop} (hm : Sound code m)
    (hne : o ≠ .dead)
    (ho : ∀ p, Sound code (m.withMemory p) →
      p.heap.ObjectSound code m.programs m.openUpvalues p.heap.cells.size o)
    (hQ : ∀ p, Sound code (m.withMemory p) → m.heap.Retains p.heap →
      p.heap.cells[m.heap.cells.size]? = some o → Q m.heap.cells.size (m.withMemory p)) :
    m.Ensures (allocate o) Q E := by
  have hdue := hm.collectIfDue (Heap.headSize o)
  have hretains := hm.collectIfDue_retains (Heap.headSize o)
  have heq := collectIfDue_eq m (Heap.headSize o)
  have hsize := collectIfDue_size m (Heap.headSize o)
  simp only [allocate, ensures_bind, ensures_modify, ensures_modifyGet]
  generalize m.collectIfDue (Heap.headSize o) = d at hdue heq hsize hretains ⊢
  rw [heq] at hdue
  have hnew := ho d hdue
  have hgrows := Heap.allocate_grows d.heap o
  have hsound := hdue.grows hgrows
    (hdue.heap.allocate hne (Heap.ObjectSound.grows hnew hgrows))
    { hdue.opened with cell := fun u hu => Heap.allocate_of_some (hdue.opened.cell u hu) }
  rw [hsize, heq]
  refine hQ { d with heap := (d.heap.allocate o).1 } hsound
    (hretains.trans (Heap.allocate_retains d.heap o)) ?_
  rw [← hsize]
  exact Heap.allocate_self d.heap o

theorem ensures_newText {s : String} {Q : Value → Machine → Prop} (hm : Sound code m)
    (hQ : ∀ p, Sound code (m.withMemory p) → m.heap.Retains p.heap → p.heap.Has (.str s) →
      Q (.str s) (m.withMemory p)) : m.Ensures (newText s) Q E := by
  simp only [newText, ensures_bind, ensures_get, ensures_ite, ensures_modify, ensures_pure]
  refine ⟨fun hmissing => ?_, fun hthere => ?_⟩
  · have hdue := hm.collectIfDue Heap.textHead
    have heq := collectIfDue_eq m Heap.textHead
    have hretains := hm.collectIfDue_retains Heap.textHead
    have hnew : s ∉ (m.collectIfDue Heap.textHead).heap.texts := fun hs => by
      simp [Std.HashMap.contains_iff_mem.mpr (mem_texts_of_collectIfDue hs)] at hmissing
    generalize m.collectIfDue Heap.textHead = d at hdue heq hretains hnew ⊢
    rw [heq] at hdue ⊢
    exact hQ { d with heap := d.heap.addText s }
      (hdue.grows (Heap.addText_grows d.heap s) (hdue.heap.addText hnew)
        { hdue.opened with cell := hdue.opened.cell })
      ⟨hretains.size, hretains.cell⟩ (Heap.mem_addText d.heap s)
  · refine hQ m hm (.refl m.heap) (Std.HashMap.contains_iff_mem.mp ?_)
    simpa using hthere

theorem ensures_newTable {Q : Value → Machine → Prop} (hm : Sound code m)
    (hQ : ∀ p r, Sound code (m.withMemory p) → p.heap.Has (.table r) →
      Q (.table r) (m.withMemory p)) : m.Ensures newTable Q E := by
  rw [newTable, ensures_bind]
  refine ensures_allocate hm Object.noConfusion (fun _ _ => Table.Holds.empty)
    fun p hp _ hcell => ?_
  exact hQ p _ hp ⟨_, hcell⟩

/-! ## Tables -/

theorem ensures_index {object key : Value} {Q : Value → Machine → Prop} (hm : Sound code m)
    (hQ : ∀ v, m.heap.Has v → Q v m) (hE : ∀ e, E (.runtime e) m) :
    m.Ensures (index object key) Q E := by
  unfold index
  split
  next r => exact hQ _ ((hm.heap.table r).get (Heap.has_nil _) key)
  next => exact hE _

theorem Sound.setKey (hm : Sound code m) (r : Ref) {k : Key} {v : Value}
    (hk : m.heap.Has k.value) (hv : m.heap.Has v) :
    Sound code { m with heap := m.heap.modifyTable r fun t => t.setKey k v } := by
  obtain ⟨hsound, hgrows⟩ := hm.heap.setKey (r := r) hk hv
  refine hm.grows hgrows hsound { hm.opened with cell := fun u hu => ?_ }
  have hcell := hm.opened.cell u hu
  by_cases hr : ∃ t, m.heap.cells[r]? = some (.table t)
  · obtain ⟨t, ht⟩ := hr
    rcases (Heap.modifyTable_replaces (fun t => t.setKey k v) ht).of_some hcell with hc | ⟨-, hc⟩
    · exact hc
    · cases hc
  · rw [Heap.modifyTable_eq_self _ fun t ht => hr ⟨t, ht⟩]
    exact hcell

theorem ensures_setKey {r : Ref} {key value : Value} {Q : Unit → Machine → Prop}
    (hm : Sound code m) (hkey : m.heap.Has key) (hvalue : m.heap.Has value)
    (hQ : ∀ h, Sound code { m with heap := h } → m.heap.Grows h → Q () { m with heap := h })
    (hE : ∀ e, E (.runtime e) m) : m.Ensures (setKey r key value) Q E := by
  unfold setKey
  cases hk : Table.assignable key with
  | error e => exact hE e
  | ok k =>
    have hkvalue : m.heap.Has k.value :=
      Table.holds_assignable (fun v hv => m.heap.has_plain hv) hkey hk
    exact hQ _ (hm.setKey r hkvalue hvalue) (hm.heap.setKey hkvalue hvalue).2

theorem ensures_setIndex {object key value : Value} {Q : Unit → Machine → Prop}
    (hm : Sound code m) (hkey : m.heap.Has key) (hvalue : m.heap.Has value)
    (hQ : ∀ h, Sound code { m with heap := h } → Q () { m with heap := h })
    (hE : ∀ e, E (.runtime e) m) : m.Ensures (setIndex object key value) Q E := by
  unfold setIndex
  split
  next r => exact ensures_setKey hm hkey hvalue (fun h hs _ => hQ h hs) hE
  next => exact hE _

end Machine
end LuaMachine
