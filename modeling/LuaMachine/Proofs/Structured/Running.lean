import LuaMachine.Proofs.Machine.Frames
import LuaMachine.Proofs.Machine.Stepping
/-! # A function that runs on its own

A machine that performs the words of one function, none of whose variables is captured: where it is,
what its registers hold, and what may happen to the heap behind it.

* `Machine.At`: the machine is about to perform a word of the function.
* `Machine.reg`, `Machine.Sets`, `Machine.Spares`: the registers, what a word puts into them, and
  what is left as it was.
* `Heap.Thins`: nothing in the heap is changed, but something may be gone.
* `Machine.At.goes`, `Machine.At.fails`: what comes of a word.
* `Machine.Shows`: the variable `_ENV` and the tables, as the heap has them.
-/
set_option autoImplicit false

namespace LuaMachine

/-- What is left of the heap is as it was. -/
def Heap.Thins (h h' : Heap) : Prop :=
  ∀ (r : Ref) (o : Object), h'.cells[r]? = some o → o ≠ .dead → h.cells[r]? = some o

theorem Heap.Thins.refl (h : Heap) : h.Thins h := fun _ _ ho _ => ho

theorem Heap.Thins.trans {h h' h'' : Heap} (ht : h.Thins h') (ht' : h'.Thins h'') : h.Thins h'' :=
  fun r o ho hne => ht r o (ht' r o ho hne) hne

namespace Machine

/-! ## The running function -/

/-- What a function leaves alone while it calls nothing: the frames below its own, and which
upvalues are open. -/
structure Surroundings where
  frames : Array Frame
  opened : List (Nat × Ref)

/-- The machine is about to perform the word at `pc` in the frame `f`, in these surroundings. -/
structure At (code : Nat → Prototype) (outer : Surroundings) (f : Frame) (pc : Nat) (m : Machine) :
    Prop where
  ready : Ready code m
  frames : m.frames = outer.frames.push { f with next := pc }
  opened : m.openUpvalues = outer.opened

/-- The value of a register. -/
def reg (f : Frame) (i : Nat) (m : Machine) : Value := m.stack.getD (f.base + i) .nil

/-- The slots below the registers of a frame hold what they held. -/
def Under (f : Frame) (m m' : Machine) : Prop :=
  ∀ n < f.base, m'.stack.getD n .nil = m.stack.getD n .nil

/-- The registers from `a` on hold these values now, the others what they held before; and nothing
in the heap is changed. -/
structure Sets (f : Frame) (a : Nat) (vs : List Value) (m m' : Machine) : Prop where
  heap : m.heap.Thins m'.heap
  reg : ∀ j, m'.reg f j = if j < a then m.reg f j else (vs[j - a]?).getD (m.reg f j)
  under : Under f m m'

/-- The registers below `t` hold what they held, and nothing in the heap is changed. -/
structure Spares (f : Frame) (t : Nat) (m m' : Machine) : Prop where
  heap : m.heap.Thins m'.heap
  reg : ∀ j < t, m'.reg f j = m.reg f j
  under : Under f m m'

variable {code : Nat → Prototype} {outer : Surroundings} {f : Frame} {pc a n t t' : Nat}
  {m m' m'' : Machine} {v : Value} {vs : List Value} {i : Instruction} {Q : Machine → Prop}

theorem Under.refl (f : Frame) (m : Machine) : Under f m m := fun _ _ => rfl

theorem Under.trans (h : Under f m m') (h' : Under f m' m'') : Under f m m'' :=
  fun n hn => (h' n hn).trans (h n hn)

theorem Sets.refl (f : Frame) (a : Nat) (m : Machine) : Sets f a [] m m :=
  ⟨.refl _, by simp, .refl f m⟩

/-- What comes before the registers are set may change anything but the slots. -/
theorem Sets.after (h : Sets f a vs m' m'') (hstack : m'.stack = m.stack)
    (hheap : m.heap.Thins m'.heap) : Sets f a vs m m'' := by
  refine ⟨hheap.trans h.heap, fun j => ?_, fun n hn => ?_⟩
  · rw [h.reg, Machine.reg, Machine.reg, hstack]
  · rw [h.under n hn, hstack]

theorem Sets.of_eq (h : Sets f a vs m' m'') (hstack : m'.stack = m.stack)
    (hheap : m'.heap = m.heap) : Sets f a vs m m'' :=
  h.after hstack (hheap ▸ .refl _)

theorem Sets.get (h : Sets f a vs m m') {j : Nat} (hj : vs[j]? = some v) :
    m'.reg f (a + j) = v := by
  rw [h.reg, if_neg (by omega), Nat.add_sub_cancel_left, hj]
  rfl

theorem Sets.at (h : Sets f a [v] m m') : m'.reg f a = v := h.get (j := 0) rfl

theorem Sets.below (h : Sets f a vs m m') {j : Nat} (hj : j < a) : m'.reg f j = m.reg f j := by
  rw [h.reg, if_pos hj]

theorem Sets.other (h : Sets f a [v] m m') {j : Nat} (hj : j ≠ a) : m'.reg f j = m.reg f j := by
  rw [h.reg]
  split
  · rfl
  · rw [List.getElem?_eq_none (by simp; omega)]
    rfl

/-- The register is set again. -/
theorem Sets.again {w : Value} (h : Sets f a [v] m m') (h' : Sets f a [w] m' m'') :
    Sets f a [w] m m'' := by
  refine ⟨h.heap.trans h'.heap, fun j => ?_, h.under.trans h'.under⟩
  rw [h'.reg]
  by_cases hj : j < a
  · rw [if_pos hj, if_pos hj, h.below hj]
  · rw [if_neg hj, if_neg hj]
    by_cases heq : j = a
    · simp [heq]
    · rw [h.other heq]

namespace Spares

theorem refl (f : Frame) (t : Nat) (m : Machine) : Spares f t m m :=
  ⟨.refl _, fun _ _ => rfl, .refl f m⟩

theorem trans (h : Spares f t m m') (h' : Spares f t m' m'') : Spares f t m m'' :=
  ⟨h.heap.trans h'.heap, fun j hj => (h'.reg j hj).trans (h.reg j hj), h.under.trans h'.under⟩

theorem weaken (h : Spares f t m m') (ht : t' ≤ t) : Spares f t' m m' :=
  ⟨h.heap, fun j hj => h.reg j (Nat.lt_of_lt_of_le hj ht), h.under⟩

theorem of_eq (hstack : m'.stack = m.stack) (hheap : m'.heap = m.heap) : Spares f t m m' := by
  refine ⟨hheap ▸ .refl _, fun j _ => ?_, fun n _ => ?_⟩
  · rw [Machine.reg, hstack]
    rfl
  · rw [hstack]

end Spares

theorem Sets.spares (h : Sets f a vs m m') (ht : t ≤ a) : Spares f t m m' :=
  ⟨h.heap, fun _ hj => h.below (Nat.lt_of_lt_of_le hj ht), h.under⟩

theorem modify_push (outer : Array Frame) (g : Frame) (h : Frame → Frame) :
    (outer.push g).modify ((outer.push g).size - 1) h = outer.push (h g) := by
  apply Array.ext_getElem?
  intro n
  simp only [Array.getElem?_modify, Array.size_push, Nat.add_sub_cancel, Array.getElem?_push]
  by_cases hn : n = outer.size
  · simp [hn]
  · simp [hn, Ne.symm hn]

namespace At

theorem back (h : At code outer f pc m) : m.frames.back? = some { f with next := pc } := by
  rw [h.frames]
  exact Array.back?_push ..

theorem window_le (h : At code outer f pc m) : f.base + f.prototype.registers ≤ m.stack.size :=
  Nat.le_trans (h.ready.frames.window { f with next := pc } h.back) h.ready.stack.top_le

theorem reg_has (h : At code outer f pc m) (j : Nat) : m.heap.Has (m.reg f j) :=
  h.ready.stack.getD _

/-- The constants of the function are those of its prototype. -/
theorem constant (h : At code outer f pc m) {n : Nat} {k : Constant}
    (hk : f.prototype.chunk.constants[n]? = some k) :
    f.constants[n]? = some k.value ∧ m.heap.Has k.value := by
  have hframe := h.ready.frames.each _ (mem_of_back? h.back)
  obtain ⟨c, hc, hid, hproto⟩ := hframe.closure
  have hclosure : Heap.ClosureSound code m.programs m.heap c := h.ready.heap.objects _ _ hc
  have hpool := h.ready.heap.pools _ _ hframe.constants
  obtain ⟨p, hp, hvs⟩ := hpool.values
  have hcode := hclosure.prototype
  rw [hid] at hcode
  cases hp.symm.trans hcode
  rw [hproto] at hvs
  have hat : f.constants[n]? = some k.value := by
    show ({ f with next := pc } : Frame).constants[n]? = _
    rw [hvs]
    simp [hk]
  exact ⟨hat, hpool.has _ (Array.mem_of_getElem? hat)⟩

theorem fetched (h : At code outer f pc m) (shown : String) :
    At code outer f (pc + 1) (m.fetched shown) where
  ready :=
    have hsound := h.ready.toSound.modifyFrame (f := fun g => { g with next := g.next + 1 })
      (fun _ => rfl) fun g hg => (h.ready.frames.each g hg).stop
    ⟨{ hsound with }, h.ready.idle⟩
  frames := by
    show m.frames.modify (m.frames.size - 1) (fun g => { g with next := g.next + 1 }) = _
    rw [h.frames, modify_push]
  opened := h.opened

/-! ## What comes of a word -/

theorem ensures_step (h : At code outer f pc m) (i : Instruction) {R : Outcome → Machine → Prop}
    {E : Fault → Machine → Prop} (hR : m.Ensures (perform { f with next := pc } i) R E) :
    m.Ensures (step i) R E := by
  simp only [step, ensures_bind, ensures_frame]
  refine ⟨fun g hg => ?_, fun hnone => ?_⟩
  · cases h.back.symm.trans hg
    exact hR
  · cases h.back.symm.trans hnone

/-- The machine that performs a word has the registers and the heap from before it. -/
theorem goes (h : At code outer f pc m) (hword : f.prototype.chunk.code[pc]? = some i)
    (hperform : ∀ m₁, At code outer f (pc + 1) m₁ → m₁.stack = m.stack → m₁.heap = m.heap →
      m₁.Ensures (perform { f with next := pc + 1 } i) (fun o m' => o = .next ∧ Q m')
        fun _ _ => False) : Leads 1 m Q :=
  leads_of_step h.back hword fun shown =>
    (h.fetched shown).ensures_step i (hperform _ (h.fetched shown) rfl rfl)

theorem fails (h : At code outer f pc m) (hword : f.prototype.chunk.code[pc]? = some i)
    (hperform : ∀ m₁, At code outer f (pc + 1) m₁ → m₁.stack = m.stack → m₁.heap = m.heap →
      m₁.Ensures (perform { f with next := pc + 1 } i) (fun _ _ => False)
        fun e _ => ∃ error, e = .runtime error) : Fails m :=
  fails_of_step h.back hword fun shown =>
    (h.fetched shown).ensures_step i (hperform _ (h.fetched shown) rfl rfl)

/-! ## Registers -/

theorem reg_putSlots (h : At code outer f pc m) (hfit : a + vs.length ≤ f.prototype.registers)
    (j : Nat) : (putSlots (f.base + a) vs m.stack).getD (f.base + j) .nil =
      if j < a then m.reg f j else (vs[j - a]?).getD (m.reg f j) := by
  have hsize := h.window_le
  rw [Array.getD_eq_getD_getElem?, putSlots_getElem? _ _ _ _ (by omega)]
  by_cases hlow : j < a
  · rw [if_neg (by omega), if_pos hlow]
    exact Array.getD_eq_getD_getElem?.symm
  · rw [if_neg hlow, show f.base + j - (f.base + a) = j - a by omega]
    by_cases hhigh : j - a < vs.length
    · rw [if_pos (by omega), List.getElem?_eq_getElem hhigh]
      rfl
    · rw [if_neg (by omega), List.getElem?_eq_none (by omega)]
      exact Array.getD_eq_getD_getElem?.symm

theorem under_putSlots (h : At code outer f pc m) (hfit : a + vs.length ≤ f.prototype.registers) :
    Under f m { m with stack := putSlots (f.base + a) vs m.stack } := by
  have hsize := h.window_le
  intro n hn
  rw [Array.getD_eq_getD_getElem?, putSlots_getElem? _ _ _ _ (by omega), if_neg (by omega)]
  exact Array.getD_eq_getD_getElem?.symm

theorem withSlots (h : At code outer f pc m) (a : Nat) (vs : List Value) (hfit : a + vs.length ≤ f.prototype.registers)
    (hvs : ∀ v ∈ vs, m.heap.Has v) :
    At code outer f pc { m with stack := putSlots (f.base + a) vs m.stack } ∧
      Sets f a vs m { m with stack := putSlots (f.base + a) vs m.stack } := by
  have htop := h.ready.frames.window { f with next := pc } h.back
  have hsize := (writes_putSlots (P := m.heap.Has) (f.base + a) vs m.stack hvs).size
  have hstack : StackSound m.heap m.options.maxSlots m.top (putSlots (f.base + a) vs m.stack) := by
    refine h.ready.stack.put (fun n hn => ?_) hvs
    have htop' : f.base + f.prototype.registers ≤ m.top := htop
    omega
  exact ⟨⟨⟨h.ready.toSound.withSlots hstack (Nat.le_of_eq hsize.symm), h.ready.idle⟩, h.frames,
    h.opened⟩, .refl _, h.reg_putSlots hfit, h.under_putSlots hfit⟩

theorem withHeap (h : At code outer f pc m) {heap : Heap}
    (hs : Sound code { m with heap := heap }) :
    At code outer f pc { m with heap := heap } :=
  ⟨⟨hs, h.ready.idle⟩, h.frames, h.opened⟩

end At

/-! ## The heap behind the function -/

/-- An upvalue of the running function. -/
abbrev Own (f : Frame) (i : Nat) (x : Upvalue) (m : Machine) : Prop :=
  ∃ c u, m.heap.cells[f.closure]? = some (.closure c) ∧ c.upvalue? i = some u ∧
    m.heap.cells[u]? = some (.upvalue x)

/-- The upvalues of the function are still there when something is gone from the heap. -/
theorem Own.thins {i pc' : Nat} {x : Upvalue} (h : Own f i x m) (hat : At code outer f pc' m')
    (ht : m.heap.Thins m'.heap) : Own f i x m' := by
  obtain ⟨c, u, hc, hu, hx⟩ := h
  obtain ⟨c', hc', -, -⟩ := (hat.ready.frames.each _ (mem_of_back? hat.back)).closure
  cases hc.symm.trans (ht _ _ hc' Object.noConfusion)
  have hclosure : Heap.ClosureSound code m'.programs m'.heap c := hat.ready.heap.objects _ _ hc'
  obtain ⟨x', hx'⟩ := hclosure.upvalues u (by
    obtain ⟨w, hw, rfl⟩ : ∃ w, c.upvalues[i]? = some w ∧ w = some u := by
      simpa [Closure.upvalue?, Option.join_eq_some_iff] using hu
    exact Array.mem_of_getElem? hw)
  cases hx.symm.trans (ht _ _ hx' Object.noConfusion)
  exact ⟨c, u, hc', hu, hx'⟩

/-- The only upvalue of the function is closed and holds the value; the tables that are left are as
told. -/
structure Shows (f : Frame) (v : Value) (tables : Ref → Table) (m : Machine) : Prop where
  environment : Own f 0 (.closed v) m
  tables : ∀ (r : Ref) (t : Table), m.heap.cells[r]? = some (.table t) → tables r = t

theorem Shows.table {tables : Ref → Table} {r : Ref} (h : Shows f v tables m)
    (hr : m.heap.Has (.table r)) : m.heap.table r = tables r := by
  obtain ⟨t, ht⟩ := hr
  rw [Heap.table_eq ht, h.tables r t ht]

/-- What the machine needs is still there when something is gone from the heap. -/
theorem Shows.thins {tables : Ref → Table} {pc' : Nat} (h : Shows f v tables m)
    (hat : At code outer f pc' m') (ht : m.heap.Thins m'.heap) : Shows f v tables m' where
  environment := h.environment.thins hat ht
  tables r t hr := h.tables r t (ht _ _ hr Object.noConfusion)

end Machine
end LuaMachine
