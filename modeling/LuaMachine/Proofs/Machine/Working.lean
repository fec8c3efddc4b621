import LuaMachine.Proofs.Generator.Generation
import LuaMachine.Proofs.Machine.Frames
import LuaMachine.Proofs.Structured.Counting
import LuaMachine.Proofs.Structured.Folding
/-! # Instructions of a sound machine

An instruction of a compiled function works in the window of the innermost frame and keeps the
machine sound, whether it ends or fails. A call is only asked for here, and a return is not
considered.

* `Machine.Active`: a sound machine and its innermost frame, whose code is well-formed.
* `Machine.Works`: what an instruction leaves alone.
* `Machine.Asks`: the calls that an instruction can ask for.
* `Machine.ensures_perform`: every instruction but a return.
-/
set_option autoImplicit false

namespace LuaMachine

theorem Instruction.OperandsFit.single {p : Prototype} {i : Instruction} {op : Opcode} {r : Nat}
    (h : i.OperandsFit p op) (hr : (r, 1) ∈ op.runs i.a i.b i.c) : r < p.registers :=
  h.registers (r, 1) hr 0 Nat.one_pos

theorem Instruction.OperandsFit.run_le {p : Prototype} {i : Instruction} {op : Opcode} {r n : Nat}
    (h : i.OperandsFit p op) (hr : (r, n + 1) ∈ op.runs i.a i.b i.c) : r + (n + 1) ≤ p.registers :=
  h.registers (r, n + 1) hr n (Nat.lt_succ_self n)

namespace Machine

/-! ## The innermost frame -/

/-- A sound machine between two instructions, and its innermost frame. -/
structure Active (code : Nat → Prototype) (f : Frame) (m : Machine) : Prop where
  ready : Ready code m
  back : m.frames.back? = some f

/-- The innermost frame is still there, perhaps at another instruction, and what lies below it is as
it was. -/
structure Works (code : Nat → Prototype) (f : Frame) (m m' : Machine) : Prop where
  follows : m.Follows (m.frames.size - 1) f.destination m'
  count : m'.frames.size = m.frames.size
  active : ∃ f', Active code f' m' ∧ f.Same f'

variable {code : Nat → Prototype} {f : Frame} {m m' m'' : Machine} {E : Fault → Machine → Prop}
  {i : Instruction} {a : Nat} {v : Value}

namespace Active

theorem frame_get (h : Active code f m) : m.frames[m.frames.size - 1]? = some f :=
  back?_eq_some_iff.mp h.back

theorem frame_mem (h : Active code f m) : f ∈ m.frames := mem_of_back? h.back

theorem size_pos (h : Active code f m) : 0 < m.frames.size := by
  obtain ⟨hlt, -⟩ := Array.getElem?_eq_some_iff.mp h.frame_get
  omega

theorem frame (h : Active code f m) : FrameSound m.heap m.pools m.stack.size f :=
  h.ready.frames.each f h.frame_mem

theorem base_eq (h : Active code f m) : f.base = f.destination + 1 := h.frame.base

theorem window_le_top (h : Active code f m) : f.window ≤ m.top := h.ready.frames.window f h.back

theorem top_le (h : Active code f m) : m.top ≤ m.stack.size := h.ready.stack.top_le

theorem window_le_size (h : Active code f m) : f.base + f.prototype.registers ≤ m.stack.size :=
  Nat.le_trans h.window_le_top h.top_le

theorem follows_refl (h : Active code f m) : m.Follows (m.frames.size - 1) f.destination m := by
  refine .refl (Nat.sub_le _ _) fun i g hi hg => ?_
  obtain ⟨hlt, -⟩ := Array.getElem?_eq_some_iff.mp hg
  obtain rfl : i = m.frames.size - 1 := by omega
  cases h.frame_get.symm.trans hg
  exact Nat.le_refl _

theorem works_refl (h : Active code f m) : Works code f m m :=
  ⟨h.follows_refl, rfl, f, h, .refl f⟩

/-- The innermost frame runs a part of a compiled program. -/
theorem prototype (h : Active code f m) : f.id.program < m.programs ∧
    f.id.prototype? code = some f.prototype := by
  obtain ⟨c, hc, hid, hproto⟩ := h.frame.closure
  have hclosure : Heap.ClosureSound code m.programs m.heap c := h.ready.heap.objects _ _ hc
  rw [← hid, ← hproto]
  exact ⟨hclosure.program, hclosure.prototype⟩

theorem runnable (h : Active code f m) : f.prototype.Runnable := by
  obtain ⟨hprogram, hproto⟩ := h.prototype
  exact PrototypeId.prototype?_ind hproto (h.ready.programs _ hprogram) fun _ => .nested

theorem wellFormed (h : Active code f m) : f.prototype.WellFormed := h.runnable.wellFormed

theorem params_le (h : Active code f m) : f.prototype.params ≤ f.prototype.registers := by
  cases h.runnable.roomy with
  | intro params _ => exact params

theorem codeValid (h : Active code f m) : f.prototype.CodeValid := by
  cases h.wellFormed with
  | intro code _ _ => exact code

theorem supplies (h : Active code f m) : ∀ q ∈ f.prototype.children, f.prototype.Supplies q := by
  cases h.wellFormed with
  | intro _ supplies _ => exact supplies

end Active

/-! ## What an instruction leaves alone -/

theorem Works.trans (h : Works code f m m')
    (h' : ∀ f', Active code f' m' → f.Same f' → Works code f' m' m'') : Works code f m m'' := by
  obtain ⟨f', hactive, hsame⟩ := h.active
  have hnext := h' f' hactive hsame
  have hfollows := hnext.follows
  have hdestination : f'.destination = f.destination := by rw [hsame]
  rw [h.count, hdestination] at hfollows
  obtain ⟨f'', hactive', hsame'⟩ := hnext.active
  exact ⟨h.follows.trans hfollows, hnext.count.trans h.count, f'', hactive', hsame.trans hsame'⟩

namespace Active

/-- The heap or the open upvalues of registers change, and perhaps something is collected. -/
theorem works_memory (h : Active code f m) {p : Machine} {opened : List (Nat × Ref)}
    (hp : Sound code { m.withMemory p with openUpvalues := opened })
    (hopened : ∀ u : Nat × Ref, u.1 < f.base → (u ∈ opened ↔ u ∈ m.openUpvalues)) :
    Works code f m { m.withMemory p with openUpvalues := opened } := by
  have hbase := h.base_eq
  have hfollows : m.Follows (m.frames.size - 1) f.destination (m.withMemory p) :=
    h.follows_refl.withMemory
  refine ⟨{ hfollows with opened := fun u hu => ?_ }, rfl, f, ⟨⟨hp, h.ready.idle⟩, h.back⟩, .refl f⟩
  exact hopened u (by omega)

theorem works_collect (h : Active code f m) {p : Machine} (hp : Sound code (m.withMemory p)) :
    Works code f m (m.withMemory p) :=
  have hworks : Works code f m { m.withMemory p with openUpvalues := m.openUpvalues } :=
    h.works_memory hp fun _ _ => Iff.rfl
  hworks

theorem works_heap (h : Active code f m) {heap : Heap} (hs : Sound code { m with heap := heap }) :
    Works code f m { m with heap := heap } :=
  have hworks : Works code f m (m.withMemory { m with heap := heap }) := h.works_collect hs
  hworks

/-- Registers are written. -/
theorem works_write (h : Active code f m) {s : Array Value} {i : Nat}
    (hs : StackSound m.heap m.options.maxSlots m.top s) (hw : Writes m.heap.Has i m.stack s)
    (hi : f.base ≤ i) : Works code f m { m with stack := s } := by
  have hbase := h.base_eq
  exact ⟨h.follows_refl.write hw (by omega), rfl, f,
    ⟨⟨h.ready.toSound.withSlots hs (Nat.le_of_eq hw.size.symm), h.ready.idle⟩, h.back⟩, .refl f⟩

theorem works_set (h : Active code f m) (ha : a < f.prototype.registers) (hv : m.heap.Has v) :
    Works code f m { m with stack := m.stack.setIfInBounds (f.base + a) v } := by
  have hwindow : f.base + f.prototype.registers ≤ m.top := h.window_le_top
  exact h.works_write (h.ready.stack.set (by omega) hv) (writes_setIfInBounds hv _ _)
    (Nat.le_add_right _ _)

theorem works_put (h : Active code f m) {vs : List Value}
    (hfit : ∀ n < vs.length, a + n < f.prototype.registers) (hvs : ∀ v ∈ vs, m.heap.Has v) :
    Works code f m { m with stack := putSlots (f.base + a) vs m.stack } := by
  have hwindow : f.base + f.prototype.registers ≤ m.top := h.window_le_top
  refine h.works_write (h.ready.stack.put (fun n hn => ?_) hvs) (writes_putSlots _ _ _ hvs)
    (Nat.le_add_right _ _)
  have := hfit n hn
  omega

theorem works_move (h : Active code f m) {n source : Nat}
    (hfit : a + n ≤ f.prototype.registers) :
    Works code f m { m with stack := moveSlots n source (f.base + a) m.stack } := by
  have hwindow : f.base + f.prototype.registers ≤ m.top := h.window_le_top
  exact h.works_write (h.ready.stack.move (by omega))
    (writes_moveSlots _ _ _ _ h.ready.stack.has m.heap.has_nil) (Nat.le_add_right _ _)

/-- The frame goes to another instruction, or gets another open list that lies on the stack. -/
theorem works_frame (h : Active code f m) {g : Frame → Frame} (hsame : ∀ f : Frame, f.Same (g f))
    (hstop : (g f).open' ≤ m.stack.size) :
    Works code f m { m with frames := m.frames.modify (m.frames.size - 1) g } := by
  have hpos := h.size_pos
  have hback : (m.frames.modify (m.frames.size - 1) g).back? = some (g f) := by
    rw [back?_eq_some_iff, Array.size_modify, Array.getElem?_modify, if_pos rfl, h.frame_get]
    rfl
  have hsames : SameFrames m.frames (m.frames.modify (m.frames.size - 1) g) := .modify _ hsame
  have hstops : ∀ f' ∈ m.frames.modify (m.frames.size - 1) g, f'.open' ≤ m.stack.size := by
    intro f' hf'
    obtain ⟨n, hn⟩ := Array.mem_iff_getElem?.mp hf'
    rw [Array.getElem?_modify] at hn
    split at hn
    next heq =>
      rw [← heq, h.frame_get] at hn
      cases hn
      exact hstop
    next => exact (h.ready.frames.each f' (Array.mem_of_getElem? hn)).stop
  have hsound : Sound code { m with frames := m.frames.modify (m.frames.size - 1) g } :=
    h.ready.toSound.withFrames (h.ready.frames.same hsames hstops) (h.ready.opened.same hsames)
      (Nat.le_trans (Nat.le_of_eq Array.size_modify) h.ready.frameCount)
  exact ⟨h.follows_refl.modifyFrame (Nat.sub_lt hpos Nat.one_pos) hsame, Array.size_modify, g f,
    ⟨⟨hsound, h.ready.idle⟩, hback⟩, hsame f⟩

end Active

/-! ## How an instruction ends -/

/-- The calls that an instruction of the frame can ask for: of a register, with arguments that lie
on the stack. -/
def Asks (f : Frame) (m : Machine) : Outcome → Prop
  | .next => True
  | .call func argc _ =>
    f.base ≤ func ∧ func < f.window ∧ ∀ n, argc = some n → func + 1 + n ≤ m.stack.size
  | .finished _ => False

structure Passes (code : Nat → Prototype) (f : Frame) (m : Machine) (o : Outcome) (m' : Machine) :
    Prop where
  works : Works code f m m'
  asks : Asks f m' o

structure Breaks (code : Nat → Prototype) (f : Frame) (m : Machine) (e : Fault) (m' : Machine) :
    Prop where
  works : Works code f m m'
  held : e.Held m'.heap.Has

theorem Active.breaks (h : Active code f m) {e : Fault} (he : e.Held m.heap.Has) :
    Breaks code f m e m :=
  ⟨h.works_refl, he⟩

theorem Breaks.after {e : Fault} (h : Works code f m m') (hb : ∀ f', Active code f' m' →
    f.Same f' → Breaks code f' m' e m'') : Breaks code f m e m'' := by
  obtain ⟨f', hactive, hsame⟩ := h.active
  refine ⟨h.trans fun f'' hactive' hsame' => ?_, (hb f' hactive hsame).held⟩
  exact (hb f'' hactive' hsame').works

/-- Something more is done in the innermost frame. -/
theorem Works.andThen {α : Type} {x : Exec α} (h : Works code f m m')
    (hx : ∀ f', Active code f' m' → f.Same f' →
      m'.Ensures x (fun _ m'' => Works code f' m' m'') (Breaks code f' m')) :
    m'.Ensures x (fun _ m'' => Works code f m m'') (Breaks code f m) := by
  obtain ⟨f', hactive, hsame⟩ := h.active
  refine (hx f' hactive hsame).mono (fun _ m'' hworks => ?_) fun e m'' hbreaks => ?_
  · refine h.trans fun f'' hactive' _ => ?_
    cases hactive.back.symm.trans hactive'.back
    exact hworks
  · refine .after h fun f'' hactive' _ => ?_
    cases hactive.back.symm.trans hactive'.back
    exact hbreaks

theorem Works.next (h : Works code f m m') : Passes code f m .next m' := ⟨h, trivial⟩

theorem Works.set (h : Works code f m m') (ha : a < f.prototype.registers) (hv : m'.heap.Has v) :
    Works code f m { m' with stack := m'.stack.setIfInBounds (f.base + a) v } := by
  refine h.trans fun f' hactive hsame => ?_
  have hbase : f'.base = f.base := by rw [hsame]
  rw [← hbase]
  exact hactive.works_set (by rw [hsame]; exact ha) hv

/-! ## Values -/

theorem Active.register_has (h : Active code f m) (r : Nat) :
    m.heap.Has (m.stack.getD r .nil) :=
  h.ready.stack.getD r

theorem Active.constant_has (h : Active code f m) {k : Nat} (hk : f.constants[k]? = some v) :
    m.heap.Has v :=
  (h.ready.heap.pools _ _ h.frame.constants).has v (Array.mem_of_getElem? hk)

theorem has_of_apply {h : Heap} {op : Operator} {x y : Value} (hv : op.apply x y = .ok v) :
    h.Has v := by
  have hnumber := Operator.isNumber_of_apply hv
  cases v with
  | int | float => trivial
  | _ => cases hnumber

section instructions

variable {op : Opcode}

theorem ensures_arithmetic (h : Active code f m) (o : Operator) (ha : i.a < f.prototype.registers) :
    m.Ensures (arithmetic o f i) (Passes code f m) (Breaks code f m) := by
  simp only [arithmetic, ensures_bind, ensures_register, ensures_setRegister, ensures_pure]
  refine ensures_ofExcept _ (fun v hv => ?_) fun e _ => h.breaks trivial
  exact Works.next (h.works_refl.set ha (has_of_apply hv))

theorem ensures_unary (h : Active code f m) (o : Operator) (ha : i.a < f.prototype.registers) :
    m.Ensures (unary o f i) (Passes code f m) (Breaks code f m) := by
  simp only [unary, ensures_bind, ensures_register, ensures_setRegister, ensures_pure]
  refine ensures_ofExcept _ (fun v hv => ?_) fun e _ => h.breaks trivial
  exact Works.next (h.works_refl.set ha (has_of_apply hv))

theorem ensures_compare (h : Active code f m) (order : Value → Value → Except RuntimeError Bool)
    (ha : i.a < f.prototype.registers) :
    m.Ensures (compare order f i) (Passes code f m) (Breaks code f m) := by
  simp only [compare, ensures_bind, ensures_register, ensures_setRegister, ensures_pure]
  refine ensures_ofExcept _ (fun b _ => ?_) fun e _ => h.breaks trivial
  exact Works.next (h.works_refl.set ha trivial)

theorem ensures_measure (h : Active code f m) (x : Value) (ha : a < f.prototype.registers) :
    m.Ensures (length x)
      (fun v m' => Passes code f m .next { m' with stack := m'.stack.setIfInBounds (f.base + a) v })
      (Breaks code f m) := by
  unfold length
  split
  · exact Works.next (h.works_refl.set ha trivial)
  · exact Works.next (h.works_refl.set ha trivial)
  · exact h.breaks trivial

/-! ## Tables and closures -/

theorem ensures_setItems (h : Active code f m) (r : Ref) (n source key : Nat) :
    m.Ensures (setItems r n source key) (fun _ m' => Works code f m m') (Breaks code f m) := by
  induction n generalizing m f source key with
  | zero => exact h.works_refl
  | succ n ih =>
    simp only [setItems, ensures_bind, ensures_slot, modifyHeap, ensures_modify]
    have hset := h.ready.toSound.setKey r (k := .int (Int64.ofNat key)) trivial
      (h.register_has source)
    exact (h.works_heap hset).andThen fun f' hactive _ => ih hactive _ _

theorem ensures_fetch (h : Active code f m)
    {Q : Instruction → Machine → Prop}
    (hQ : ∀ i m', f.prototype.chunk.code[f.next]? = some i → Works code f m m' →
      Active code { f with next := f.next + 1 } m' → Q i m')
    (hE : ∀ m', Works code f m m' → E .outOfRange m') :
    m.Ensures fetch Q E := by
  have hworks := h.works_frame (g := fun f => { f with next := f.next + 1 }) (fun _ => rfl)
    h.frame.stop
  obtain ⟨f', hactive, hsame⟩ := hworks.active
  have hback : (m.frames.modify (m.frames.size - 1) fun f => { f with next := f.next + 1 }).back? =
      some { f with next := f.next + 1 } := by
    rw [back?_eq_some_iff, Array.size_modify, Array.getElem?_modify, if_pos rfl, h.frame_get]
    rfl
  cases hactive.back.symm.trans hback
  simp only [fetch, ensures_bind, ensures_frame]
  refine ⟨fun g hg => ?_, fun hnone => ?_⟩
  · cases h.back.symm.trans hg
    simp only [ensures_modifyFrame]
    split
    next i hi => exact hQ i _ hi hworks hactive
    next => exact hE _ hworks
  · cases h.back.symm.trans hnone

theorem ensures_setList (h : Active code f m) :
    m.Ensures (setList f i) (Passes code f m) (Breaks code f m) := by
  simp only [setList, ensures_bind]
  refine ensures_fetch h (fun extra m' _ hworks hactive => ?_) fun m' hworks => ⟨hworks, trivial⟩
  rw [ensures_slot]
  split
  next r _ _ =>
    rw [ensures_bind]
    exact (hworks.andThen fun f' hactive _ => ensures_setItems hactive _ _ _ _).mono_ok
      fun _ _ hrest => hrest.next
  next => exact ⟨hworks, trivial⟩

theorem ensures_fill (h : Active code f m) {r : Ref} {n : Nat} {sources : List UpvalueSource}
    (hsources : ∀ u ∈ sources, u.fromRegister = true → u.index < f.prototype.registers) :
    m.Ensures (fillUpvalues f r n sources) (fun _ m' => Works code f m m') (Breaks code f m) :=
  ensures_fillUpvalues h.ready.toSound h.back hsources
    (fun _ _ hp hopened => h.works_memory hp hopened)
    fun _ _ _ hp hopened => ⟨h.works_memory hp hopened, trivial⟩

theorem ensures_makeClosure (h : Active code f m) (ha : i.a < f.prototype.registers) :
    m.Ensures (makeClosure f i) (Passes code f m) (Breaks code f m) := by
  unfold makeClosure
  split
  next => exact h.breaks trivial
  next child hchild =>
    obtain ⟨hprogram, hproto⟩ := h.prototype
    simp only [ensures_bind]
    refine ensures_allocate h.ready.toSound Object.noConfusion (fun p hp => ?_) fun p hp _ hcell => ?_
    · exact ⟨hprogram, PrototypeId.prototype?_child hproto hchild, by simp [Closure.create],
        fun r hr => by simp [Closure.create] at hr⟩
    · rw [ensures_setRegister]
      have hset := (h.works_collect hp).set ha (v := .closure m.heap.cells.size) ⟨_, hcell⟩
      refine (hset.andThen fun f' hactive _ => ?_).mono_ok fun _ _ hworks => hworks.next
      cases h.back.symm.trans hactive.back
      refine ensures_fill hactive fun u hu hreg => ?_
      have hlt := h.supplies child (Array.mem_of_getElem? hchild) u (Array.mem_toList_iff.mp hu)
      rwa [if_pos hreg] at hlt

/-! ## Extra arguments -/

theorem ensures_vararg (h : Active code f m)
    (hfit : ∀ k < i.c - 1, i.a + k < f.prototype.registers) :
    m.Ensures (vararg f i) (Passes code f m) (Breaks code f m) := by
  have hextra : ∀ v ∈ f.extra.toList, m.heap.Has v := fun v hv =>
    h.frame.extra v (Array.mem_toList_iff.mp hv)
  unfold vararg
  dsimp only
  split
  next =>
    simp only [ensures_bind, ensures_ensureStack, ensures_setSlots, ensures_modifyFrame,
      ensures_raiseTop, ensures_pure]
    refine ⟨fun _ => h.breaks trivial, fun hsize => Works.next ?_⟩
    generalize hstop : f.base + i.a + f.extra.size = stop at hsize ⊢
    have hgrown := h.ready.stack.grown hsize
    have hwrites := writes_putSlots (f.base + i.a) f.extra.toList (grown stop m.stack) hextra
    have hgrownSize := grown_size stop m.stack
    have hputSize : (putSlots (f.base + i.a) f.extra.toList (grown stop m.stack)).size =
        max stop m.stack.size := hwrites.size.trans hgrownSize
    have hlength : f.extra.toList.length = f.extra.size := Array.length_toList
    have htop := h.top_le
    have hraised : StackSound m.heap m.options.maxSlots (max m.top stop)
        (putSlots (f.base + i.a) f.extra.toList (grown stop m.stack)) := by
      refine (hgrown.raise _ (Nat.le_max_left _ _) (by omega)).put (fun n hn => ?_) hextra
      omega
    have hsound := h.ready.toSound.withStack hraised (by omega)
      (fun g hg => Nat.le_trans (h.ready.frames.window g hg) (Nat.le_max_left _ _))
      fun u hu => Nat.lt_of_lt_of_le (h.ready.opened.below u hu) (Nat.le_max_left _ _)
    have hbase := h.base_eq
    have hworks : Works code f m { m with
        stack := putSlots (f.base + i.a) f.extra.toList (grown stop m.stack)
        top := max m.top stop } := by
      refine ⟨h.follows_refl.withStack (by omega) fun j hj => .inl ?_, rfl, f,
        ⟨⟨hsound, h.ready.idle⟩, h.back⟩, .refl f⟩
      rw [hwrites.getD (by omega), grown_getD]
    refine hworks.trans fun f' hactive hsame => ?_
    exact hactive.works_frame (g := fun f => { f with open' := stop }) (fun _ => rfl) (by
      show stop ≤ (putSlots _ _ _).size
      omega)
  next =>
    simp only [ensures_bind, ensures_setSlots, ensures_pure]
    refine Works.next (h.works_put (fun n hn => ?_) fun v hv => ?_)
    · rw [List.length_map, List.length_range] at hn
      exact hfit n hn
    · obtain ⟨k, -, rfl⟩ := List.mem_map.mp hv
      exact Table.holds_getD h.frame.extra m.heap.has_nil k

/-! ## Loops -/

theorem ensures_jump (h : Active code f m) (d : Int) {Q : Unit → Machine → Prop}
    (hQ : ∀ m', Works code f m m' → Q () m') : m.Ensures (jump d) Q E :=
  hQ _ (h.works_frame (fun _ => rfl) h.frame.stop)

theorem ensures_setLoop (h : Active code f m) (hfit : a + 4 ≤ f.prototype.registers)
    {l : NumericLoop} (hcontrol : m.heap.Has l.control) (hlimit : m.heap.Has l.limit)
    (hstep : m.heap.Has l.step) {Q : Unit → Machine → Prop}
    (hQ : ∀ m', Works code f m m' → Q () m') : m.Ensures (setLoop f a l) Q E := by
  simp only [setLoop, ensures_setSlots]
  refine hQ _ (h.works_put (fun n hn => ?_) fun v hv => ?_)
  · simp only [List.length_cons, List.length_nil] at hn
    omega
  · simp only [List.mem_cons, List.not_mem_nil, or_false] at hv
    rcases hv with rfl | rfl | rfl | rfl
    · exact hcontrol
    · exact hlimit
    · exact hstep
    · exact hcontrol

theorem ensures_forPrepare (h : Active code f m) (hfit : i.a + 4 ≤ f.prototype.registers) :
    m.Ensures (forPrepare f i) (Passes code f m) (Breaks code f m) := by
  simp only [forPrepare, ensures_bind, ensures_register]
  refine ensures_ofExcept _ (fun l hl => ?_) fun e _ => h.breaks trivial
  split
  next l =>
    have hplain := NumericLoop.plain_of_start hl
    rw [ensures_bind]
    exact ensures_setLoop h hfit (m.heap.has_plain hplain.control) (m.heap.has_plain hplain.limit)
      (m.heap.has_plain hplain.step) fun m' hworks => hworks.next
  next =>
    rw [ensures_bind]
    exact ensures_jump h _ fun m' hworks => hworks.next

theorem ensures_forLoop (h : Active code f m) (hfit : i.a + 4 ≤ f.prototype.registers) :
    m.Ensures (forLoop f i) (Passes code f m) (Breaks code f m) := by
  simp only [forLoop, ensures_bind, ensures_register]
  split
  next l hl =>
    obtain ⟨hcontrol, hlimit, hstep⟩ := NumericLoop.next_cases hl
    have hlimit' : m.heap.Has l.limit := by
      rcases hlimit with hplain | heq
      · exact m.heap.has_plain hplain
      · rw [heq]
        exact h.register_has _
    have hstep' : m.heap.Has l.step := by
      rw [hstep]
      exact h.register_has _
    rw [ensures_bind]
    refine ensures_setLoop h hfit (m.heap.has_plain hcontrol) hlimit' hstep' fun m' hworks => ?_
    exact (hworks.andThen fun f' hactive _ => ensures_jump hactive _ fun m'' hw => hw).mono_ok
      fun _ _ hw => hw.next
  next => exact h.works_refl.next

theorem ensures_iterLoop (h : Active code f m) (hfit : i.a + 2 < f.prototype.registers) :
    m.Ensures (iterLoop f i) (Passes code f m) (Breaks code f m) := by
  simp only [iterLoop, ensures_bind, ensures_register, ensures_ite]
  refine ⟨fun _ => ?_, fun _ => h.works_refl.next⟩
  rw [ensures_setRegister]
  have hset := h.works_refl.set hfit (h.register_has (f.base + (i.a + 3)))
  exact (hset.andThen fun f' hactive _ => ensures_jump hactive _ fun m'' hw => hw).mono_ok
    fun _ _ hw => hw.next

/-! ## Upvalues -/

/-- The value of a register goes to an upvalue. -/
theorem ensures_setUpvalue (h : Active code f m) (u : Option Ref) (hv : m.heap.Has v) :
    m.Ensures (writeUpvalue u v) (fun _ m' => Works code f m m') (Breaks code f m) := by
  refine ensures_writeUpvalue h.ready.toSound hv (fun s r hopen hsound => ?_)
    (fun heap hsound => h.works_heap hsound) (h.breaks trivial)
  refine ⟨h.follows_refl.withStack (Nat.le_of_eq Array.size_setIfInBounds.symm) fun j _ => ?_, rfl,
    f, ⟨⟨hsound, h.ready.idle⟩, h.back⟩, .refl f⟩
  by_cases hj : j = s
  · exact .inr ⟨r, hj ▸ hopen⟩
  · left
    rw [Array.getD_eq_getD_getElem?, Array.getD_eq_getD_getElem?,
      Array.getElem?_setIfInBounds_ne (Ne.symm hj)]

theorem ensures_close (h : Active code f m) (r : Nat) :
    m.Ensures (closeUpvalues (f.base + r)) (fun _ m' => Works code f m m') E := by
  refine ensures_closeUpvalues h.ready.toSound fun heap opened hsound _ hmem => ?_
  refine h.works_memory (p := { m with heap := heap }) hsound fun u hu => ?_
  rw [hmem u]
  exact and_iff_left (by omega)

/-! ## Every instruction -/

theorem ensures_setRegister_next (h : Works code f m m') (ha : i.a < f.prototype.registers)
    (hv : m'.heap.Has v) :
    m'.Ensures (do setRegister f i.a v; return Outcome.next) (Passes code f m) (Breaks code f m) :=
  (h.set ha hv).next

theorem ensures_setIndex_next (h : Active code f m) {object key : Value} (hkey : m.heap.Has key)
    (hv : m.heap.Has v) :
    m.Ensures (do setIndex object key v; return Outcome.next) (Passes code f m)
      (Breaks code f m) := by
  rw [ensures_bind]
  exact ensures_setIndex h.ready.toSound hkey hv (fun heap hs => (h.works_heap hs).next)
    fun e => h.breaks trivial

theorem ensures_perform (h : Active code f m) (hop : i.opcode? = some op)
    (hfit : i.OperandsFit f.prototype op) (hret : op ≠ .ret) :
    m.Ensures (perform f i) (Passes code f m) (Breaks code f m) := by
  have hm := h.ready.toSound
  simp only [perform, hop]
  cases op with
  | ret => exact absurd rfl hret
  | move =>
    rw [ensures_bind, ensures_register]
    exact ensures_setRegister_next h.works_refl (hfit.single List.mem_cons_self) (h.register_has _)
  | loadConstant =>
    rw [ensures_bind, ensures_constant]
    refine ⟨fun v hv => ?_, fun _ => h.breaks trivial⟩
    exact ensures_setRegister_next h.works_refl (hfit.single List.mem_cons_self) (h.constant_has hv)
  | loadBool => exact ensures_setRegister_next h.works_refl (hfit.single List.mem_cons_self) trivial
  | loadNil =>
    rw [ensures_bind, ensures_setSlots]
    refine Works.next (h.works_put (fun n hn => ?_) fun v hv => ?_)
    · rw [List.length_replicate] at hn
      exact hfit.registers (i.a, i.b) List.mem_cons_self n hn
    · rw [List.eq_of_mem_replicate hv]
      exact m.heap.has_nil
  | getUpvalue =>
    simp only [ensures_bind]
    refine ensures_ownUpvalue hm (fun u _ => ?_) (h.breaks trivial)
    refine ensures_readUpvalue hm (fun v hv => ?_) (h.breaks trivial)
    exact ensures_setRegister_next h.works_refl (hfit.single List.mem_cons_self) hv
  | setUpvalue =>
    simp only [ensures_bind]
    refine ensures_ownUpvalue hm (fun u _ => ?_) (h.breaks trivial)
    rw [ensures_register]
    exact (ensures_setUpvalue h u (h.register_has _)).mono_ok fun _ _ hworks => hworks.next
  | getGlobal =>
    simp only [ensures_bind]
    refine ensures_ownUpvalue hm (fun u _ => ?_) (h.breaks trivial)
    refine ensures_readUpvalue hm (fun table _ => ?_) (h.breaks trivial)
    rw [ensures_constant]
    refine ⟨fun k _ => ?_, fun _ => h.breaks trivial⟩
    refine ensures_index hm (fun v hv => ?_) fun _ => h.breaks trivial
    exact ensures_setRegister_next h.works_refl (hfit.single List.mem_cons_self) hv
  | setGlobal =>
    simp only [ensures_bind _ _]
    refine ensures_ownUpvalue hm (fun u _ => ?_) (h.breaks trivial)
    refine ensures_readUpvalue hm (fun table _ => ?_) (h.breaks trivial)
    rw [ensures_constant]
    refine ⟨fun k hk => ?_, fun _ => h.breaks trivial⟩
    rw [ensures_register, ← ensures_bind]
    exact ensures_setIndex_next h (h.constant_has hk) (h.register_has _)
  | getTable =>
    simp only [ensures_bind, ensures_register]
    refine ensures_index hm (fun v hv => ?_) fun _ => h.breaks trivial
    exact ensures_setRegister_next h.works_refl (hfit.single List.mem_cons_self) hv
  | setTable =>
    simp only [ensures_bind, ensures_register]
    rw [← ensures_bind]
    exact ensures_setIndex_next h (h.register_has _) (h.register_has _)
  | getField =>
    simp only [ensures_bind, ensures_register, ensures_constant]
    refine ⟨fun k hk => ?_, fun _ => h.breaks trivial⟩
    refine ensures_index hm (fun v hv => ?_) fun _ => h.breaks trivial
    exact ensures_setRegister_next h.works_refl (hfit.single List.mem_cons_self) hv
  | setField =>
    simp only [ensures_bind, ensures_register, ensures_constant]
    refine ⟨fun k hk => ?_, fun _ => h.breaks trivial⟩
    rw [← ensures_bind]
    exact ensures_setIndex_next h (h.constant_has hk) (h.register_has _)
  | newTable =>
    rw [ensures_bind]
    refine ensures_newTable hm fun p r hp hr => ?_
    exact ensures_setRegister_next (h.works_collect hp) (hfit.single List.mem_cons_self) hr
  | setList => exact ensures_setList h
  | self =>
    simp only [ensures_bind, ensures_register]
    refine ensures_index hm (fun v hv => ?_) fun _ => h.breaks trivial
    have htwo := hfit.run_le (r := i.a) (n := 1) List.mem_cons_self
    have hobject := h.works_refl.set (a := i.a + 1) (by omega) (h.register_has (f.base + i.b))
    exact (hobject.set (by omega) hv).next
  | unm | bnot => exact ensures_unary h _ (hfit.single List.mem_cons_self)
  | not =>
    rw [ensures_bind, ensures_register]
    exact ensures_setRegister_next h.works_refl (hfit.single List.mem_cons_self) trivial
  | length =>
    simp only [ensures_bind, ensures_register]
    exact ensures_measure h _ (hfit.single List.mem_cons_self)
  | concat =>
    simp only [ensures_bind, ensures_slots]
    refine ensures_ofExcept _ (fun text _ => ?_) fun e _ => h.breaks trivial
    refine ensures_newText hm fun p hp _ htext => ?_
    exact ensures_setRegister_next (h.works_collect hp) (hfit.single List.mem_cons_self) htext
  | equal | less | lessEqual => exact ensures_compare h _ (hfit.single List.mem_cons_self)
  | jump =>
    rw [ensures_bind]
    exact ensures_jump h _ fun m' hworks => hworks.next
  | test =>
    simp only [ensures_bind, ensures_register]
    split
    · rw [ensures_bind]
      exact ensures_jump h _ fun m' hworks => hworks.next
    · exact h.works_refl.next
  | call =>
    have hmax : max 1 i.b = max 1 i.b - 1 + 1 := by omega
    have hrun := hfit.run_le (r := i.a) (n := max 1 i.b - 1) (by
      rw [← hmax]
      exact List.mem_cons_self)
    refine ⟨h.works_refl, Nat.le_add_right _ _, ?_, fun n hn => ?_⟩
    · show f.base + i.a < f.base + f.prototype.registers
      omega
    · split at hn
      · have hstop := h.frame.stop
        rw [openCount, Option.ite_none_right_eq_some] at hn
        have hcount := Option.some.inj hn.2
        omega
      · have hcount := Option.some.inj hn
        have hwindow := h.window_le_size
        omega
  | close =>
    rw [ensures_bind]
    exact (ensures_close h i.a).mono_ok fun _ _ hworks => hworks.next
  | closure => exact ensures_makeClosure h (hfit.single List.mem_cons_self)
  | vararg => exact ensures_vararg h (hfit.registers (i.a, i.c - 1) List.mem_cons_self)
  | forPrepare => exact ensures_forPrepare h (hfit.run_le List.mem_cons_self)
  | forLoop => exact ensures_forLoop h (hfit.run_le List.mem_cons_self)
  | iterCall =>
    simp only [ensures_bind, ensures_copySlots, ensures_pure]
    have hsix := hfit.run_le (r := i.a) (n := 5) List.mem_cons_self
    have hworks : Works code f m { m with
        stack := moveSlots 3 (f.base + i.a) (f.base + (i.a + 3)) m.stack } :=
      h.works_move (by omega)
    refine ⟨hworks, by omega, ?_, fun n hn => ?_⟩
    · show f.base + i.a + 3 < f.base + f.prototype.registers
      omega
    · cases hn
      have hwindow := h.window_le_size
      have hsize := (writes_moveSlots 3 (f.base + i.a) (f.base + (i.a + 3)) m.stack
        h.ready.stack.has m.heap.has_nil).size
      show _ ≤ (moveSlots 3 (f.base + i.a) (f.base + (i.a + 3)) m.stack).size
      omega
  | iterLoop =>
    have htwo := hfit.run_le (r := i.a + 2) (n := 1) List.mem_cons_self
    exact ensures_iterLoop h (by omega)
  | extra => exact h.breaks trivial
  | add | sub | mul | div | idiv | mod | pow | band | bor | bxor | shl | shr =>
    exact ensures_arithmetic h _ (hfit.single List.mem_cons_self)

end instructions

end Machine
end LuaMachine
