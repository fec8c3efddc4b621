import LuaMachine.Proofs.Collection.Alike
import LuaMachine.Proofs.Machine.Moments
/-! # Alike machines go in lockstep

What a machine does between two collections depends on the values that it uses and on the objects that
these stand for. A sound machine has all of these, so machines that are alike do the same.

* computations that look at no object: the stack, the frames, new objects and texts.
* computations that look at objects that both machines have: tables, closures, upvalues.
* `Machine.concur_perform`: one instruction.
-/
set_option autoImplicit false

namespace LuaMachine
namespace Machine

variable {code code' : Nat → Prototype} {m m' n n' : Machine} {f : Frame} {i : Instruction}
  {α : Type}

/-! ## The stack and the frames -/

/-- Registers, the top of the stack and the frames are written alike. -/
theorem Alike.place (h : m.Alike m') (stack : Array Value) (top : Nat) (frames : Array Frame) :
    Alike { m with stack := stack, top := top, frames := frames }
      { m' with stack := stack, top := top, frames := frames } :=
  { h with stack := rfl, top := rfl, frames := rfl }

theorem Alike.withHeap (h : m.Alike m') {heap heap' : Heap} (ha : heap.Agrees heap') :
    Alike { m with heap := heap } { m' with heap := heap' } :=
  { h with heap := ha }

theorem steady_write (text : String) : Steady (write text) :=
  steady_modify fun _ _ h => { h with output := h.output.write text }

theorem steady_slot (i : Nat) : Steady (slot i) :=
  steady_read (f := fun m => m.stack.getD i .nil) fun _ _ h => by rw [h.stack]

theorem steady_slots (start count : Nat) : Steady (slots start count) :=
  steady_read (f := fun m => m.stack.extract start (start + count)) fun _ _ h => by rw [h.stack]

theorem steady_setSlot (i : Nat) (v : Value) : Steady (setSlot i v) :=
  steady_modify fun _ _ h => { h with stack := by rw [h.stack] }

theorem steady_setSlots (i : Nat) (vs : List Value) : Steady (setSlots i vs) := by
  induction vs generalizing i with
  | nil => exact steady_pure ()
  | cons v rest ih => exact (steady_setSlot i v).bind fun _ => ih (i + 1)

theorem steady_copySlots (n source target : Nat) : Steady (copySlots n source target) := by
  induction n generalizing source target with
  | zero => exact steady_pure ()
  | succ n ih =>
    exact (steady_slot source).bind fun v =>
      (steady_setSlot target v).bind fun _ => ih (source + 1) (target + 1)

theorem steady_clearStack (start stop : Nat) : Steady (clearStack start stop) :=
  steady_modify fun _ _ h => { h with stack := by rw [h.stack] }

theorem steady_setTop (top : Nat) : Steady (setTop top) :=
  steady_modify fun _ _ h => { h with top := rfl }

theorem steady_raiseTop (top : Nat) : Steady (raiseTop top) :=
  steady_modify fun _ _ h => { h with top := by rw [h.top] }

theorem steady_ensureStack (size : Nat) : Steady (ensureStack size) := by
  have hgrow : Steady (modify fun m => if m.stack.size < size then
      { m with stack := m.stack ++ Array.replicate (size - m.stack.size) .nil } else m) := by
    refine steady_modify fun m m' h => ?_
    rw [h.stack]
    split
    · exact { h with stack := rfl }
    · exact h
  refine steady_get fun m m' h => ?_
  rw [h.options.slots]
  exact steady_ite ((steady_raise _).bind fun _ => hgrow) hgrow m m' h

theorem steady_frame : Steady frame := by
  refine steady_get fun m m' h => ?_
  rw [h.frames]
  split
  · exact concur_pure h _
  · exact concur_throw h _

theorem steady_modifyFrame (g : Frame → Frame) : Steady (modifyFrame g) :=
  steady_modify fun _ _ h => { h with frames := by rw [h.frames] }

theorem steady_jump (offset : Int) : Steady (jump offset) := steady_modifyFrame _

theorem steady_fetch : Steady fetch := by
  refine (steady_frame).bind fun f => (steady_modifyFrame _).bind fun _ => ?_
  split
  · exact steady_pure _
  · exact steady_throw _

theorem steady_trace : Steady trace :=
  (steady_frame).bind fun _ => (steady_slots _ _).bind fun _ => steady_write _

theorem steady_fetching : Steady fetching := by
  refine steady_get fun m m' h => ?_
  rw [h.options.trace]
  exact steady_ite ((steady_trace).bind fun _ => steady_fetch) steady_fetch m m' h

theorem steady_register (f : Frame) (i : Nat) : Steady (register f i) := steady_slot _

theorem steady_setRegister (f : Frame) (i : Nat) (v : Value) : Steady (setRegister f i v) :=
  steady_setSlot _ v

theorem steady_constant (f : Frame) (i : Nat) : Steady (constant f i) := by
  unfold constant
  split
  · exact steady_pure _
  · exact steady_throw _

theorem steady_setLoop (f : Frame) (a : Nat) (l : NumericLoop) : Steady (setLoop f a l) :=
  steady_setSlots _ _

theorem steady_collectIfDue (size : Nat) : Steady (modify fun m => m.collectIfDue size) :=
  steady_modify fun m m' h => h.fades (fades_collectIfDue m size) (fades_collectIfDue m' size)

theorem steady_modifyHeap {g : Heap → Heap}
    (hg : ∀ h h' : Heap, h.Agrees h' → (g h).Agrees (g h')) : Steady (modifyHeap g) :=
  steady_modify fun _ _ h => h.withHeap (hg _ _ h.heap)

theorem steady_allocate (o : Object) : Steady (allocate o) := by
  refine (steady_collectIfDue _).bind fun _ => ?_
  intro m m' h
  show SameEnd (.ok m.heap.cells.size _) (.ok m'.heap.cells.size _)
  rw [h.heap.size]
  exact .ok (h.withHeap (h.heap.allocate o))

theorem steady_newTable : Steady newTable := (steady_allocate _).map _

/-- A new text is no object that another one leads to. -/
theorem fades_addText (m : Machine) (s : String) : m.Fades { m with heap := m.heap.addText s } :=
  ⟨rfl, fun _ ha => ⟨ha.size, ha.cell⟩, fun _ hs => hs⟩

theorem newText_fades (s : String) :
    m.Ensures (newText s) (fun v n => v = .str s ∧ m.Fades n) fun _ _ => False := by
  simp only [newText, ensures_bind, ensures_get, ensures_ite, ensures_modify, ensures_pure]
  exact ⟨fun _ => ⟨trivial, (fades_collectIfDue m _).trans (fades_addText _ s)⟩,
    fun _ => ⟨trivial, .refl m⟩⟩

theorem steady_newText (s : String) : Steady (newText s) := fun _ _ h =>
  h.concur_fades (newText_fades s) (newText_fades s)

/-- The pool of a closure that is there holds the constants of its prototype. -/
theorem Sound.pool {r : Ref} {c : Closure} (hm : Sound code m)
    (hc : m.heap.cells[r]? = some (.closure c)) {vs : Array Value}
    (hvs : m.pools[c.id]? = some vs) : vs = c.prototype.chunk.constants.map Constant.value := by
  have hclosure : Heap.ClosureSound code m.programs m.heap c := hm.heap.objects r _ hc
  obtain ⟨p, hp, hvalues⟩ := (hm.heap.pools _ _ hvs).values
  rw [hclosure.prototype] at hp
  cases hp
  exact hvalues

theorem steady_capture (slot : Nat) : Steady (capture slot) := by
  refine steady_get fun m m' h => ?_
  rw [h.opened]
  split
  · exact concur_pure h _
  · refine (Steady.bind (steady_allocate _) fun r => .bind (steady_modify fun _ _ h => ?_)
      fun _ => steady_pure r) m m' h
    exact { h with opened := by rw [h.opened] }

theorem position_eq (h : m.Alike m') : m'.position = m.position := by
  unfold position
  rw [h.frames]

theorem steady_positioned (e : RuntimeError) : Steady (positioned e) := by
  refine steady_get fun m m' h => ?_
  rw [position_eq h]
  exact ((steady_newText _).bind fun _ => steady_pure _) m m' h

theorem steady_setItems (r : Ref) (n source key : Nat) : Steady (setItems r n source key) := by
  induction n generalizing source key with
  | zero => exact steady_pure ()
  | succ n ih =>
    exact (steady_slot source).bind fun v =>
      (steady_modifyHeap fun _ _ ha => ha.modifyTable r _).bind fun _ => ih (source + 1) (key + 1)

theorem steady_setKey (r : Ref) (key value : Value) : Steady (setKey r key value) := by
  unfold setKey
  split
  · exact steady_modifyHeap fun _ _ ha => ha.modifyTable r _
  · exact steady_raise _

theorem steady_setIndex (object key value : Value) : Steady (setIndex object key value) := by
  unfold setIndex
  split
  · exact steady_setKey _ _ _
  · exact steady_raise _

/-! ## Objects that both machines have -/

theorem Alike.concur_index (h : m.Alike m') {object : Value} (ho : m.heap.Has object)
    (ho' : m'.heap.Has object) (key : Value) :
    Concur m m' (index object key) (index object key) := by
  unfold index
  split
  next r =>
    show SameEnd (.ok ((m.heap.table r).get key) m) (.ok ((m'.heap.table r).get key) m')
    rw [h.heap.table ho ho']
    exact .ok h
  next => exact concur_raise h _

theorem Alike.concur_length (h : m.Alike m') {v : Value} (hv : m.heap.Has v)
    (hv' : m'.heap.Has v) : Concur m m' (length v) (length v) := by
  unfold length
  split
  · exact concur_pure h _
  next r =>
    show SameEnd (.ok (Value.int (Int64.ofNat (m.heap.table r).length)) m)
      (.ok (Value.int (Int64.ofNat (m'.heap.table r).length)) m')
    rw [h.heap.table hv hv']
    exact .ok h
  next => exact concur_raise h _

/-! ### Upvalues -/

theorem Alike.concur_upvalue (h : m.Alike m') {u : Option Ref} (hu : IsUpvalue m.heap u)
    (hu' : IsUpvalue m'.heap u) : Concur m m' (upvalue u) (upvalue u) := by
  cases u with
  | none => exact concur_throw h _
  | some r =>
    obtain ⟨x, hx⟩ := hu r rfl
    obtain ⟨x', hx'⟩ := hu' r rfl
    cases h.heap.upvalue hx hx'
    refine concur_get ?_
    rw [Heap.upvalue?_eq_some_iff.mpr hx, Heap.upvalue?_eq_some_iff.mpr hx']
    exact concur_pure h _

theorem Alike.concur_readUpvalue (h : m.Alike m') {u : Option Ref} (hu : IsUpvalue m.heap u)
    (hu' : IsUpvalue m'.heap u) : Concur m m' (readUpvalue u) (readUpvalue u) := by
  refine (h.concur_upvalue hu hu').bind fun x _ _ _ _ h => ?_
  exact steady_read (f := fun m => x.2.get m.stack) (fun _ _ h => by rw [h.stack]) _ _ h

theorem Alike.concur_writeUpvalue (h : m.Alike m') {u : Option Ref} (hu : IsUpvalue m.heap u)
    (hu' : IsUpvalue m'.heap u) (v : Value) :
    Concur m m' (writeUpvalue u v) (writeUpvalue u v) := by
  refine (h.concur_upvalue hu hu').bind fun x n n' _ _ h => ?_
  obtain ⟨r, u⟩ := x
  cases u with
  | opened s => exact steady_setSlot s v n n' h
  | closed => exact steady_modifyHeap (fun _ _ ha => ha.set r _) n n' h

/-- The running closure has one more upvalue, or none. -/
theorem Active.concur_ownUpvalue (h : m.Alike m') (hf : Active code f m) (hf' : Active code' f m')
    (i : Nat) : Concur m m' (ownUpvalue f i) (ownUpvalue f i) := by
  obtain ⟨c, hc, -⟩ := hf.frame.closure
  obtain ⟨c', hc', -⟩ := hf'.frame.closure
  refine concur_get ?_
  rw [closure?_eq_some_iff.mpr hc, closure?_eq_some_iff.mpr (h.heap.closure hc ⟨c', hc'⟩)]
  exact concur_pure h _

theorem Active.ownUpvalue_is (hf : Active code f m) {i : Nat} {u : Option Ref} {n : Machine}
    (hrun : (ownUpvalue f i).run m = .ok u n) : n = m ∧ IsUpvalue m.heap u :=
  Ensures.of_ok (Q := fun u n => n = m ∧ IsUpvalue m.heap u) (E := fun _ _ => True)
    (ensures_ownUpvalue hf.ready.toSound (fun _ hu => ⟨rfl, hu⟩) trivial) hrun

/-- What is done with an upvalue of the running closure. -/
theorem Active.concur_withUpvalue (h : m.Alike m') (hf : Active code f m)
    (hf' : Active code' f m') (i : Nat) {x : Option Ref → Exec α}
    (hx : ∀ u, IsUpvalue m.heap u → IsUpvalue m'.heap u → Concur m m' (x u) (x u)) :
    Concur m m' (ownUpvalue f i >>= x) (ownUpvalue f i >>= x) := by
  refine (hf.concur_ownUpvalue h hf' i).bind fun u n n' hrun hrun' _ => ?_
  obtain ⟨rfl, hu⟩ := hf.ownUpvalue_is hrun
  obtain ⟨rfl, hu'⟩ := hf'.ownUpvalue_is hrun'
  exact hx u hu hu'

theorem Sound.readUpvalue_has (hm : Sound code m) {u : Option Ref} {v : Value} {n : Machine}
    (hrun : (readUpvalue u).run m = .ok v n) : n = m ∧ m.heap.Has v :=
  Ensures.of_ok (Q := fun v n => n = m ∧ m.heap.Has v) (E := fun _ _ => True)
    (ensures_readUpvalue hm (fun _ hv => ⟨rfl, hv⟩) trivial) hrun

/-- What is done with the value of an upvalue of the running closure. -/
theorem Active.concur_withEnvironment (h : m.Alike m') (hf : Active code f m)
    (hf' : Active code' f m') (i : Nat) {x : Value → Exec α}
    (hx : ∀ v, m.heap.Has v → m'.heap.Has v → Concur m m' (x v) (x v)) :
    Concur m m' (do let u ← ownUpvalue f i; let v ← readUpvalue u; x v)
      (do let u ← ownUpvalue f i; let v ← readUpvalue u; x v) := by
  refine hf.concur_withUpvalue h hf' i fun u hu hu' => ?_
  refine (h.concur_readUpvalue hu hu').bind fun v n n' hrun hrun' _ => ?_
  obtain ⟨rfl, hv⟩ := hf.ready.toSound.readUpvalue_has hrun
  obtain ⟨rfl, hv'⟩ := hf'.ready.toSound.readUpvalue_has hrun'
  exact hx v hv hv'

/-! ### Closing -/

/-- The same upvalues are closed, with the same values. -/
theorem Alike.concur_closeUpvalues (h : m.Alike m') (hm : Sound code m) (hm' : Sound code' m')
    (lowest : Nat) : Concur m m' (closeUpvalues lowest) (closeUpvalues lowest) := by
  refine concur_get ?_
  rw [h.opened]
  generalize hl : m.openUpvalues = opened
  induction opened generalizing m m' with
  | nil => exact concur_pure h _
  | cons u rest ih =>
    obtain ⟨s, r⟩ := u
    have hl' : m'.openUpvalues = (s, r) :: rest := h.opened.trans hl
    have hcell := hm.opened.cell (s, r) (hl ▸ List.mem_cons_self)
    have hcell' := hm'.opened.cell (s, r) (hl' ▸ List.mem_cons_self)
    rw [List.takeWhile_cons]
    split
    next =>
      refine concur_get ?_
      rw [Heap.upvalue?_eq_some_iff.mpr hcell, Heap.upvalue?_eq_some_iff.mpr hcell', h.stack]
      have hclosed := (hm.closeHead hl).2
      have hclosed' := (hm'.closeHead hl').2
      rw [show m'.stack.getD s .nil = m.stack.getD s .nil by rw [h.stack]] at hclosed'
      have hnext : Alike
          { m with heap := m.heap.setUpvalue r (.closed (m.stack.getD s .nil)), openUpvalues := rest }
          { m' with
            heap := m'.heap.setUpvalue r (.closed (m.stack.getD s .nil)), openUpvalues := rest } :=
        { h with heap := h.heap.set r _, opened := rfl }
      have hrest := ih hnext hclosed hclosed' rfl
      show Concur { m with
          heap := m.heap.setUpvalue r (.closed (m.stack.getD s .nil))
          openUpvalues := m.openUpvalues.tail }
        { m' with
          heap := m'.heap.setUpvalue r (.closed (m.stack.getD s .nil))
          openUpvalues := m'.openUpvalues.tail } _ _
      rw [hl, hl']
      exact hrest
    next => exact concur_pure h _

theorem Alike.concur_leave (h : m.Alike m') (hm : Sound code m) (hm' : Sound code' m')
    (source : Nat) (count : Option Nat) : Concur m m' (leave source count) (leave source count) := by
  refine (steady_frame m m' h).bind fun f n n' hrun hrun' h => ?_
  have hsame : ∀ {p q : Machine}, frame.run p = .ok f q → q = p := fun {p q} hq =>
    Ensures.of_ok (Q := fun _ q => q = p) (E := fun _ _ => True)
      ((ensures_frame _).mpr ⟨fun _ _ => rfl, fun _ => trivial⟩) hq
  obtain rfl := hsame hrun
  obtain rfl := hsame hrun'
  refine (h.concur_closeUpvalues hm hm' f.base).bind fun _ n n' _ _ h => ?_
  split
  · exact concur_raise h _
  next count _ =>
    have hpop : Steady (modify fun m : Machine => { m with frames := m.frames.pop }) :=
      steady_modify fun _ _ h => { h with frames := by rw [h.frames] }
    refine ((steady_ensureStack _).bind fun _ => (steady_copySlots _ _ _).bind fun _ =>
      (steady_clearStack _ _).bind fun _ => steady_get fun m m' h => ?_) n n' h
    rw [h.top]
    refine ((steady_clearStack _ _).bind fun _ => hpop.bind fun _ =>
      steady_get fun m m' h => ?_) m m' h
    have hset : ∀ stop, Steady (do setTop stop; return count) := fun stop =>
      (steady_setTop stop).bind fun _ => steady_pure _
    rw [h.frames]
    split
    · exact hset _ m m' h
    · refine steady_ite (hset _) ?_ m m' h
      exact steady_ite ((steady_modifyFrame _).bind fun _ => hset _) (hset _)

theorem Alike.concur_fillUpvalue (h : m.Alike m') {r : Ref} (hr : m.heap.Has (.closure r))
    (hr' : m'.heap.Has (.closure r)) (k : Nat) (u : Option Ref) :
    Concur m m' (fillUpvalue r k u) (fillUpvalue r k u) := by
  obtain ⟨c, hc⟩ := hr
  refine concur_get ?_
  rw [closure?_eq_some_iff.mpr hc, closure?_eq_some_iff.mpr (h.heap.closure hc hr')]
  dsimp only
  split
  · exact steady_modifyHeap (fun _ _ ha => ha.set r _) m m' h
  · exact concur_throw h _

/-- A register of the running function is captured, or one of its upvalues is handed on. -/
def sourceOf (f : Frame) (source : UpvalueSource) : Exec (Option Ref) :=
  if source.fromRegister then some <$> capture (f.base + source.index)
  else ownUpvalue f source.index

theorem fillUpvalues_cons (f : Frame) (r : Ref) (k : Nat) (source : UpvalueSource)
    (rest : List UpvalueSource) : fillUpvalues f r k (source :: rest) = (do
      let u ← sourceOf f source
      fillUpvalue r k u
      fillUpvalues f r (k + 1) rest) := by
  rw [fillUpvalues, sourceOf]
  split
  · rfl
  · rfl

/-- What the making of an upvalue leaves: the function still runs, and its registers hold what they
held. -/
theorem Active.source_is (hf : Active code f m) {source : UpvalueSource}
    (hfit : source.fromRegister = true → source.index < f.prototype.registers) :
    m.Ensures (sourceOf f source)
      (fun u n => Active code f n ∧ n.stack = m.stack ∧ IsUpvalue n.heap u) fun _ _ => True := by
  unfold sourceOf
  split
  next hreg =>
    rw [ensures_map]
    refine ensures_capture hf.ready.toSound hf.back (Nat.le_add_right _ _)
      (Nat.add_lt_add_left (hfit hreg) _) fun p opened r hp _ hmem _ => ?_
    refine ⟨⟨⟨hp, hf.ready.idle⟩, hf.back⟩, rfl, fun r' hr' => ?_⟩
    cases hr'
    exact ⟨_, hp.opened.cell _ hmem⟩
  next => exact ensures_ownUpvalue hf.ready.toSound (fun u hu => ⟨hf, rfl, hu⟩) trivial

theorem Active.fillUpvalue_is (hf : Active code f m) {r : Ref} {k : Nat} {u : Option Ref}
    (hu : IsUpvalue m.heap u) :
    m.Ensures (fillUpvalue r k u) (fun _ n => Active code f n ∧ n.stack = m.stack)
      fun _ _ => True :=
  ensures_fillUpvalue hf.ready.toSound hu (fun _ hh => ⟨⟨⟨hh, hf.ready.idle⟩, hf.back⟩, rfl⟩)
    fun _ => trivial

/-- The new closure is in a register meanwhile. -/
theorem Active.concur_fillUpvalues (h : m.Alike m') (hf : Active code f m) (hf' : Active code' f m')
    {r : Ref} {slot : Nat} (hr : m.stack.getD slot .nil = .closure r) {k : Nat}
    {sources : List UpvalueSource}
    (hsources : ∀ u ∈ sources, u.fromRegister = true → u.index < f.prototype.registers) :
    Concur m m' (fillUpvalues f r k sources) (fillUpvalues f r k sources) := by
  induction sources generalizing m m' k with
  | nil => exact concur_pure h ()
  | cons source rest ih =>
    have hfit := hsources source List.mem_cons_self
    rw [fillUpvalues_cons]
    refine Concur.bind ?_ fun u n n' hrun hrun' h => ?_
    · unfold sourceOf
      split
      · exact (steady_capture _).map _ m m' h
      · exact hf.concur_ownUpvalue h hf' _
    obtain ⟨hn, hstack, hu⟩ := (hf.source_is hfit).of_ok hrun
    obtain ⟨hn', -, hu'⟩ := (hf'.source_is hfit).of_ok hrun'
    rw [← hstack] at hr
    have hthere : n.heap.Has (.closure r) := hr ▸ hn.register_has slot
    have hthere' : n'.heap.Has (.closure r) := hr ▸ h.stack ▸ hn'.register_has slot
    refine (h.concur_fillUpvalue hthere hthere' k u).bind fun _ p p' hrun hrun' h => ?_
    obtain ⟨hp, hstack⟩ := (hn.fillUpvalue_is hu).of_ok hrun
    obtain ⟨hp', -⟩ := (hn'.fillUpvalue_is hu').of_ok hrun'
    exact ih h hp hp' (hstack ▸ hr) fun u hu => hsources u (List.mem_cons_of_mem source hu)

/-- The new closure is put into its register. -/
theorem Active.placed (hf : Active code f m) (ha : i.a < f.prototype.registers) {child : Prototype}
    (hchild : f.prototype.children[i.bx]? = some child) {r : Ref}
    (hmade : (allocate (.closure (Closure.create (f.id.child i.bx) child))).run m = .ok r n)
    {p : Machine} (hset : (setRegister f i.a (.closure r)).run n = .ok () p) :
    Active code f p ∧ p.stack.getD (f.base + i.a) .nil = .closure r := by
  obtain ⟨hprogram, hproto⟩ := hf.prototype
  have hplaced : m.Ensures (allocate (.closure (Closure.create (f.id.child i.bx) child)))
      (fun r n => Active code f { n with stack := n.stack.setIfInBounds (f.base + i.a) (.closure r) } ∧
        (n.stack.setIfInBounds (f.base + i.a) (.closure r)).getD (f.base + i.a) .nil = .closure r)
      fun _ _ => False := by
    refine ensures_allocate hf.ready.toSound Object.noConfusion (fun p hp => ?_) fun p hp _ hcell => ?_
    · exact ⟨hprogram, PrototypeId.prototype?_child hproto hchild, by simp [Closure.create],
        fun r hr => by simp [Closure.create] at hr⟩
    · have hset := (hf.works_collect hp).set ha (v := .closure m.heap.cells.size) ⟨_, hcell⟩
      obtain ⟨f', hf', -⟩ := hset.active
      cases hf.back.symm.trans hf'.back
      have hsize := hf.window_le_size
      refine ⟨hf', ?_⟩
      rw [Array.getD_eq_getD_getElem?, Array.getElem?_setIfInBounds_self_of_lt]
      · rfl
      · show f.base + i.a < m.stack.size
        omega
  have hplaced := hplaced.of_ok hmade
  cases hset
  exact hplaced

theorem Active.concur_makeClosure (h : m.Alike m') (hf : Active code f m) (hf' : Active code' f m')
    (ha : i.a < f.prototype.registers) :
    Concur m m' (makeClosure f i) (makeClosure f i) := by
  unfold makeClosure
  split
  next => exact concur_throw h _
  next child hchild =>
    refine (steady_allocate _ m m' h).bind fun r n n' hmade hmade' h => ?_
    refine (steady_setRegister f i.a _ n n' h).bind fun _ p p' hset hset' h => ?_
    obtain ⟨hp, hr⟩ := hf.placed ha hchild hmade hset
    obtain ⟨hp', -⟩ := hf'.placed ha hchild hmade' hset'
    refine (hp.concur_fillUpvalues h hp' hr fun u hu hreg => ?_).bind fun _ _ _ _ _ h =>
      concur_pure h _
    have hlt := hf.supplies child (Array.mem_of_getElem? hchild) u (Array.mem_toList_iff.mp hu)
    rwa [if_pos hreg] at hlt

/-! ### Calls -/

theorem Alike.concur_slot (h : m.Alike m') (k : Nat) {x : Value → Exec α}
    (hx : Concur m m' (x (m.stack.getD k .nil)) (x (m.stack.getD k .nil))) :
    Concur m m' (slot k >>= x) (slot k >>= x) := by
  show Concur m m' (x (m.stack.getD k .nil)) (x (m'.stack.getD k .nil))
  rw [h.stack]
  exact hx

/-- A register of the running function is read. -/
theorem Active.concur_register (hf : Active code f m) (h : m.Alike m') (hf' : Active code' f m')
    (k : Nat) {x : Value → Exec α}
    (hx : ∀ v, m.heap.Has v → m'.heap.Has v → Concur m m' (x v) (x v)) :
    Concur m m' (register f k >>= x) (register f k >>= x) := by
  have hv' := hf'.register_has (f.base + k)
  rw [h.stack] at hv'
  exact h.concur_slot _ (hx _ (hf.register_has _) hv')

theorem concur_constant (h : m.Alike m') (k : Nat) {x : Value → Exec α}
    (hx : ∀ v, Concur m m' (x v) (x v)) :
    Concur m m' (constant f k >>= x) (constant f k >>= x) := by
  unfold constant
  split
  next v _ => exact hx v
  next => exact (concur_throw h _).bind fun _ _ _ hrun => by cases hrun

/-- A register is set, and the next instruction follows. -/
theorem Concur.put {x : Exec Value} (hx : Concur m m' x x) (f : Frame) (k : Nat) :
    Concur m m' (do setRegister f k (← x); return Outcome.next)
      (do setRegister f k (← x); return Outcome.next) :=
  hx.bind fun _ n n' _ _ h =>
    ((steady_setRegister f k _).bind fun _ => steady_pure Outcome.next) n n' h

theorem Steady.put {x : Exec Value} (hx : Steady x) (f : Frame) (k : Nat) :
    Steady (do setRegister f k (← x); return Outcome.next) :=
  fun m m' h => (hx m m' h).put f k

theorem Steady.next {x : Exec Unit} (hx : Steady x) : Steady (do x; return Outcome.next) :=
  hx.bind fun _ => steady_pure _

theorem steady_operate (r : Value → Value → Except RuntimeError Value) (f : Frame) (a b c : Nat) :
    Steady (do
      let x ← register f b
      let y ← register f c
      setRegister f a (← ofExcept (r x y))
      return Outcome.next) :=
  (steady_register f b).bind fun _ => (steady_register f c).bind fun _ =>
    (steady_ofExcept _).put f a

theorem steady_setList (f : Frame) (i : Instruction) : Steady (setList f i) := by
  refine steady_fetch.bind fun extra => (steady_slot _).bind fun v => ?_
  split
  · exact (steady_setItems _ _ _ _).next
  · exact steady_throw _

theorem steady_vararg (f : Frame) (i : Instruction) : Steady (vararg f i) := by
  refine steady_ite ?_ (steady_setSlots _ _).next
  exact (steady_ensureStack _).bind fun _ => (steady_setSlots _ _).bind fun _ =>
    (steady_modifyFrame _).bind fun _ => (steady_raiseTop _).next

theorem steady_forPrepare (f : Frame) (i : Instruction) : Steady (forPrepare f i) := by
  refine (steady_register f _).bind fun _ => (steady_register f _).bind fun _ =>
    (steady_register f _).bind fun _ => (steady_ofExcept _).bind fun l => ?_
  split
  · exact (steady_setLoop _ _ _).next
  · exact (steady_jump _).next

theorem steady_forLoop (f : Frame) (i : Instruction) : Steady (forLoop f i) := by
  refine (steady_register f _).bind fun _ => (steady_register f _).bind fun _ =>
    (steady_register f _).bind fun _ => ?_
  dsimp only
  split
  · exact (steady_setLoop _ _ _).bind fun _ => (steady_jump _).next
  · exact (steady_pure ()).next

theorem steady_iterLoop (f : Frame) (i : Instruction) : Steady (iterLoop f i) :=
  (steady_register f _).bind fun _ => steady_ite
    ((steady_setRegister _ _ _).bind fun _ => (steady_jump _).next) (steady_pure _)

/-- Machines that are alike perform an instruction in the same way. -/
theorem Active.concur_perform (h : m.Alike m') (hf : Active code f m) (hf' : Active code' f m')
    {op : Opcode} (hop : i.opcode? = some op) (hfit : i.OperandsFit f.prototype op) :
    Concur m m' (perform f i) (perform f i) := by
  have steady : ∀ {x : Exec Outcome}, Steady x → Concur m m' x x := fun hx => hx m m' h
  simp only [perform, hop]
  cases op with
  | move => exact steady ((steady_register f _).put f _)
  | loadConstant => exact steady ((steady_constant f _).put f _)
  | loadBool => exact steady (steady_setRegister _ _ _).next
  | loadNil => exact steady (steady_setSlots _ _).next
  | getUpvalue =>
    exact hf.concur_withUpvalue h hf' _ fun u hu hu' => (h.concur_readUpvalue hu hu').put f _
  | setUpvalue =>
    refine hf.concur_withUpvalue h hf' _ fun u hu hu' => hf.concur_register h hf' _ fun v _ _ => ?_
    exact (h.concur_writeUpvalue hu hu' v).bind fun _ _ _ _ _ h => concur_pure h _
  | getGlobal =>
    exact hf.concur_withEnvironment h hf' _ fun v hv hv' => concur_constant h _ fun k =>
      (h.concur_index hv hv' k).put f _
  | setGlobal =>
    exact hf.concur_withEnvironment h hf' _ fun v _ _ => concur_constant h _ fun k =>
      hf.concur_register h hf' _ fun w _ _ => steady (steady_setIndex v k w).next
  | getTable =>
    exact hf.concur_register h hf' _ fun v hv hv' => hf.concur_register h hf' _ fun k _ _ =>
      (h.concur_index hv hv' k).put f _
  | setTable =>
    exact steady ((steady_register f _).bind fun _ => (steady_register f _).bind fun _ =>
      (steady_register f _).bind fun _ => (steady_setIndex _ _ _).next)
  | getField =>
    exact hf.concur_register h hf' _ fun v hv hv' => concur_constant h _ fun k =>
      (h.concur_index hv hv' k).put f _
  | setField =>
    exact steady ((steady_register f _).bind fun _ => (steady_constant f _).bind fun _ =>
      (steady_register f _).bind fun _ => (steady_setIndex _ _ _).next)
  | newTable => exact steady (steady_newTable.put f _)
  | setList => exact steady (steady_setList f i)
  | self =>
    refine hf.concur_register h hf' _ fun v hv hv' => hf.concur_register h hf' _ fun k _ _ => ?_
    refine (h.concur_index hv hv' k).bind fun w n n' _ _ h => ?_
    exact ((steady_setRegister _ _ _).bind fun _ => (steady_setRegister _ _ _).next) n n' h
  | add | sub | mul | div | idiv | mod | pow | band | bor | bxor | shl | shr =>
    exact steady (steady_operate _ _ _ _ _)
  | unm | bnot => exact steady ((steady_register f _).bind fun _ => (steady_ofExcept _).put f _)
  | not => exact steady ((steady_register f _).bind fun _ => (steady_setRegister _ _ _).next)
  | length =>
    exact hf.concur_register h hf' _ fun v hv hv' => (h.concur_length hv hv').put f _
  | concat =>
    exact steady ((steady_slots _ _).bind fun _ => (steady_ofExcept _).bind fun text =>
      (steady_newText text).put f _)
  | equal | less | lessEqual =>
    exact steady ((steady_register f _).bind fun _ => (steady_register f _).bind fun _ =>
      (steady_ofExcept _).bind fun _ => (steady_setRegister _ _ _).next)
  | jump => exact steady (steady_jump _).next
  | test =>
    exact steady ((steady_register f _).bind fun _ =>
      steady_ite (steady_jump _).next (steady_pure _))
  | call => exact steady (steady_pure _)
  | ret =>
    refine (h.concur_leave hf.ready.toSound hf'.ready.toSound _ _).bind fun n p p' _ _ h => ?_
    split
    · exact concur_pure h _
    · exact concur_pure h _
  | close =>
    exact (h.concur_closeUpvalues hf.ready.toSound hf'.ready.toSound _).bind fun _ _ _ _ _ h =>
      concur_pure h _
  | closure => exact hf.concur_makeClosure h hf' (hfit.single List.mem_cons_self)
  | vararg => exact steady (steady_vararg f i)
  | forPrepare => exact steady (steady_forPrepare f i)
  | forLoop => exact steady (steady_forLoop f i)
  | iterCall => exact steady ((steady_copySlots _ _ _).bind fun _ => steady_pure _)
  | iterLoop => exact steady (steady_iterLoop f i)
  | extra => exact steady (steady_throw _)

end Machine
end LuaMachine
