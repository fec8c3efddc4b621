import LuaMachine.Proofs.Machine.Moments
/-! # Machines grow older

Whatever is done with a machine, its options and its functions of the embedder stay the same, its
heap has no fewer places, and an upvalue that is open afterwards was open before, for the same slot,
or is new. So an upvalue that is closed once is never open again.

* `Heap.Ages`, `Machine.Ages`: what is common to a machine and every later one.
* `Machine.Silent`: the second machine has no code that the first one lacks.
* `Machine.Chain`, `Machine.Durable`, `Machine.Enduring`: relations of machines and later ones.
* `Machine.Lasts`: a computation leads to related machines, and its faults are of some sort.
* `Machine.lasting`: all functions of a run, for every such relation.
* `Machine.Moment.Begins.endures`, `Machine.Moment.Leads.endures`: the moments of a run.
-/
set_option autoImplicit false

namespace LuaMachine

/-! ## Older heaps -/

/-- Places are not given up, and no upvalue is opened that was there before. -/
structure Heap.Ages (h h' : Heap) : Prop where
  size : h.cells.size ≤ h'.cells.size
  opened : ∀ (r : Ref) (s : Nat), r < h.cells.size →
    h'.cells[r]? = some (.upvalue (.opened s)) → h.cells[r]? = some (.upvalue (.opened s))

namespace Heap

variable {h h' h'' : Heap}

theorem Ages.refl (h : Heap) : h.Ages h := ⟨Nat.le_refl _, fun _ _ _ hs => hs⟩

theorem Ages.trans (ha : h.Ages h') (ha' : h'.Ages h'') : h.Ages h'' where
  size := Nat.le_trans ha.size ha'.size
  opened r s hr hs := ha.opened r s hr (ha'.opened r s (Nat.lt_of_lt_of_le hr ha.size) hs)

/-- An upvalue that is open later on was open before, for the same slot. -/
theorem Ages.slot (ha : h.Ages h') {r : Ref} {u : Upvalue} {s : Nat}
    (hu : h.cells[r]? = some (.upvalue u)) (hs : h'.cells[r]? = some (.upvalue (.opened s))) :
    u = .opened s := by
  have hopen := ha.opened r s (Array.getElem?_eq_some_iff.mp hu).1 hs
  cases hu.symm.trans hopen
  rfl

theorem ages_allocate (h : Heap) (o : Object) : h.Ages (h.allocate o).1 where
  size := by
    show h.cells.size ≤ (h.cells.push o).size
    rw [Array.size_push]
    exact Nat.le_succ _
  opened r s hr hs := by
    rw [allocate_getElem?, if_neg (Nat.ne_of_lt hr)] at hs
    exact hs

theorem ages_addText (h : Heap) (s : String) : h.Ages (h.addText s) := ⟨Nat.le_refl _, fun _ _ _ hs => hs⟩

/-- An object that is no open upvalue takes the place of another one. -/
theorem ages_setIfInBounds (h : Heap) (r : Ref) {o : Object}
    (ho : ∀ s, o ≠ .upvalue (.opened s)) : h.Ages { h with cells := h.cells.setIfInBounds r o } where
  size := Nat.le_of_eq Array.size_setIfInBounds.symm
  opened r' s hr hs := by
    have hs : (h.cells.setIfInBounds r o)[r']? = _ := hs
    rw [Array.getElem?_setIfInBounds] at hs
    split at hs
    · split at hs
      · exact absurd (Option.some.inj hs) (ho s)
      · cases hs
    · exact hs

theorem ages_setClosure (h : Heap) (r : Ref) (c : Closure) : h.Ages (h.setClosure r c) :=
  h.ages_setIfInBounds r fun _ => Object.noConfusion

theorem ages_modifyTable (h : Heap) (r : Ref) (f : Table → Table) : h.Ages (h.modifyTable r f) where
  size := Nat.le_of_eq Array.size_modify.symm
  opened r' s hr hs := by
    have hs : (h.cells.modify r _)[r']? = _ := hs
    rw [Array.getElem?_modify] at hs
    split at hs
    · obtain ⟨o, ho, hof⟩ := Option.map_eq_some_iff.mp hs
      cases o with
      | table => cases hof
      | _ => exact ho.trans (congrArg some hof)
    · exact hs

theorem ages_collect (h : Heap) (pools : Pools) (roots : Roots) :
    h.Ages (h.collect pools roots).1 where
  size := Nat.le_of_eq (collect_size h pools roots).symm
  opened r s hr hs := by
    have hs : (h.sweep (h.mark pools roots)).cells[r]? = _ := hs
    rw [sweep_getElem?] at hs
    split at hs
    · cases hs
    · exact hs

end Heap

namespace Machine

/-! ## Older machines -/

/-- The second machine is the first one at a later time. -/
structure Ages (m m' : Machine) : Prop where
  options : m'.options = m.options
  hosts : m'.hosts = m.hosts
  heap : m.heap.Ages m'.heap

/-- The code of a closure or of a function that runs. -/
def Codes (m : Machine) (q : Prototype) : Prop :=
  (∃ (r : Ref) (c : Closure), m.heap.cells[r]? = some (.closure c) ∧ c.prototype = q) ∨
    ∃ f ∈ m.frames, f.prototype = q

/-- The second machine is a later one in which there is no other code. -/
structure Silent (m m' : Machine) : Prop extends m.Ages m' where
  codes : ∀ q, m'.Codes q → m.Codes q

variable {α β : Type} {m m' m'' : Machine} {N : Fault → Prop} {x : Exec α}
  {R : Machine → Machine → Prop}

theorem Ages.refl (m : Machine) : m.Ages m := ⟨rfl, rfl, .refl _⟩

theorem Ages.trans (h : m.Ages m') (h' : m'.Ages m'') : m.Ages m'' :=
  ⟨h'.options.trans h.options, h'.hosts.trans h.hosts, h.heap.trans h'.heap⟩

/-- A relation that holds step by step. -/
class Chain (R : Machine → Machine → Prop) : Prop where
  refl : ∀ m : Machine, R m m
  trans : ∀ {m m' m'' : Machine}, R m m' → R m' m'' → R m m''

/-- A relation that holds of a machine and each later one, as long as there is no other code. -/
class Durable (R : Machine → Machine → Prop) : Prop where
  silent : ∀ {m m' : Machine}, m.Silent m' → R m m'
  trans : ∀ {m m' m'' : Machine}, R m m' → R m' m'' → R m m''

instance : Durable Ages := ⟨fun h => h.toAges, Ages.trans⟩

instance : Durable Silent :=
  ⟨id, fun h h' => ⟨h.toAges.trans h'.toAges, fun q hq => h.codes q (h'.codes q hq)⟩⟩

theorem Silent.refl (m : Machine) : m.Silent m := ⟨.refl m, fun _ hq => hq⟩

instance [Durable R] : Chain R := ⟨fun m => Durable.silent (.refl m), Durable.trans⟩

theorem Silent.of_eq (hoptions : m'.options = m.options) (hhosts : m'.hosts = m.hosts)
    (hheap : m'.heap = m.heap) (hframes : m'.frames = m.frames) : m.Silent m' := by
  refine ⟨⟨hoptions, hhosts, hheap ▸ .refl _⟩, fun q hq => ?_⟩
  unfold Codes at hq ⊢
  rw [← hheap, ← hframes]
  exact hq

/-- The code in the heap and of the frames was there before. -/
theorem Silent.of_codes (hages : m.Ages m')
    (hheap : ∀ (r : Ref) (c : Closure), m'.heap.cells[r]? = some (.closure c) → m.Codes c.prototype)
    (hframes : ∀ f ∈ m'.frames, m.Codes f.prototype) : m.Silent m' := by
  refine ⟨hages, ?_⟩
  rintro q (⟨r, c, hc, rfl⟩ | ⟨f, hf, rfl⟩)
  · exact hheap r c hc
  · exact hframes f hf

theorem codes_frame {f : Frame} (hf : f ∈ m.frames) : m.Codes f.prototype := .inr ⟨f, hf, rfl⟩

theorem codes_closure {r : Ref} {c : Closure} (hc : m.heap.cells[r]? = some (.closure c)) :
    m.Codes c.prototype := .inl ⟨r, c, hc, rfl⟩

theorem silent_collect (m : Machine) : m.Silent m.collect := by
  refine .of_codes ⟨?_, ?_, ?_⟩ (fun r c hc => ?_) fun f hf => ?_
  · rw [collect_eq]
    rfl
  · rw [collect_eq]
    rfl
  · rw [(collect_frame m).1]
    exact m.heap.ages_collect _ _
  · rw [(collect_frame m).1] at hc
    have hc : (m.heap.sweep (m.heap.mark m.pools m.roots)).cells[r]? = _ := hc
    rw [Heap.sweep_getElem?] at hc
    split at hc
    · cases hc
    · exact codes_closure hc
  · rw [collect_eq] at hf
    exact codes_frame hf

theorem ages_collect (m : Machine) : m.Ages m.collect := (silent_collect m).toAges

theorem silent_collectIfDue (m : Machine) (size : Nat) : m.Silent (m.collectIfDue size) := by
  unfold collectIfDue
  split
  · exact silent_collect m
  · exact .refl m

/-- The computation leads to related machines, and a fault of it satisfies `N`. -/
def Lasts (R : Machine → Machine → Prop) (N : Fault → Prop) (x : Exec α) : Prop :=
  ∀ m : Machine, m.Ensures x (fun _ m' => R m m') fun e m' => R m m' ∧ N e

/-- All faults but that of an upvalue that is closed twice. -/
class Common (N : Fault → Prop) : Prop where
  fault : ∀ e : Fault, e ≠ .defect "upvalue closed twice" → N e

instance : Common fun _ => True := ⟨fun _ _ => trivial⟩

instance : Common fun e => e ≠ .defect "upvalue closed twice" := ⟨fun _ he => he⟩

theorem lasts_modify {f : Machine → Machine} (h : ∀ m : Machine, R m (f m)) :
    Lasts R N (modify f : Exec Unit) := h

/-- What goes on depends on the machine. -/
theorem Lasts.getBind {f : Machine → Exec β}
    (hf : ∀ m : Machine, m.Ensures (f m) (fun _ m' => R m m') fun e m' => R m m' ∧ N e) :
    Lasts R N (get >>= f) := by
  intro m
  rw [ensures_bind, ensures_get]
  exact hf m

theorem Lasts.of_silent [Durable R] (h : Lasts Silent N x) : Lasts R N x := fun m =>
  (h m).mono (fun _ _ hm => Durable.silent hm) fun _ _ he => ⟨Durable.silent he.1, he.2⟩

section chain

variable [Chain R]

theorem lasts_pure (a : α) : Lasts R N (pure a : Exec α) := fun m => Chain.refl m

theorem lasts_get : Lasts R N (get : Exec Machine) := fun m => Chain.refl m

theorem lasts_throw {e : Fault} (h : N e) : Lasts R N (throw e : Exec α) :=
  fun m => ⟨Chain.refl m, h⟩

namespace Lasts

theorem bind {f : α → Exec β} (hx : Lasts R N x) (hf : ∀ a, Lasts R N (f a)) :
    Lasts R N (x >>= f) := by
  intro m
  rw [ensures_bind]
  refine (hx m).mono_ok fun a m' h => ?_
  exact (hf a m').mono (fun _ _ h' => Chain.trans h h') fun _ _ h' => ⟨Chain.trans h h'.1, h'.2⟩

/-- A part of a longer computation, which began with the machine `m`. -/
theorem bindAt {f : α → Exec β} (hx : Lasts R N x) (h : R m m')
    (hf : ∀ a m₁, R m m₁ → m₁.Ensures (f a) (fun _ m₂ => R m m₂) fun e m₂ => R m m₂ ∧ N e) :
    m'.Ensures (x >>= f) (fun _ m₂ => R m m₂) fun e m₂ => R m m₂ ∧ N e := by
  rw [ensures_bind]
  exact (hx m').mono (fun a m₁ h₁ => hf a m₁ (Chain.trans h h₁)) fun _ _ h₁ =>
    ⟨Chain.trans h h₁.1, h₁.2⟩

theorem map {f : α → β} (hx : Lasts R N x) : Lasts R N (f <$> x) := by
  rw [← bind_pure_comp]
  exact hx.bind fun _ => lasts_pure _

theorem tryCatch {f : Fault → Exec α} (hx : Lasts R (fun _ => True) x) (hf : ∀ e, Lasts R N (f e)) :
    Lasts R N (tryCatchThe Fault x f) := by
  intro m
  refine (ensures_tryCatch f).mpr ((hx m).mono (fun _ _ hm => hm) fun e m' h => ?_)
  exact (hf e m').mono (fun _ _ h' => Chain.trans h.1 h') fun _ _ h' =>
    ⟨Chain.trans h.1 h'.1, h'.2⟩

end Lasts

/-! ## Reading and failing -/

theorem lasts_slot (i : Nat) : Lasts R N (slot i) := lasts_get.map

theorem lasts_slots (start count : Nat) : Lasts R N (slots start count) := lasts_get.map

theorem lasts_register (f : Frame) (i : Nat) : Lasts R N (register f i) := lasts_slot _

section common

variable [Common N]

theorem lasts_common {e : Fault} (he : e ≠ .defect "upvalue closed twice") :
    Lasts R N (throw e : Exec α) := lasts_throw (Common.fault e he)

theorem lasts_raise (e : RuntimeError) : Lasts R N (raise e : Exec α) :=
  lasts_common Fault.noConfusion

theorem lasts_missing {text : String} (h : text ≠ "upvalue closed twice") :
    Lasts R N (throw (.defect text) : Exec α) :=
  lasts_common fun he => h (Fault.defect.inj he)

/-- What goes on if nothing is wrong. -/
theorem lasts_unless {c : Prop} [Decidable c] {e : RuntimeError} {rest : Unit → Exec α}
    (h : ∀ u, Lasts R N (rest u)) : Lasts R N (if c then raise e >>= rest else rest ()) := by
  split
  · exact .bind (lasts_raise e) h
  · exact h ()

theorem lasts_ofExcept (r : Except RuntimeError α) : Lasts R N (ofExcept r) := by
  cases r with
  | ok a => exact lasts_pure a
  | error e => exact lasts_raise e

theorem lasts_index (object key : Value) : Lasts R N (index object key) := by
  unfold index
  split
  · exact lasts_get.map
  · exact lasts_raise _

theorem lasts_upvalue (u : Option Ref) : Lasts R N (upvalue u) := by
  unfold upvalue
  split
  · exact lasts_missing (by decide)
  · refine lasts_get.bind fun m => ?_
    split
    · exact lasts_pure _
    · exact lasts_missing (by decide)

theorem lasts_readUpvalue (u : Option Ref) : Lasts R N (readUpvalue u) :=
  (lasts_upvalue u).bind fun _ => lasts_get.map

theorem lasts_frame : Lasts R N frame := by
  unfold frame
  refine lasts_get.bind fun m => ?_
  split
  · exact lasts_pure _
  · exact lasts_missing (by decide)

theorem lasts_constant (f : Frame) (i : Nat) : Lasts R N (constant f i) := by
  unfold constant
  split
  · exact lasts_pure _
  · exact lasts_common Fault.noConfusion

theorem lasts_ownUpvalue (f : Frame) (i : Nat) : Lasts R N (ownUpvalue f i) := by
  unfold ownUpvalue
  refine lasts_get.bind fun m => ?_
  split
  · exact lasts_pure _
  · exact lasts_missing (by decide)

end common

end chain

section durable

variable [Durable R]

/-- Only fields other than the heap and the frames change. -/
theorem lasts_fields {f : Machine → Machine} (hoptions : ∀ m, (f m).options = m.options)
    (hhosts : ∀ m, (f m).hosts = m.hosts) (hheap : ∀ m, (f m).heap = m.heap)
    (hframes : ∀ m, (f m).frames = m.frames) : Lasts R N (modify f : Exec Unit) :=
  fun m => Durable.silent (.of_eq (hoptions m) (hhosts m) (hheap m) (hframes m))

/-- Only the frames change, and none of them gets other code. -/
theorem lasts_frames {g : Array Frame → Array Frame}
    (hg : ∀ fs, ∀ f ∈ g fs, ∃ f' ∈ fs, f'.prototype = f.prototype) :
    Lasts R N (modify fun m => { m with frames := g m.frames } : Exec Unit) := by
  refine fun m => Durable.silent (.of_codes ⟨rfl, rfl, .refl _⟩ (fun r c hc => ?_) fun f hf => ?_)
  · exact codes_closure (m := m) hc
  · obtain ⟨f', hf', heq⟩ := hg _ f hf
    exact heq ▸ codes_frame hf'

/-! ## Computations that do not fail -/

theorem lasts_write (s : String) : Lasts R N (write s) :=
  lasts_fields (fun _ => rfl) (fun _ => rfl) (fun _ => rfl) fun _ => rfl

theorem lasts_collectIfDue (size : Nat) : Lasts R N (modify fun m => m.collectIfDue size) :=
  lasts_modify fun m => Durable.silent (silent_collectIfDue m size)

/-- Only the heap changes, and no closure in it is new. -/
theorem silent_heap {h : Heap} (hages : m.heap.Ages h) (hcodes : ∀ (r : Ref) (c : Closure),
    h.cells[r]? = some (.closure c) → m.Codes c.prototype) : m.Silent { m with heap := h } :=
  .of_codes ⟨rfl, rfl, hages⟩ hcodes fun _ hf => codes_frame hf

/-- An object that is no closure is made. -/
theorem lasts_allocate {o : Object} (ho : ∀ c, o ≠ .closure c) : Lasts R N (allocate o) := by
  unfold allocate
  refine (lasts_collectIfDue _).bind fun _ m => Durable.silent (silent_heap (m.heap.ages_allocate o)
    fun r c hc => ?_)
  rw [Heap.allocate_getElem?] at hc
  split at hc
  · exact absurd (Option.some.inj hc) (ho c)
  · exact codes_closure hc

/-- An object that is no closure and no open upvalue takes the place of another one. -/
theorem silent_setIfInBounds {r : Ref} {o : Object} (hopen : ∀ s, o ≠ .upvalue (.opened s))
    (ho : ∀ c, o = .closure c → m.Codes c.prototype) :
    m.Silent { m with heap := { m.heap with cells := m.heap.cells.setIfInBounds r o } } := by
  refine silent_heap (m.heap.ages_setIfInBounds r hopen) fun r' c hc => ?_
  have hc : (m.heap.cells.setIfInBounds r o)[r']? = _ := hc
  rw [Array.getElem?_setIfInBounds] at hc
  split at hc
  · split at hc
    · exact ho c (Option.some.inj hc)
    · cases hc
  · exact codes_closure hc

theorem lasts_modifyTable (r : Ref) (f : Table → Table) :
    Lasts R N (modifyHeap fun h => h.modifyTable r f) := by
  refine fun m => Durable.silent (silent_heap (m.heap.ages_modifyTable r f) fun r' c hc => ?_)
  have hc : (m.heap.cells.modify r _)[r']? = _ := hc
  rw [Array.getElem?_modify] at hc
  split at hc
  · obtain ⟨o, ho, hof⟩ := Option.map_eq_some_iff.mp hc
    cases o with
    | table => cases hof
    | _ => exact codes_closure (ho.trans (congrArg some hof))
  · exact codes_closure hc

theorem lasts_newText (s : String) : Lasts R N (newText s) := by
  unfold newText
  refine lasts_get.bind fun m => ?_
  split
  · refine (lasts_collectIfDue _).bind fun _ => .bind ?_ fun _ => lasts_pure _
    exact lasts_modify fun m => Durable.silent
      (silent_heap (m.heap.ages_addText s) fun _ _ hc => codes_closure hc)
  · exact lasts_pure _

theorem lasts_newTable : Lasts R N newTable := (lasts_allocate fun _ => Object.noConfusion).map

theorem lasts_clearStack (start stop : Nat) : Lasts R N (clearStack start stop) :=
  lasts_fields (fun _ => rfl) (fun _ => rfl) (fun _ => rfl) fun _ => rfl

theorem lasts_setSlot (i : Nat) (v : Value) : Lasts R N (setSlot i v) :=
  lasts_fields (fun _ => rfl) (fun _ => rfl) (fun _ => rfl) fun _ => rfl

theorem lasts_setSlots (i : Nat) (vs : List Value) : Lasts R N (setSlots i vs) := by
  induction vs generalizing i with
  | nil => exact lasts_pure ()
  | cons v rest ih => exact (lasts_setSlot i v).bind fun _ => ih (i + 1)

theorem lasts_copySlots (n source target : Nat) : Lasts R N (copySlots n source target) := by
  induction n generalizing source target with
  | zero => exact lasts_pure ()
  | succ n ih =>
    exact (lasts_slot source).bind fun v =>
      (lasts_setSlot target v).bind fun _ => ih (source + 1) (target + 1)

theorem lasts_setTop (top : Nat) : Lasts R N (setTop top) :=
  lasts_fields (fun _ => rfl) (fun _ => rfl) (fun _ => rfl) fun _ => rfl

theorem lasts_raiseTop (top : Nat) : Lasts R N (raiseTop top) :=
  lasts_fields (fun _ => rfl) (fun _ => rfl) (fun _ => rfl) fun _ => rfl

theorem lasts_modifyFrame {f : Frame → Frame} (hf : ∀ g, (f g).prototype = g.prototype) :
    Lasts R N (modifyFrame f) := by
  refine lasts_frames (g := fun fs => fs.modify (fs.size - 1) f) fun fs g hg => ?_
  obtain ⟨i, hi⟩ := Array.mem_iff_getElem?.mp hg
  rw [Array.getElem?_modify] at hi
  split at hi
  · obtain ⟨g', hg', rfl⟩ := Option.map_eq_some_iff.mp hi
    exact ⟨g', Array.mem_of_getElem? hg', (hf g').symm⟩
  · exact ⟨g, Array.mem_of_getElem? hi, rfl⟩

theorem lasts_capture (slot : Nat) : Lasts R N (capture slot) := by
  unfold capture
  refine lasts_get.bind fun m => ?_
  split
  · exact lasts_pure _
  · refine (lasts_allocate fun _ => Object.noConfusion).bind fun r => .bind ?_ fun _ => lasts_pure r
    exact lasts_fields (fun _ => rfl) (fun _ => rfl) (fun _ => rfl) fun _ => rfl

theorem lasts_positioned (e : RuntimeError) : Lasts R N (positioned e) :=
  lasts_get.bind fun _ => (lasts_newText _).bind fun _ => lasts_pure _

theorem lasts_fillPool (ks : List Constant) : Lasts R N (fillPool ks) := by
  induction ks with
  | nil => exact lasts_pure ()
  | cons k rest ih =>
    unfold fillPool
    have hrest : ∀ v : Value, Lasts R N (do
        modify fun m => { m with filling := m.filling.push v }
        fillPool rest) := fun v =>
      .bind (lasts_fields (fun _ => rfl) (fun _ => rfl) (fun _ => rfl) fun _ => rfl) fun _ => ih
    split
    · exact (lasts_newText _).bind hrest
    · exact (lasts_pure _).bind hrest

theorem lasts_constants (c : Closure) : Lasts R N (constants c) := by
  unfold constants
  refine lasts_get.bind fun m => ?_
  split
  · exact lasts_pure _
  · exact (lasts_fillPool _).bind fun _ m => Durable.silent (.of_eq rfl rfl rfl rfl)

theorem lasts_pin (v : Value) : Lasts R N (pin v) :=
  lasts_fields (fun _ => rfl) (fun _ => rfl) (fun _ => rfl) fun _ => rfl

theorem lasts_unpin (v : Value) : Lasts R N (unpin v) :=
  lasts_fields (fun _ => rfl) (fun _ => rfl) (fun _ => rfl) fun _ => rfl

theorem lasts_getGlobal (name : String) : Lasts R N (getGlobal name) :=
  (lasts_newText _).bind fun _ => lasts_get.map

theorem lasts_jump (offset : Int) : Lasts R N (jump offset) := lasts_modifyFrame fun _ => rfl

theorem lasts_setRegister (f : Frame) (i : Nat) (v : Value) : Lasts R N (setRegister f i v) :=
  lasts_setSlot _ v

theorem lasts_setItems (r : Ref) (n source key : Nat) : Lasts R N (setItems r n source key) := by
  induction n generalizing source key with
  | zero => exact lasts_pure ()
  | succ n ih =>
    exact (lasts_slot source).bind fun v =>
      (lasts_modifyTable r _).bind fun _ => ih (source + 1) (key + 1)

theorem lasts_setLoop (f : Frame) (a : Nat) (l : NumericLoop) : Lasts R N (setLoop f a l) :=
  lasts_setSlots _ _

theorem lasts_forLoop (f : Frame) (i : Instruction) : Lasts R N (forLoop f i) := by
  refine (lasts_register _ _).bind fun _ => (lasts_register _ _).bind fun _ =>
    (lasts_register _ _).bind fun _ => ?_
  dsimp only
  split
  · exact (lasts_setLoop _ _ _).bind fun _ => (lasts_jump _).bind fun _ => lasts_pure _
  · exact (lasts_pure _).bind fun _ => lasts_pure _

theorem lasts_iterLoop (f : Frame) (i : Instruction) : Lasts R N (iterLoop f i) := by
  refine (lasts_register _ _).bind fun v => ?_
  dsimp only
  split
  · exact (lasts_setRegister _ _ _).bind fun _ => (lasts_jump _).bind fun _ => lasts_pure _
  · exact lasts_pure _

/-- A register is set, and the next instruction follows. -/
theorem lasts_put {x : Exec Value} (hx : Lasts R N x) (f : Frame) (i : Nat) :
    Lasts R N (do
      let v ← x
      setRegister f i v
      return Outcome.next) :=
  hx.bind fun v => (lasts_setRegister f i v).bind fun _ => lasts_pure _

/-! ## Computations with common faults -/

section common

variable [Common N]

theorem lasts_setKey (r : Ref) (key value : Value) : Lasts R N (setKey r key value) := by
  unfold setKey
  split
  · exact lasts_modifyTable r _
  · exact lasts_raise _

theorem lasts_setIndex (object key value : Value) : Lasts R N (setIndex object key value) := by
  unfold setIndex
  split
  · exact lasts_setKey _ _ _
  · exact lasts_raise _

theorem lasts_ensureStack (size : Nat) : Lasts R N (ensureStack size) := by
  unfold ensureStack
  refine lasts_get.bind fun m => ?_
  have hgrow : Lasts R N (modify fun m => if m.stack.size < size then
      { m with stack := m.stack ++ Array.replicate (size - m.stack.size) .nil } else m) := by
    refine lasts_fields (fun m => ?_) (fun m => ?_) (fun m => ?_) fun m => ?_
    all_goals split <;> rfl
  exact lasts_unless fun _ => hgrow

theorem lasts_writeUpvalue (u : Option Ref) (v : Value) : Lasts R N (writeUpvalue u v) := by
  unfold writeUpvalue
  refine (lasts_upvalue u).bind fun ⟨r, u⟩ => ?_
  cases u with
  | opened i => exact lasts_setSlot i v
  | closed =>
    exact fun m => Durable.silent
      (silent_setIfInBounds (fun _ ho => by cases ho) fun _ ho => by cases ho)

theorem lasts_enter (closure : Ref) (func : Nat) (argc wanted : Option Nat) (toHost : Bool) :
    Lasts R N (enter closure func argc wanted toHost) := by
  unfold enter
  refine .of_silent (.getBind fun m => ?_)
  dsimp only
  split
  · rw [ensures_bind]
    exact ⟨.refl m, Common.fault _ Fault.noConfusion⟩
  split
  · exact ⟨.refl m, Common.fault _ fun he => absurd (Fault.defect.inj he) (by decide)⟩
  next c hc =>
    -- the code of the closure was there when the call began
    have hcode := codes_closure (closure?_eq_some_iff.mp hc)
    have hpush : ∀ (start stop start' stop' : Nat) (f : Frame) (m₁ : Machine),
        f.prototype = c.prototype → m.Silent m₁ → m₁.Ensures (do
          clearStack start stop
          clearStack start' stop'
          modify fun m => { m with frames := m.frames.push f, top := max m.top stop' })
        (fun _ m₂ => m.Silent m₂) fun e m₂ => m.Silent m₂ ∧ N e := by
      intro start stop start' stop' f m₁ hf h₁
      refine (lasts_clearStack _ _).bindAt h₁ fun _ m₂ h₂ =>
        (lasts_clearStack _ _).bindAt h₂ fun _ m₃ h₃ => ?_
      refine .of_codes ⟨h₃.options, h₃.hosts, h₃.heap⟩ (fun r' c' hc' => ?_) fun g hg => ?_
      · exact h₃.codes _ (codes_closure hc')
      · rcases Array.mem_push.mp hg with hg | rfl
        · exact h₃.codes _ (codes_frame hg)
        · exact hf ▸ hcode
    refine (lasts_ensureStack _).bindAt (.refl m) fun _ m₁ h₁ =>
      (lasts_constants _).bindAt h₁ fun pool m₂ h₂ => ?_
    split
    · split
      · exact (lasts_slots _ _).bindAt h₂ fun _ m₃ h₃ => hpush _ _ _ _ _ _ rfl h₃
      · rw [ensures_bind]
        exact ⟨h₂, Common.fault _ Fault.noConfusion⟩
    · exact (lasts_pure _).bindAt h₂ fun _ m₃ h₃ => hpush _ _ _ _ _ _ rfl h₃

theorem lasts_deliver (results : List Value) (func : Nat) (wanted : Option Nat) :
    Lasts R N (deliver results func wanted) := by
  unfold deliver
  refine .bind (lasts_ensureStack _) fun _ => .bind (lasts_setSlots _ _) fun _ =>
    .bind (lasts_clearStack _ _) fun _ => ?_
  split
  · exact .bind (lasts_modifyFrame fun _ => rfl) fun _ => lasts_raiseTop _
  · exact lasts_raiseTop _

theorem lasts_enterFromHost (r : Ref) (func : Nat) (args : List Value) :
    Lasts R N (enterFromHost r func args) :=
  .bind (lasts_ensureStack _) fun _ => .bind (lasts_setSlots _ _) fun _ =>
    .bind (lasts_setTop _) fun _ => lasts_enter _ _ _ _ _

/-! ## Instructions -/

theorem lasts_fetch : Lasts R N fetch := by
  refine .bind lasts_frame fun f => .bind (lasts_modifyFrame fun _ => rfl) fun _ => ?_
  split
  · exact lasts_pure _
  · exact lasts_common Fault.noConfusion

theorem lasts_trace : Lasts R N trace :=
  .bind lasts_frame fun _ => .bind (lasts_slots _ _) fun _ => lasts_write _

theorem lasts_fetching : Lasts R N fetching := by
  refine lasts_get.bind fun m => ?_
  split
  · exact .bind lasts_trace fun _ => lasts_fetch
  · exact lasts_fetch

theorem lasts_length (v : Value) : Lasts R N (length v) := by
  unfold length
  split
  · exact lasts_pure _
  · exact lasts_get.map
  · exact lasts_raise _

theorem lasts_setList (f : Frame) (i : Instruction) : Lasts R N (setList f i) := by
  refine .bind lasts_fetch fun extra => .bind (lasts_slot _) fun v => ?_
  split
  · exact (lasts_setItems _ _ _ _).bind fun _ => lasts_pure _
  · exact lasts_missing (by decide)

theorem lasts_fillUpvalue (r : Ref) (i : Nat) (u : Option Ref) : Lasts R N (fillUpvalue r i u) := by
  unfold fillUpvalue
  refine .of_silent (.getBind fun m => ?_)
  split
  · exact ⟨.refl m, Common.fault _ fun he => absurd (Fault.defect.inj he) (by decide)⟩
  next c hc =>
    have hcode := codes_closure (closure?_eq_some_iff.mp hc)
    split
    next c' hset =>
      refine silent_setIfInBounds (fun _ => Object.noConfusion) fun c'' heq => ?_
      cases heq
      unfold Closure.setUpvalue at hset
      split at hset
      · cases hset
        exact hcode
      · cases hset
    next hset =>
      refine ⟨.refl m, Common.fault _ ?_⟩
      unfold Closure.setUpvalue at hset
      split at hset
      · cases hset
      · intro he
        rw [he] at hset
        have hchar := congrArg (fun text : String => text.toList[8]?)
          (Fault.defect.inj (Except.error.inj hset))
        simp [String.toList_append] at hchar

theorem lasts_fillUpvalues (f : Frame) (r : Ref) (i : Nat) (sources : List UpvalueSource) :
    Lasts R N (fillUpvalues f r i sources) := by
  induction sources generalizing i with
  | nil => exact lasts_pure ()
  | cons source rest ih =>
    have hrest : ∀ u : Option Ref, Lasts R N (do
        fillUpvalue r i u
        fillUpvalues f r (i + 1) rest) := fun u =>
      .bind (lasts_fillUpvalue r i u) fun _ => ih (i + 1)
    unfold fillUpvalues
    dsimp only
    split
    · exact (lasts_capture _).map.bind hrest
    · exact .bind (lasts_ownUpvalue _ _) hrest

theorem lasts_vararg (f : Frame) (i : Instruction) : Lasts R N (vararg f i) := by
  unfold vararg
  dsimp only
  split
  · exact .bind (lasts_ensureStack _) fun _ => .bind (lasts_setSlots _ _) fun _ =>
      .bind (lasts_modifyFrame fun _ => rfl) fun _ => .bind (lasts_raiseTop _) fun _ => lasts_pure _
  · exact (lasts_setSlots _ _).bind fun _ => lasts_pure _

theorem lasts_forPrepare (f : Frame) (i : Instruction) : Lasts R N (forPrepare f i) := by
  refine (lasts_register _ _).bind fun _ => (lasts_register _ _).bind fun _ =>
    (lasts_register _ _).bind fun _ => .bind (lasts_ofExcept _) fun l => ?_
  split
  · exact (lasts_setLoop _ _ _).bind fun _ => lasts_pure _
  · exact (lasts_jump _).bind fun _ => lasts_pure _

theorem lasts_operate (r : Value → Value → Except RuntimeError Value) (f : Frame) (a b c : Nat) :
    Lasts R N (do
      let x ← register f b
      let y ← register f c
      setRegister f a (← ofExcept (r x y))
      return Outcome.next) :=
  (lasts_register _ _).bind fun _ => (lasts_register _ _).bind fun _ =>
    lasts_put (lasts_ofExcept _) _ _

/-- An instruction closes upvalues. -/
def Closing (i : Instruction) : Prop := i.opcode? = some .close ∨ i.opcode? = some .ret

theorem lasts_perform (f : Frame) {i : Instruction} (h : ¬ Closing i)
    (hmake : i.opcode? = some .closure → Lasts R N (makeClosure f i)) : Lasts R N (perform f i) := by
  unfold perform
  split
  · exact lasts_pure _
  next op hop =>
    cases op with
    | move => exact lasts_put (lasts_register _ _) _ _
    | loadConstant => exact lasts_put (lasts_constant _ _) _ _
    | loadBool => exact (lasts_setRegister _ _ _).bind fun _ => lasts_pure _
    | loadNil => exact (lasts_setSlots _ _).bind fun _ => lasts_pure _
    | getUpvalue => exact .bind (lasts_ownUpvalue _ _) fun u => lasts_put (lasts_readUpvalue u) _ _
    | setUpvalue =>
      exact .bind (lasts_ownUpvalue _ _) fun u => (lasts_register _ _).bind fun v =>
        .bind (lasts_writeUpvalue u v) fun _ => lasts_pure _
    | getGlobal =>
      exact .bind (lasts_ownUpvalue _ _) fun u => .bind (lasts_readUpvalue u) fun environment =>
        .bind (lasts_constant _ _) fun k => lasts_put (lasts_index environment k) _ _
    | setGlobal =>
      exact .bind (lasts_ownUpvalue _ _) fun u => .bind (lasts_readUpvalue u) fun environment =>
        .bind (lasts_constant _ _) fun k => (lasts_register _ _).bind fun v =>
          .bind (lasts_setIndex environment k v) fun _ => lasts_pure _
    | getTable =>
      exact (lasts_register _ _).bind fun x => (lasts_register _ _).bind fun k =>
        lasts_put (lasts_index x k) _ _
    | setTable =>
      exact (lasts_register _ _).bind fun x => (lasts_register _ _).bind fun k =>
        (lasts_register _ _).bind fun v => .bind (lasts_setIndex x k v) fun _ => lasts_pure _
    | getField =>
      exact (lasts_register _ _).bind fun x => .bind (lasts_constant _ _) fun k =>
        lasts_put (lasts_index x k) _ _
    | setField =>
      exact (lasts_register _ _).bind fun x => .bind (lasts_constant _ _) fun k =>
        (lasts_register _ _).bind fun v => .bind (lasts_setIndex x k v) fun _ => lasts_pure _
    | newTable => exact lasts_put lasts_newTable _ _
    | setList => exact lasts_setList f i
    | self =>
      exact (lasts_register _ _).bind fun x => (lasts_register _ _).bind fun k =>
        .bind (lasts_index x k) fun v => (lasts_setRegister _ _ _).bind fun _ =>
          (lasts_setRegister _ _ _).bind fun _ => lasts_pure _
    | add | sub | mul | div | idiv | mod | pow | band | bor | bxor | shl | shr =>
      exact lasts_operate _ _ _ _ _
    | unm | bnot => exact (lasts_register _ _).bind fun _ => lasts_put (lasts_ofExcept _) _ _
    | not => exact (lasts_register _ _).bind fun _ => (lasts_setRegister _ _ _).bind fun _ => lasts_pure _
    | length => exact (lasts_register _ _).bind fun v => lasts_put (lasts_length v) _ _
    | concat =>
      exact (lasts_slots _ _).bind fun _ => .bind (lasts_ofExcept _) fun text =>
        lasts_put (lasts_newText text) _ _
    | equal | less | lessEqual =>
      exact (lasts_register _ _).bind fun _ => (lasts_register _ _).bind fun _ =>
        .bind (lasts_ofExcept _) fun _ => (lasts_setRegister _ _ _).bind fun _ => lasts_pure _
    | jump => exact (lasts_jump _).bind fun _ => lasts_pure _
    | test =>
      refine (lasts_register _ _).bind fun v => ?_
      dsimp only
      split
      · exact (lasts_jump _).bind fun _ => lasts_pure _
      · exact lasts_pure _
    | call => exact lasts_pure _
    | ret => exact absurd (.inr hop) h
    | close => exact absurd (.inl hop) h
    | closure => exact hmake hop
    | vararg => exact lasts_vararg f i
    | forPrepare => exact lasts_forPrepare f i
    | forLoop => exact lasts_forLoop f i
    | iterCall => exact (lasts_copySlots _ _ _).bind fun _ => lasts_pure _
    | iterLoop => exact lasts_iterLoop f i
    | extra => exact lasts_missing (by decide)

end common

/-! ## All computations -/

/-- The computation leads to related machines. -/
abbrev Endures (R : Machine → Machine → Prop) (x : Exec α) : Prop := Lasts R (fun _ => True) x

theorem endures_throw (e : Fault) : Endures R (throw e : Exec α) := lasts_throw trivial

theorem endures_closeAll (us : List (Nat × Ref)) : Endures R (closeAll us) := by
  induction us with
  | nil => exact lasts_pure ()
  | cons u rest ih =>
    have hrest : Endures R (do
        modify fun m => { m with openUpvalues := m.openUpvalues.tail }
        closeAll rest) :=
      .bind (lasts_fields (fun _ => rfl) (fun _ => rfl) (fun _ => rfl) fun _ => rfl) fun _ => ih
    unfold closeAll
    refine lasts_get.bind fun m => ?_
    split
    next u' _ =>
      cases hclose : u'.close m.stack with
      | ok closed =>
        cases u' with
        | opened s =>
          cases hclose
          have hset : Endures R (modifyHeap fun h => h.setUpvalue u.2 (.closed (m.stack.getD s .nil))) :=
            fun m => Durable.silent
              (silent_setIfInBounds (fun _ ho => by cases ho) fun _ ho => by cases ho)
          exact hset.bind fun _ => hrest
        | closed v => cases hclose
      | error e => exact (endures_throw e).bind fun _ => hrest
    · exact (endures_throw _).bind fun _ => hrest

theorem endures_closeUpvalues (lowest : Nat) : Endures R (closeUpvalues lowest) :=
  lasts_get.bind fun _ => endures_closeAll _

theorem endures_leave (source : Nat) (count : Option Nat) : Endures R (leave source count) := by
  refine lasts_frame.bind fun f => (endures_closeUpvalues _).bind fun _ => ?_
  split
  · exact lasts_raise _
  next n _ =>
    have hpop : Endures R (modify fun m : Machine => { m with frames := m.frames.pop }) :=
      lasts_frames (g := Array.pop) fun fs f hf => by
        obtain ⟨i, hi⟩ := Array.mem_iff_getElem?.mp hf
        rw [Array.getElem?_pop] at hi
        split at hi
        · exact ⟨f, Array.mem_of_getElem? hi, rfl⟩
        · cases hi
    refine (lasts_ensureStack _).bind fun _ => (lasts_copySlots _ _ _).bind fun _ =>
      (lasts_clearStack _ _).bind fun _ => lasts_get.bind fun m => (lasts_clearStack _ _).bind fun _ =>
      hpop.bind fun _ => lasts_get.bind fun m => ?_
    split
    · exact (lasts_setTop _).bind fun _ => lasts_pure _
    · dsimp only
      split
      · exact (lasts_setTop _).bind fun _ => lasts_pure _
      · split
        · exact .bind (lasts_modifyFrame fun _ => rfl) fun _ => (lasts_setTop _).bind fun _ => lasts_pure _
        · exact (lasts_setTop _).bind fun _ => lasts_pure _

theorem endures_unwind (frameCount top : Nat) : Endures R (unwind frameCount top) := by
  have hshrink : Endures R (modify fun m : Machine => { m with frames := m.frames.shrink frameCount }) :=
    lasts_frames (g := fun fs => fs.shrink frameCount) fun fs f hf => by
      obtain ⟨i, hi, rfl⟩ := Array.mem_iff_getElem.mp hf
      rw [Array.getElem_shrink]
      exact ⟨_, Array.getElem_mem _, rfl⟩
  exact (endures_closeUpvalues _).bind fun _ => hshrink.bind fun _ =>
    lasts_get.bind fun _ => (lasts_clearStack _ _).bind fun _ => lasts_setTop _

theorem endures_perform (f : Frame) {i : Instruction} (hmake : i.opcode? ≠ some .closure) :
    Endures R (perform f i) := by
  by_cases h : Closing i
  · rcases h with h | h
    · unfold perform
      rw [h]
      exact (endures_closeUpvalues _).bind fun _ => lasts_pure _
    · unfold perform
      rw [h]
      refine (endures_leave _ _).bind fun n => ?_
      split
      · exact lasts_pure _
      · exact lasts_pure _
  · exact lasts_perform f h fun heq => absurd heq hmake

theorem endures_located (hx : Endures R x) : Endures R (located x) := by
  refine hx.tryCatch fun e => ?_
  cases e with
  | runtime e => exact (lasts_positioned e).bind fun _ => endures_throw _
  | _ => exact endures_throw _

theorem endures_guarded (hx : Endures R x) : Endures R (guarded x) := by
  have hdepth : ∀ f : Nat → Nat,
      Endures R (modify fun m : Machine => { m with nativeDepth := f m.nativeDepth }) := fun f =>
    lasts_fields (fun _ => rfl) (fun _ => rfl) (fun _ => rfl) fun _ => rfl
  refine lasts_get.bind fun m => lasts_unless fun _ => (hdepth (· + 1)).bind fun _ => ?_
  refine Lasts.bind (hx.tryCatch fun e => ?_) fun a => (hdepth (· - 1)).bind fun _ => lasts_pure a
  exact (hdepth (· - 1)).bind fun _ => endures_throw e

theorem endures_recover (frameCount top : Nat) (e : Fault) :
    Endures R (recover frameCount top e) := by
  cases e with
  | script v text => exact (endures_unwind _ _).bind fun _ => lasts_pure _
  | runtime e =>
    exact (lasts_positioned e).bind fun _ => (endures_unwind _ _).bind fun _ => lasts_pure _
  | outOfMemory => exact (endures_unwind _ _).bind fun _ => lasts_pure _
  | _ => exact endures_throw _

end durable

/-! ## Closures that are made -/

/-- The relation holds as well when a closure is made, from the code of the function that runs or
from a compiled program. -/
class Enduring (R : Machine → Machine → Prop) : Prop extends Durable R where
  makeClosure : ∀ {m : Machine} {f : Frame} (i : Instruction), m.frames.back? = some f →
    m.Ensures (makeClosure f i) (fun _ m' => R m m') fun _ m' => R m m'
  instantiate : ∀ {text name : String} {p : Program}, compile text name = .ok p.prototype →
    ∀ globals, Endures R (instantiate p globals)

/-- A closure whose upvalues come from the heap and the stack. -/
theorem lasts_makeClosure [Durable R] [Common N] (f : Frame) (i : Instruction)
    (hmake : ∀ child, f.prototype.children[i.bx]? = some child →
      Lasts R N (allocate (.closure (Closure.create (f.id.child i.bx) child)))) :
    Lasts R N (makeClosure f i) := by
  unfold makeClosure
  split
  · exact lasts_common Fault.noConfusion
  next child hchild =>
    exact (hmake child hchild).bind fun r => (lasts_setRegister _ _ _).bind fun _ =>
      .bind (lasts_fillUpvalues _ _ _ _) fun _ => lasts_pure _

theorem endures_instantiate [Durable R] (p : Program) (globals : Option Ref)
    (hmake : Endures R (allocate (.closure (Closure.create p.id p.prototype))))
    (hfill : ∀ c r, (Closure.create p.id p.prototype).setUpvalue 0 (some r) = .ok c → ∀ r,
      Endures R (modifyHeap fun h => h.setClosure r c)) :
    Endures R (instantiate p globals) := by
  refine lasts_get.bind fun m => (lasts_pin _).bind fun _ => hmake.bind fun r =>
    (lasts_pin _).bind fun _ => ?_
  have hrest : Endures R (do
      unpin (.closure r)
      unpin (.table (globals.getD m.globals))
      return r) :=
    (lasts_unpin _).bind fun _ => (lasts_unpin _).bind fun _ => lasts_pure _
  dsimp only
  split
  · refine (lasts_allocate fun _ => Object.noConfusion).bind fun u => ?_
    split
    next c hc => exact (hfill c u hc r).bind fun _ => hrest
    · exact (endures_throw _).bind fun _ => hrest
  · exact hrest

theorem ages_allocate (o : Object) : Lasts Ages N (allocate o) := by
  unfold allocate
  exact (lasts_collectIfDue _).bind fun _ m => ⟨rfl, rfl, m.heap.ages_allocate o⟩

theorem ages_instantiate (p : Program) (globals : Option Ref) : Endures Ages (instantiate p globals) :=
  endures_instantiate p globals (ages_allocate _) fun c _ _ r m => ⟨rfl, rfl, m.heap.ages_setClosure r c⟩

theorem ages_makeClosure [Common N] (f : Frame) (i : Instruction) :
    Lasts Ages N (makeClosure f i) :=
  lasts_makeClosure f i fun _ _ => ages_allocate _

instance : Enduring Ages where
  makeClosure i _ := (ages_makeClosure (N := fun _ => True) _ i _).mono (fun _ _ h => h)
    fun _ _ h => h.1
  instantiate _ globals := ages_instantiate _ globals

/-! ## Programs and the base library -/

section enduring

variable [Enduring R]

theorem endures_step (i : Instruction) : Endures R (step i) := by
  by_cases h : i.opcode? = some .closure
  · intro m
    rw [step, ensures_bind, ensures_frame]
    refine ⟨fun f hf => ?_, fun _ => ⟨Chain.refl m, trivial⟩⟩
    have hperform : perform f i = makeClosure f i := by
      unfold perform
      rw [h]
    rw [hperform]
    exact (Enduring.makeClosure i hf).mono (fun _ _ h => h) fun _ _ h => ⟨h, trivial⟩
  · exact lasts_frame.bind fun f => endures_perform f h

/-- A text is compiled first. -/
theorem endures_compileText {f : Except CompileError Program → Exec β} (text name : String)
    (hok : ∀ p : Program, compile text name = .ok p.prototype → Endures R (f (.ok p)))
    (herror : ∀ e, Endures R (f (.error e))) : Endures R (compileText text name >>= f) := by
  intro m
  rw [ensures_bind]
  refine ensures_compileText text name (fun p hp => ?_) (fun e _ => herror e m)
    fun _ _ => ⟨Chain.refl m, trivial⟩
  have hadd : R m { m with programs := m.programs + 1 } := Durable.silent (.of_eq rfl rfl rfl rfl)
  exact (hok ⟨⟨m.programs, []⟩, p⟩ hp _).mono (fun _ _ h => Durable.trans hadd h)
    fun _ _ h => ⟨Durable.trans hadd h.1, trivial⟩

theorem endures_run (f : BaseFunction) (args : List Value) : Endures R (f.run args) := by
  unfold BaseFunction.run
  cases f with
  | print => exact (lasts_write _).bind fun _ => lasts_pure _
  | type => exact (lasts_ofExcept _).bind fun _ => (lasts_newText _).bind fun _ => lasts_pure _
  | tostring =>
    refine (lasts_ofExcept _).bind fun v => ?_
    split
    · exact lasts_pure _
    · exact (lasts_newText _).bind fun _ => lasts_pure _
  | tonumber => exact (lasts_ofExcept _).bind fun _ => lasts_pure _
  | error => exact endures_throw _
  | pcall => exact (lasts_ofExcept _).bind fun _ => lasts_pure _
  | assert =>
    refine (lasts_ofExcept _).bind fun v => ?_
    split
    · split
      · exact (endures_throw _).bind fun _ => lasts_pure _
      · exact (lasts_raise _).bind fun _ => lasts_pure _
    · exact lasts_pure _
  | select => exact (lasts_ofExcept _).bind fun _ => lasts_pure _
  | next =>
    refine (lasts_ofExcept _).bind fun r => lasts_get.bind fun m => (lasts_ofExcept _).bind fun e => ?_
    split
    · exact lasts_pure _
    · exact lasts_pure _
  | pairs => exact (lasts_ofExcept _).bind fun _ => lasts_pure _
  | ipairs => exact (lasts_ofExcept _).bind fun _ => lasts_pure _
  | ipairsStep =>
    refine (lasts_ofExcept _).bind fun r => (lasts_ofExcept _).bind fun i =>
      lasts_get.bind fun m => ?_
    split
    · exact lasts_pure _
    · exact lasts_pure _
  | rawequal => exact (lasts_ofExcept _).bind fun _ => (lasts_ofExcept _).bind fun _ => lasts_pure _
  | rawget =>
    exact (lasts_ofExcept _).bind fun _ => (lasts_ofExcept _).bind fun _ =>
      lasts_get.bind fun _ => lasts_pure _
  | rawset =>
    exact (lasts_ofExcept _).bind fun _ => (lasts_ofExcept _).bind fun _ =>
      (lasts_ofExcept _).bind fun _ => (lasts_setKey _ _ _).bind fun _ => lasts_pure _
  | rawlen =>
    dsimp only
    split
    · exact lasts_get.bind fun _ => lasts_pure _
    · exact lasts_pure _
    · exact lasts_raise _
  | collectgarbage =>
    have hrest : ∀ option : String, Endures R (do
        if option = "count" then
          return NativeStep.done [.float (Double.ofRatio false (← get).heap.bytes 1024)]
        else if option = "collect" then
          collectGarbage
          return NativeStep.done [.int 0]
        else if option = "step" then
          collectGarbage
          return NativeStep.done [.bool true]
        else raise (Argument.bad .collectgarbage 0 ("invalid option '" ++ option ++ "'"))) := by
      intro option
      have hcollect : ∀ v : Value, Endures R (do collectGarbage; return NativeStep.done [v]) := fun v =>
        (lasts_modify fun m => Durable.silent (silent_collect m)).bind fun _ => lasts_pure _
      split
      · exact lasts_get.bind fun _ => lasts_pure _
      · split
        · exact hcollect _
        · split
          · exact hcollect _
          · exact lasts_raise _
    dsimp only
    split
    · exact (lasts_pure _).bind hrest
    · exact (lasts_ofExcept _).bind hrest
  | load =>
    exact (lasts_ofExcept _).bind fun source => endures_compileText _ _
      (fun p hp => (Enduring.instantiate hp _).bind fun _ => lasts_pure _)
      fun e => (lasts_newText _).bind fun _ => lasts_pure _

/-! ## Runs -/

/-- What each function of a run does with so much fuel. -/
structure Lasting (R : Machine → Machine → Prop) (fuel : Nat) : Prop where
  execute : Endures R (execute fuel)
  callSlot : ∀ func argc wanted, Endures R (callSlot fuel func argc wanted)
  runNative : ∀ f args, Endures R (runNative fuel f args)
  interpret : ∀ next, Endures R (interpret fuel next)
  call : ∀ callee args, Endures R (call fuel callee args)
  protectedCall : ∀ callee args, Endures R (protectedCall fuel callee args)

theorem lasting_zero : Lasting R 0 where
  execute := endures_throw _
  callSlot _ _ _ := endures_throw _
  runNative _ _ := endures_throw _
  interpret next := by
    cases next with
    | done results => exact lasts_pure results
    | fail fault => exact endures_throw fault
    | call => exact endures_throw _
    | protect => exact endures_throw _
  call _ _ := endures_throw _
  protectedCall _ _ := endures_throw _

section steps

variable {fuel : Nat}

theorem Lasting.iteration (h : Lasting R fuel) : Endures R (iteration fuel) := by
  rw [iteration_eq]
  refine lasts_fetching.bind fun i => endures_located ?_
  refine (endures_step i).bind fun outcome => ?_
  split
  · exact (h.callSlot _ _ _).bind fun _ => lasts_pure _
  · exact lasts_pure _

theorem lasting_execute (h : Lasting R fuel) : Endures R (Machine.execute (fuel + 1)) := by
  rw [execute_succ]
  refine h.iteration.bind fun outcome => ?_
  split
  · exact lasts_pure _
  · exact h.execute

theorem lasting_callSlot (h : Lasting R fuel) (func : Nat) (argc wanted : Option Nat) :
    Endures R (Machine.callSlot (fuel + 1) func argc wanted) := by
  rw [Machine.callSlot]
  refine (lasts_slot _).bind fun v => ?_
  split
  · exact lasts_enter _ _ _ _ _
  · refine endures_guarded ?_
    split
    · exact endures_throw _
    · exact (lasts_slots _ _).bind fun args => (lasts_raiseTop _).bind fun _ =>
        (h.runNative _ _).bind fun results => lasts_deliver _ _ _
  · exact lasts_raise _

theorem lasting_runNative (h : Lasting R fuel) (f : Native) (args : List Value) :
    Endures R (Machine.runNative (fuel + 1) f args) := by
  cases f with
  | base f =>
    rw [Machine.runNative]
    exact (endures_run f args).bind fun next => h.interpret next
  | host i =>
    rw [Machine.runNative]
    refine lasts_get.bind fun m => ?_
    split
    · exact h.interpret _
    · exact endures_throw _

theorem lasting_interpret (h : Lasting R fuel) (next : NativeStep) :
    Endures R (Machine.interpret (fuel + 1) next) := by
  cases next with
  | done results => exact lasts_pure results
  | fail fault => exact endures_throw fault
  | call callee args next =>
    rw [Machine.interpret]
    exact (h.call callee args).bind fun results => h.interpret _
  | protect callee args next =>
    rw [Machine.interpret]
    exact (h.protectedCall callee args).bind fun r => h.interpret _

theorem lasting_call (h : Lasting R fuel) (callee : Value) (args : List Value) :
    Endures R (Machine.call (fuel + 1) callee args) := by
  cases callee with
  | native f =>
    rw [Machine.call]
    exact endures_guarded (h.runNative f args)
  | closure r =>
    rw [call_closure]
    exact endures_guarded (lasts_get.bind fun m => (lasts_enterFromHost _ _ _).bind fun _ =>
      h.execute.bind fun count => (lasts_slots _ _).bind fun results => lasts_get.bind fun m =>
        (lasts_clearStack _ _).bind fun _ => (lasts_setTop _).bind fun _ => lasts_pure _)
  | _ => exact lasts_raise _

theorem lasting_protectedCall (h : Lasting R fuel) (callee : Value) (args : List Value) :
    Endures R (Machine.protectedCall (fuel + 1) callee args) := by
  rw [Machine.protectedCall]
  refine lasts_get.bind fun m => Lasts.tryCatch ?_ fun e => ?_
  · exact (h.call callee args).bind fun results => lasts_pure _
  · exact (endures_recover _ _ _).bind fun v => lasts_pure _

theorem lasting_succ (h : Lasting R fuel) : Lasting R (fuel + 1) where
  execute := lasting_execute h
  callSlot := lasting_callSlot h
  runNative := lasting_runNative h
  interpret := lasting_interpret h
  call := lasting_call h
  protectedCall := lasting_protectedCall h

end steps

theorem lasting (fuel : Nat) : Lasting R fuel := by
  induction fuel with
  | zero => exact lasting_zero
  | succ fuel ih => exact lasting_succ ih

theorem endures_invoke (r : Ref) (args : List Value) : Endures R (invoke r args) := by
  refine lasts_get.bind fun m => Lasts.tryCatch ?_ fun e => ?_
  · exact ((lasting stepBudget).call _ _).bind fun results => lasts_pure _
  · cases e with
    | script | runtime | outOfMemory => exact (endures_recover _ _ _).bind fun v => lasts_pure _
    | _ => exact (endures_unwind _ _).bind fun _ => endures_throw _

/-! ## Moments -/

namespace Moment

variable {p q : Moment}

theorem lasts_task (fuel : Nat) (task : Task) : Endures R (task.perform fuel) := by
  cases task with
  | loop => exact (lasting fuel).execute.map
  | callSlot func argc wanted => exact (lasting fuel).callSlot func argc wanted
  | native f args => exact ((lasting fuel).runNative f args).map
  | interpret next => exact ((lasting fuel).interpret next).map
  | call callee args => exact ((lasting fuel).call callee args).map
  | protectedCall callee args => exact ((lasting fuel).protectedCall callee args).map

/-- The machines of a moment and of what begins with it are related. -/
theorem Begins.endures (h : p.Begins q) : R p.machine q.machine := by
  cases h with
  | callSlot hfetch hstep =>
    exact Durable.trans (Ensures.of_ok (lasts_fetching (R := R) (N := fun _ => True) _) hfetch)
      (Ensures.of_ok (endures_step (R := R) _ _) hstep)
  | loop hturn => exact Ensures.of_ok ((lasting (R := R) _).iteration _) hturn
  | slotNative => exact Durable.silent (.of_eq rfl rfl rfl rfl)
  | base hrun => exact Ensures.of_ok (endures_run (R := R) _ _ _) hrun
  | host => exact Chain.refl _
  | asks => exact Chain.refl _
  | answered hcall => exact Ensures.of_ok ((lasting (R := R) _).call _ _ _) hcall
  | protects => exact Chain.refl _
  | settled hcall => exact Ensures.of_ok ((lasting (R := R) _).protectedCall _ _ _) hcall
  | callNative => exact Durable.silent (.of_eq rfl rfl rfl rfl)
  | callClosure hdepth henter =>
    have h := Ensures.of_ok (lasts_enterFromHost (R := R) (N := fun _ => True) _ _ _ _) henter
    refine Durable.trans ?_ h
    exact Durable.silent (.of_eq rfl rfl rfl rfl)
  | attempt => exact Chain.refl _

theorem Leads.endures (h : p.Leads q) : R p.machine q.machine := by
  induction h with
  | refl => exact Chain.refl _
  | tail _ hbegins ih => exact Durable.trans ih hbegins.endures

/-- A moment begins with an older machine. -/
theorem Begins.ages (h : p.Begins q) : p.machine.Ages q.machine := h.endures

theorem Leads.ages (h : p.Leads q) : p.machine.Ages q.machine := h.endures

end Moment

end enduring

end Machine
end LuaMachine
