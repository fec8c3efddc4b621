import LuaMachine.Proofs.Machine.Working
/-! # Calls and returns of a sound machine

What entering and leaving a function, handing over the results of a native function and dropping
what a failed call left behind do to a sound machine.

* `Machine.ensures_enter`, `Machine.ensures_leave`: a call and a return, with the stack and the
  frames after them.
* `Machine.ensures_deliver`: the results of a native function.
* `Machine.ensures_unwind`: after a failed call.
-/
set_option autoImplicit false

namespace LuaMachine
namespace Machine

variable {code : Nat → Prototype} {f g : Frame} {m m₀ m' : Machine} {k limit : Nat}
  {E : Fault → Machine → Prop}

/-! ## Entering a function -/

/-- The room that a call needs on the stack. -/
def enteredRoom (p : Prototype) (func : Nat) (argc : Option Nat) : Nat :=
  max (func + 1 + p.registers) (func + 1 + argc.getD 0)

/-- The stack of a function that starts: the registers behind its parameters are nil, and so are the
arguments that did not find a place in them. -/
def enteredStack (p : Prototype) (func : Nat) (argc : Option Nat) (stack : Array Value) :
    Array Value :=
  let base := func + 1
  let windowEnd := base + p.registers
  let given := argc.getD p.params
  let room := grown (enteredRoom p func argc) stack
  let short := fillNil (min (base + given) room.size - (base + p.params)) (base + p.params) room
  fillNil (min windowEnd short.size - (base + min given p.params)) (base + min given p.params) short

/-- The arguments beyond the parameters, as the function finds them on the stack. -/
def extraArguments (p : Prototype) (func : Nat) (argc : Option Nat) (stack : Array Value) :
    Array Value :=
  if p.variadic then
    let first := func + 1 + p.params
    (grown (enteredRoom p func argc) stack).extract first (first + (argc.getD 0 - p.params))
  else #[]

/-- The frame of a function that starts. -/
def enteredFrame (r : Ref) (c : Closure) (pool : Array Value) (func : Nat) (wanted : Option Nat)
    (extra : Array Value) (toHost : Bool) : Frame :=
  { closure := r, id := c.id, prototype := c.prototype, constants := pool, base := func + 1
    next := 0, destination := func, wanted := wanted, open' := func + 1, extra := extra
    toHost := toHost }

/-- The machine in which a function has started. -/
def entered (r : Ref) (c : Closure) (pool : Array Value) (func : Nat) (argc wanted : Option Nat)
    (toHost : Bool) (m : Machine) : Machine :=
  { m with
    stack := enteredStack c.prototype func argc m.stack
    frames := m.frames.push (enteredFrame r c pool func wanted
      (extraArguments c.prototype func argc m.stack) toHost)
    top := max m.top (func + 1 + c.prototype.registers) }

theorem enteredStack_size (p : Prototype) (func : Nat) (argc : Option Nat) (s : Array Value) :
    (enteredStack p func argc s).size = max (enteredRoom p func argc) s.size := by
  have hfill := fun n i (s : Array Value) => (writes_fillNil (P := fun _ => True) trivial n i s).size
  simp only [enteredStack, hfill, grown_size]

/-- Nothing changes below the registers of the function. -/
theorem enteredStack_below (p : Prototype) {func : Nat} (argc : Option Nat) (s : Array Value)
    {j : Nat} (hj : j ≤ func) : (enteredStack p func argc s).getD j .nil = s.getD j .nil := by
  simp only [enteredStack, Array.getD_eq_getD_getElem?]
  rw [fillNil_getElem?, if_neg (by omega), fillNil_getElem?, if_neg (by omega),
    ← Array.getD_eq_getD_getElem?, grown_getD, Array.getD_eq_getD_getElem?]

/-- The registers of the function: its parameters have their arguments, and nothing else has a
value. -/
theorem enteredStack_register {p : Prototype} (hparams : p.params ≤ p.registers) (func n : Nat)
    (s : Array Value) {j : Nat} (hj : j < p.registers) :
    (enteredStack p func (some n) s).getD (func + 1 + j) .nil =
      if j < min n p.params then s.getD (func + 1 + j) .nil else .nil := by
  have hfill := fun n i (s : Array Value) => (writes_fillNil (P := fun _ => True) trivial n i s).size
  have hroom := grown_size (enteredRoom p func (some n)) s
  have hwindow : func + 1 + p.registers ≤ enteredRoom p func (some n) := Nat.le_max_left _ _
  simp only [enteredStack, Option.getD_some, Array.getD_eq_getD_getElem?]
  rw [fillNil_getElem?, hfill]
  by_cases hlt : j < min n p.params
  · rw [if_neg (by omega), fillNil_getElem?, if_neg (by omega), if_pos hlt,
      ← Array.getD_eq_getD_getElem?, grown_getD, Array.getD_eq_getD_getElem?]
  · rw [if_pos (by omega), if_neg hlt, Option.getD_some]

/-- The arguments beyond the parameters are kept for a variadic function only. -/
theorem extraArguments_toList (p : Prototype) {func n : Nat} {s : Array Value}
    (hargs : func + 1 + n ≤ s.size) :
    (extraArguments p func (some n) s).toList =
      if p.variadic then (valuesFrom s (func + 1) n).drop p.params else [] := by
  unfold extraArguments
  split
  next =>
    refine List.ext_getElem? fun j => ?_
    have hroom := grown_size (enteredRoom p func (some n)) s
    rw [Array.getElem?_toList, Array.getElem?_extract, List.getElem?_drop, valuesFrom,
      List.getElem?_map, Option.getD_some]
    by_cases hj : p.params + j < n
    · rw [if_pos (by omega), grown_getElem?, if_pos (by omega), List.getElem?_range hj,
        Option.map_some, Array.getD_eq_getD_getElem?, ← Nat.add_assoc,
        Array.getElem?_eq_getElem (by omega), Option.getD_some]
    · rw [if_neg (by omega), List.getElem?_eq_none (by rw [List.length_range]; omega),
        Option.map_none]
  next => rfl

/-- Where the window of a function lies that is called from the innermost frame. -/
structure Callable (m : Machine) (func : Nat) (toHost : Bool) : Prop where
  base : ∀ g, m.frames.back? = some g → g.base ≤ func
  native : toHost = true → ∀ g, m.frames.back? = some g → g.window ≤ func
  register : toHost = false → ∀ g, m.frames.back? = some g → func < g.window
  opened : toHost = true → ∀ u ∈ m.openUpvalues, u.1 ≠ func

theorem Ready.entered {r : Ref} {c : Closure} {pool : Array Value} {func : Nat}
    {argc wanted : Option Nat} {toHost : Bool}
    (hm : Ready code { m with stack := grown (enteredRoom c.prototype func argc) m.stack })
    (hc : m.heap.cells[r]? = some (.closure c)) (hpool : m.pools[c.id]? = some pool)
    (hcall : m.Callable func toHost) (hframes : m.frames.size < m.options.maxFrames) :
    Ready code (m.entered r c pool func argc wanted toHost) := by
  have hsize := enteredStack_size c.prototype func argc m.stack
  rw [← grown_size] at hsize
  have hwindow : func + 1 + c.prototype.registers ≤
      (grown (enteredRoom c.prototype func argc) m.stack).size := by
    rw [grown_size]
    exact Nat.le_trans (Nat.le_max_left _ _) (Nat.le_max_left _ _)
  have htop : m.top ≤ (grown (enteredRoom c.prototype func argc) m.stack).size := hm.stack.top_le
  have hstack : StackSound m.heap m.options.maxSlots (max m.top (func + 1 + c.prototype.registers))
      (enteredStack c.prototype func argc m.stack) := by
    refine ((hm.stack.fill _ _).fill _ _).raise _ (Nat.le_max_left _ _) ?_
    exact Nat.le_trans (Nat.max_le.mpr ⟨htop, hwindow⟩) (Nat.le_of_eq hsize.symm)
  have hextra : ∀ v ∈ extraArguments c.prototype func argc m.stack, m.heap.Has v := by
    intro v hv
    unfold extraArguments at hv
    split at hv
    · exact hm.stack.extract _ _ v hv
    · cases Array.not_mem_empty v hv
  have hgrown := hm.toSound.withStack hstack (Nat.le_of_eq hsize.symm)
    (fun g hg => Nat.le_trans (hm.frames.window g hg) (Nat.le_max_left _ _))
    fun u hu => Nat.lt_of_lt_of_le (hm.opened.below u hu) (Nat.le_max_left _ _)
  have hfits : func + 1 + c.prototype.registers ≤ (enteredStack c.prototype func argc m.stack).size :=
    hsize ▸ hwindow
  have hframe : FrameSound m.heap m.pools (enteredStack c.prototype func argc m.stack).size
      (enteredFrame r c pool func wanted (extraArguments c.prototype func argc m.stack) toHost) :=
    ⟨⟨c, hc, rfl, rfl⟩, hpool, hextra, rfl, Nat.le_trans (Nat.le_add_right _ _) hfits, hfits⟩
  refine ⟨hgrown.withFrames (hgrown.frames.push hframe (fun g hg => ?_) (Nat.le_max_right _ _))
    (hgrown.opened.push hcall.opened) ?_, hm.idle⟩
  · exact ⟨hcall.base g hg, fun h => hcall.native h g hg, fun h => hcall.register h g hg⟩
  · rw [Array.size_push]
    exact hframes

theorem Follows.entered {r : Ref} {c : Closure} {pool : Array Value} {func : Nat}
    {argc wanted : Option Nat} {toHost : Bool} (hf : m₀.Follows k limit m)
    (hlimit : limit ≤ func) :
    m₀.Follows k limit (m.entered r c pool func argc wanted toHost) := by
  have hcount := hf.count
  refine { hf with stack := ?_, count := ?_, frames := fun i hi => ?_, above := fun i f hi hif => ?_,
                   slots := fun i hi => ?_ }
  · refine Nat.le_trans hf.stack ?_
    show _ ≤ (enteredStack c.prototype func argc m.stack).size
    rw [enteredStack_size]
    exact Nat.le_max_right _ _
  · show k ≤ (m.frames.push _).size
    rw [Array.size_push]
    omega
  · show (m.frames.push _)[i]? = _
    rw [Array.getElem?_push_lt (by omega), ← hf.frames i hi, Array.getElem?_eq_getElem]
  · rcases getElem?_push_some hif with hif | ⟨-, rfl⟩
    · exact hf.above i f hi hif
    · exact hlimit
  · show (enteredStack c.prototype func argc m.stack).getD i .nil = _ ∨ _
    rw [enteredStack_below _ _ _ (by omega)]
    exact hf.slots i hi

/-- A closure that lies on the stack is entered. -/
theorem ensures_enter {r : Ref} {c : Closure} {func : Nat} {argc wanted : Option Nat}
    {toHost : Bool} {Q : Unit → Machine → Prop} (hm : Ready code m)
    (hc : m.heap.cells[r]? = some (.closure c)) (hslot : m.stack.getD func .nil = .closure r)
    (hcall : m.Callable func toHost)
    (hQ : ∀ p pool, Ready code ((m.withMemory p).entered r c pool func argc wanted toHost) →
      Q () ((m.withMemory p).entered r c pool func argc wanted toHost))
    (hoverflow : m.options.maxFrames ≤ m.frames.size ∨
      m.options.maxSlots < enteredRoom c.prototype func argc → E (.runtime .stackOverflow) m)
    (hmemory : ∀ p size, argc = none →
      Ready code { m.withMemory p with stack := grown size m.stack } →
      E .outOfMemory { m.withMemory p with stack := grown size m.stack }) :
    m.Ensures (enter r func argc wanted toHost) Q E := by
  simp only [enter, ensures_bind, ensures_get, ensures_ite, ensures_raise]
  refine ⟨fun hframes => hoverflow (.inl hframes), fun hframes => ?_⟩
  rw [Heap.closure?_eq hc]
  simp only [ensures_bind, ensures_ensureStack]
  refine ⟨fun hsize => hoverflow (.inr hsize), fun hsize => ?_⟩
  have hready : Ready code { m with stack := grown (enteredRoom c.prototype func argc) m.stack } := by
    refine ⟨hm.toSound.withSlots (hm.stack.grown hsize) ?_, hm.idle⟩
    rw [grown_size]
    exact Nat.le_max_right _ _
  refine ensures_constants hready (hm.heap.objects _ _ hc) fun p pool hp hretains hpool => ?_
  have hstays : p.heap.cells[r]? = some (.closure c) := by
    have hhas : p.heap.Has ((grown (enteredRoom c.prototype func argc) m.stack).getD func .nil) :=
      hp.stack.getD func
    rw [grown_getD, hslot] at hhas
    exact hretains.closure hc hhas
  have hentered : Ready code ((m.withMemory p).entered r c pool func argc wanted toHost) :=
    Ready.entered hp hstays hpool ⟨hcall.base, hcall.native, hcall.register, hcall.opened⟩
      (Nat.lt_of_not_le hframes)
  have hnext := hQ p pool hentered
  by_cases hvariadic : c.prototype.variadic = true
  · rw [if_pos hvariadic]
    cases argc with
    | none => exact hmemory p _ rfl hp
    | some n =>
      simp only [ensures_bind, ensures_slots, ensures_clearStack, ensures_modify]
      rw [Machine.entered, extraArguments, if_pos hvariadic] at hnext
      exact hnext
  · rw [if_neg hvariadic]
    simp only [ensures_bind, ensures_pure, ensures_clearStack, ensures_modify]
    rw [Machine.entered, extraArguments, if_neg hvariadic] at hnext
    exact hnext

/-! ## Leaving a function -/

/-- The stack after a return: `n` values begin at the slot of the function, `given` of which were
returned; the rest is nil, and so is everything above. -/
def leftStack (destination source n given top : Nat) (stack : Array Value) : Array Value :=
  let stop := destination + n
  let moved := moveSlots (min n given) source destination (grown stop stack)
  let padded := fillNil (min stop moved.size - (destination + given)) (destination + given) moved
  fillNil (min top padded.size - stop) stop padded

theorem leftStack_size (destination source n given top : Nat) (s : Array Value) :
    (leftStack destination source n given top s).size = max (destination + n) s.size := by
  have hfill := fun n i (s : Array Value) => (writes_fillNil (P := fun _ => True) trivial n i s).size
  have hmove := fun n i j (s : Array Value) =>
    (writes_moveSlots (P := fun _ => True) n i j s (fun _ _ => trivial) trivial).size
  simp only [leftStack, hfill, hmove, grown_size]

/-- Nothing changes below the slot of the function. -/
theorem leftStack_below {destination : Nat} (source n given top : Nat) (s : Array Value) {j : Nat}
    (hj : j < destination) :
    (leftStack destination source n given top s).getD j .nil = s.getD j .nil := by
  have hmove := writes_moveSlots (P := fun _ => True) (min n given) source destination
    (grown (destination + n) s) (fun _ _ => trivial) trivial
  simp only [leftStack, Array.getD_eq_getD_getElem?]
  rw [fillNil_getElem?, if_neg (by omega), fillNil_getElem?, if_neg (by omega), hmove.below j hj,
    ← Array.getD_eq_getD_getElem?, grown_getD, Array.getD_eq_getD_getElem?]

/-- The values that are wanted lie where the function was, with nil for those that are missing. -/
theorem leftStack_result {destination source : Nat} (hle : destination ≤ source) {n : Nat}
    (given top : Nat) (s : Array Value) {j : Nat} (hj : j < n) :
    (leftStack destination source n given top s).getD (destination + j) .nil =
      if j < given then s.getD (source + j) .nil else .nil := by
  have hmove := writes_moveSlots (P := fun _ => True) (min n given) source destination
    (grown (destination + n) s) (fun _ _ => trivial) trivial
  have hroom := grown_size (destination + n) s
  have hsize := hmove.size
  simp only [leftStack]
  rw [Array.getD_eq_getD_getElem?, fillNil_getElem?, if_neg (by omega), fillNil_getElem?]
  by_cases hlt : j < given
  · rw [if_neg (by omega), if_pos hlt, moveSlots_getElem? _ _ _ _ (.inl hle) (by omega) (by omega),
      Option.getD_some, grown_getD]
  · rw [if_pos (by omega), if_neg hlt, Option.getD_some]

theorem StackSound.left {h : Heap} {slots top top' : Nat} {s : Array Value}
    (hs : StackSound h slots top s) (source given : Nat) {destination n : Nat}
    (hsize : destination + n ≤ slots) (hstop : destination + n ≤ top')
    (htop : top' ≤ max (destination + n) s.size) :
    StackSound h slots top' (leftStack destination source n given top s) := by
  have hgrown := hs.grown hsize
  have hmove := writes_moveSlots (P := h.Has) (min n given) source destination
    (Machine.grown (destination + n) s) hgrown.has h.has_nil
  have hpad := writes_fillNil h.has_nil
  have hwrites : Writes h.Has 0 (Machine.grown (destination + n) s)
      (leftStack destination source n given top s) :=
    ((hmove.weaken (Nat.zero_le _)).trans ((hpad _ _ _).weaken (Nat.zero_le _))).trans
      ((hpad _ _ _).weaken (Nat.zero_le _))
  refine hgrown.write hwrites (by rw [grown_size]; exact htop) fun j v hj hv => ?_
  by_cases hlt : j < top
  · exact fillNil_clears (by omega) hlt hv
  · -- above the old top nothing was in use
    rw [leftStack, fillNil_getElem?] at hv
    split at hv
    next => exact (Option.some.inj hv).symm
    next =>
      rw [fillNil_getElem?] at hv
      split at hv
      next => exact (Option.some.inj hv).symm
      next =>
        rw [moveSlots_above _ _ _ _ (by omega)] at hv
        exact hgrown.clear j v (Nat.le_of_not_lt hlt) hv

/-- The machine after a return to a native function. -/
def leftToHost (source n given : Nat) (f : Frame) (m : Machine) : Machine :=
  { m with
    stack := leftStack f.destination source n given m.top m.stack
    frames := m.frames.pop
    top := f.destination + n }

/-- The machine after a return to the function `g`. -/
def leftToCaller (source n given : Nat) (f g : Frame) (m : Machine) : Machine :=
  { m with
    stack := leftStack f.destination source n given m.top m.stack
    frames :=
      if f.wanted.isNone then
        m.frames.pop.modify (m.frames.pop.size - 1) fun g => { g with open' := f.destination + n }
      else m.frames.pop
    top := max (f.destination + n) g.window }

/-- The upvalues of the innermost frame are closed. -/
structure Closed (code : Nat → Prototype) (f : Frame) (m m' : Machine) : Prop where
  active : Active code f m'
  follows : m.Follows (m.frames.size - 1) f.destination m'
  frames : m'.frames = m.frames
  stack : m'.stack = m.stack
  opened : ∀ u ∈ m'.openUpvalues, u.1 < f.base
  kept : ∀ u, u ∈ m'.openUpvalues ↔ u ∈ m.openUpvalues ∧ u.1 < f.base

theorem Active.left_opened (h : Active code f m) (hopened : ∀ u ∈ m.openUpvalues, u.1 < f.base) :
    OpenSound m.heap m.top m.frames.pop m.openUpvalues := by
  refine h.ready.opened.outermost (outermost_pop _) fun u hu i g hi hg => ?_
  rw [Array.size_pop] at hi
  obtain ⟨hlt, -⟩ := Array.getElem?_eq_some_iff.mp hg
  obtain rfl : i = m.frames.size - 1 := by omega
  cases h.frame_get.symm.trans hg
  exact hopened u hu

theorem Active.calledBy (h : Active code f m) (hg : m.frames.pop.back? = some g) :
    CalledBy g f := by
  rw [back?_eq_some_iff, Array.size_pop] at hg
  have hcaller := (outermost_pop m.frames).get hg
  obtain ⟨hlt, -⟩ := Array.getElem?_eq_some_iff.mp hg
  rw [Array.size_pop] at hlt
  refine h.ready.frames.calls _ g f hcaller ?_
  rw [Nat.sub_add_cancel (by omega)]
  exact h.frame_get

/-- The innermost frame is dropped, and the stack is that after a return. -/
theorem Active.left (h : Active code f m) (hopened : ∀ u ∈ m.openUpvalues, u.1 < f.base)
    (source given top : Nat) {n : Nat} (hsize : f.destination + n ≤ m.options.maxSlots)
    (hstop : f.destination + n ≤ top) (htop : top ≤ max (f.destination + n) m.stack.size)
    (hwindow : ∀ g, m.frames.pop.back? = some g → g.window ≤ top)
    (hbelow : ∀ u ∈ m.openUpvalues, u.1 < top) :
    Ready code { m with
      stack := leftStack f.destination source n given m.top m.stack
      frames := m.frames.pop
      top := top } := by
  have hstack := h.ready.stack.left source given hsize hstop htop
  have hpop := outermost_pop m.frames
  have hframes := h.ready.frames.outermost hpop hwindow
  exact ⟨{ h.ready with
    stack := hstack
    frames := hframes.slots_le (by rw [leftStack_size]; exact Nat.le_max_right _ _) hwindow
    opened := (h.left_opened hopened).withTop hbelow
    frameCount := Nat.le_trans hpop.size h.ready.frameCount }, h.ready.idle⟩

/-- After a return to a native function. -/
theorem Active.leftToHost (h : Active code f m) (hopened : ∀ u ∈ m.openUpvalues, u.1 < f.base)
    (hnative : f.toHost = true) {source n given : Nat}
    (hsize : f.destination + n ≤ m.options.maxSlots) :
    Ready code (m.leftToHost source n given f) := by
  refine h.left hopened source given _ hsize (Nat.le_refl _) (Nat.le_max_left _ _) (fun g hg => ?_) fun u hu => ?_
  · exact Nat.le_trans ((h.calledBy hg).native hnative) (Nat.le_add_right _ _)
  · have hbase := h.base_eq
    have hlt := hopened u hu
    have hne := h.ready.opened.native u hu f h.frame_mem hnative
    omega

/-- After a return to the function that called this one. -/
theorem Active.leftToCaller (h : Active code f m) (hopened : ∀ u ∈ m.openUpvalues, u.1 < f.base)
    (hregister : f.toHost = false) (hg : m.frames.pop.back? = some g) (source given : Nat) {n : Nat}
    (hsize : f.destination + n ≤ m.options.maxSlots) :
    ∃ g', Active code g' (m.leftToCaller source n given f g) ∧ g.Same g' := by
  have hcalled := (h.calledBy hg).register hregister
  have hfits := (h.ready.frames.each g ((outermost_pop _).mem (mem_of_back? hg))).fits
  have hleft := h.left hopened source given (max (f.destination + n) g.window) hsize
    (Nat.le_max_left _ _) (by omega) (fun g' hg' => ?_) fun u hu => ?_
  · have hactive : Active code g _ := ⟨hleft, hg⟩
    unfold Machine.leftToCaller
    split
    · refine (hactive.works_frame (g := fun g => { g with open' := f.destination + n })
        (fun _ => rfl) ?_).active
      show _ ≤ (leftStack f.destination source n given m.top m.stack).size
      rw [leftStack_size]
      exact Nat.le_max_left _ _
    · exact ⟨g, hactive, .refl g⟩
  · cases hg.symm.trans hg'
    exact Nat.le_max_right _ _
  · have hbase := h.base_eq
    have hlt := hopened u hu
    omega

/-- The innermost frame is dropped, and nothing below its slot changes. -/
theorem Follows.left (source n given top : Nat) (hf : m₀.Follows k limit m)
    (hk : k < m.frames.size) (hlimit : limit ≤ f.destination) :
    m₀.Follows k limit { m with
      stack := leftStack f.destination source n given m.top m.stack
      frames := m.frames.pop
      top := top } := by
  have hpop := outermost_pop m.frames
  refine { hf with stack := ?_, count := ?_, frames := fun i hi => ?_, above := fun i g hi hg => ?_,
                   slots := fun i hi => ?_ }
  · refine Nat.le_trans hf.stack ?_
    show _ ≤ (leftStack f.destination source n given m.top m.stack).size
    rw [leftStack_size]
    exact Nat.le_max_right _ _
  · show k ≤ m.frames.pop.size
    rw [Array.size_pop]
    omega
  · rw [← hf.frames i hi]
    refine hpop.each i ?_
    rw [Array.size_pop]
    omega
  · exact hf.above i g hi (hpop.get hg)
  · show (leftStack f.destination source n given m.top m.stack).getD i .nil = _ ∨ _
    rw [leftStack_below _ _ _ _ _ (by omega)]
    exact hf.slots i hi

theorem Follows.leftToHost {source n given : Nat} (hf : m₀.Follows k limit m)
    (hk : k < m.frames.size) (hlimit : limit ≤ f.destination) :
    m₀.Follows k limit (m.leftToHost source n given f) :=
  hf.left source n given _ hk hlimit

theorem Follows.leftToCaller {source n given : Nat} (hf : m₀.Follows k limit m)
    (hk : k + 1 < m.frames.size) (hlimit : limit ≤ f.destination) :
    m₀.Follows k limit (m.leftToCaller source n given f g) := by
  have hleft := hf.left source n given (max (f.destination + n) g.window) (Nat.lt_of_succ_lt hk)
    hlimit
  unfold Machine.leftToCaller
  split
  · refine hleft.modifyFrame ?_ fun _ => rfl
    show k < m.frames.pop.size
    rw [Array.size_pop]
    omega
  · exact hleft

theorem ensures_close_window (h : Active code f m) {Q : Unit → Machine → Prop}
    (hQ : ∀ m', Closed code f m m' → Q () m') : m.Ensures (closeUpvalues f.base) Q E := by
  refine ensures_closeUpvalues h.ready.toSound fun heap opened hsound _ hmem => hQ _ ?_
  have hbase := h.base_eq
  refine ⟨⟨⟨hsound, h.ready.idle⟩, h.back⟩, ?_, rfl, rfl, fun u hu => ((hmem u).mp hu).2, hmem⟩
  refine { h.follows_refl with opened := fun u hu => ?_ }
  rw [hmem u]
  exact and_iff_left (by omega)

/-- The innermost frame returns the values from `source` on. -/
theorem ensures_leave (h : Active code f m) {source : Nat} {count : Option Nat}
    {Q : Nat → Machine → Prop}
    (hhost : ∀ m' n, Closed code f m m' → f.wanted.or count = some n →
      f.destination + n ≤ m'.options.maxSlots → f.toHost = true ∨ m.frames.pop.back? = none →
      Q n (m'.leftToHost source n (count.getD n) f))
    (hcaller : ∀ m' n g, Closed code f m m' → f.wanted.or count = some n →
      f.destination + n ≤ m'.options.maxSlots → m.frames.pop.back? = some g → f.toHost = false →
      Q n (m'.leftToCaller source n (count.getD n) f g))
    (hoverflow : ∀ m', Closed code f m m' →
      (∀ n, f.wanted.or count = some n → m'.options.maxSlots < f.destination + n) →
      E (.runtime .stackOverflow) m') :
    m.Ensures (leave source count) Q E := by
  simp only [leave, ensures_bind, ensures_frame]
  refine ⟨fun f' hf' => ?_, fun hnone => by cases hnone.symm.trans h.back⟩
  cases h.back.symm.trans hf'
  refine ensures_close_window h fun m' hclosed => ?_
  cases hn : f.wanted.or count with
  | none => exact hoverflow m' hclosed fun n hsome => by cases hn.symm.trans hsome
  | some n =>
    simp only [ensures_bind, ensures_ensureStack]
    refine ⟨fun hsize => hoverflow m' hclosed fun n' hn' => ?_, fun hsize => ?_⟩
    · cases hn.symm.trans hn'
      exact hsize
    simp only [ensures_copySlots, ensures_clearStack, ensures_get, ensures_modify]
    have hhost' := hhost m' n hclosed hn hsize
    have hcaller' := fun g => hcaller m' n g hclosed hn hsize
    rw [← hclosed.frames] at hhost' hcaller'
    cases hback : m'.frames.pop.back? with
    | none => exact hhost' (.inr hback)
    | some caller =>
      simp only [ensures_ite, ensures_bind, ensures_setTop, ensures_pure, ensures_modifyFrame]
      refine ⟨fun htoHost => hhost' (.inl htoHost), fun hnot => ?_⟩
      have hreturn := hcaller' caller hback (Bool.eq_false_iff.mpr hnot)
      unfold Machine.leftToCaller at hreturn
      refine ⟨fun hall => ?_, fun hsome => ?_⟩
      · rw [if_pos hall] at hreturn
        exact hreturn
      · rw [if_neg hsome] at hreturn
        exact hreturn

/-! ## Results of native functions -/

/-- The stack after the results of a native function are written: all of them, or as many as are
wanted, with nil for those that are missing. -/
def deliveredStack (results : List Value) (func count : Nat) (stack : Array Value) : Array Value :=
  let put := putSlots func (results.take count) (grown (func + count) stack)
  fillNil (min (func + count) put.size - (func + results.length)) (func + results.length) put

/-- The machine after the results of a native function are written. -/
def delivered (results : List Value) (func : Nat) (wanted : Option Nat) (m : Machine) : Machine :=
  let count := wanted.getD results.length
  { m with
    stack := deliveredStack results func count m.stack
    frames :=
      if wanted.isNone then
        m.frames.modify (m.frames.size - 1) fun g => { g with open' := func + count }
      else m.frames
    top := max m.top (func + count) }

theorem deliveredStack_size (results : List Value) (func count : Nat) (s : Array Value) :
    (deliveredStack results func count s).size = max (func + count) s.size := by
  have hfill := fun n i (s : Array Value) => (writes_fillNil (P := fun _ => True) trivial n i s).size
  have hput := fun n vs (s : Array Value) =>
    (writes_putSlots (P := fun _ => True) n vs s fun _ _ => trivial).size
  simp only [deliveredStack, hfill, hput, grown_size]

theorem deliveredStack_below (results : List Value) {func : Nat} (count : Nat) (s : Array Value)
    {j : Nat} (hj : j < func) :
    (deliveredStack results func count s).getD j .nil = s.getD j .nil := by
  have hput := writes_putSlots (P := fun _ => True) func (results.take count)
    (grown (func + count) s) fun _ _ => trivial
  simp only [deliveredStack, Array.getD_eq_getD_getElem?]
  rw [fillNil_getElem?, if_neg (by omega), hput.below j hj, ← Array.getD_eq_getD_getElem?,
    grown_getD, Array.getD_eq_getD_getElem?]

theorem deliveredStack_result (results : List Value) (func : Nat) {count : Nat} (s : Array Value)
    {j : Nat} (hj : j < count) :
    (deliveredStack results func count s).getD (func + j) .nil = results.getD j .nil := by
  have hroom := grown_size (func + count) s
  have htake : (results.take count).length = min count results.length := List.length_take
  have hput := (writes_putSlots (P := fun _ => True) func (results.take count)
    (grown (func + count) s) fun _ _ => trivial).size
  simp only [deliveredStack]
  rw [Array.getD_eq_getD_getElem?, fillNil_getElem?, List.getD_eq_getElem?_getD]
  by_cases hlt : j < results.length
  · rw [if_neg (by omega), putSlots_getElem? _ _ _ _ (by omega), if_pos (by omega),
      Nat.add_sub_cancel_left, List.getElem?_take_of_lt hj]
  · rw [if_pos (by omega), List.getElem?_eq_none (by omega), Option.getD_some, Option.getD_none]

theorem Active.works_deliver (h : Active code f m) {results : List Value} {func : Nat}
    {wanted : Option Nat} (hresults : ∀ v ∈ results, m.heap.Has v) (hfunc : f.base ≤ func)
    (hsize : func + wanted.getD results.length ≤ m.options.maxSlots) :
    Works code f m (m.delivered results func wanted) := by
  have hbase := h.base_eq
  unfold Machine.delivered
  dsimp only
  generalize hcount : wanted.getD results.length = count at hsize ⊢
  have hgrown := (h.ready.stack.grown hsize).raise (max m.top (func + count))
    (Nat.le_max_left _ _) (by
      have htop := h.top_le
      rw [grown_size]
      omega)
  have hfit : ∀ n < (results.take count).length, func + n < max m.top (func + count) := by
    intro n hn
    rw [List.length_take] at hn
    omega
  have hput := hgrown.put hfit fun v hv => hresults v (List.mem_of_mem_take hv)
  have hstack : StackSound m.heap m.options.maxSlots (max m.top (func + count))
      (deliveredStack results func count m.stack) := hput.fill _ _
  have hstackSize : m.stack.size ≤ (deliveredStack results func count m.stack).size := by
    rw [deliveredStack_size]
    exact Nat.le_max_right _ _
  have hsound := h.ready.toSound.withStack hstack hstackSize
    (fun g hg => Nat.le_trans (h.ready.frames.window g hg) (Nat.le_max_left _ _))
    fun u hu => Nat.lt_of_lt_of_le (h.ready.opened.below u hu) (Nat.le_max_left _ _)
  have hworks : Works code f m { m with
      stack := deliveredStack results func count m.stack, top := max m.top (func + count) } := by
    refine ⟨h.follows_refl.withStack hstackSize fun j hj => .inl ?_, rfl, f,
      ⟨⟨hsound, h.ready.idle⟩, h.back⟩, .refl f⟩
    exact deliveredStack_below _ _ _ (by omega)
  split
  · refine hworks.trans fun f' hactive _ => ?_
    refine hactive.works_frame (g := fun g => { g with open' := func + count }) (fun _ => rfl) ?_
    show _ ≤ (deliveredStack results func count m.stack).size
    rw [deliveredStack_size]
    exact Nat.le_max_left _ _
  · exact hworks

theorem ensures_deliver (results : List Value) (func : Nat) (wanted : Option Nat)
    {Q : Unit → Machine → Prop}
    (hQ : func + wanted.getD results.length ≤ m.options.maxSlots →
      Q () (m.delivered results func wanted))
    (hoverflow : m.options.maxSlots < func + wanted.getD results.length →
      E (.runtime .stackOverflow) m) :
    m.Ensures (deliver results func wanted) Q E := by
  simp only [deliver, ensures_bind, ensures_ensureStack]
  refine ⟨hoverflow, fun hsize => ?_⟩
  have hnext := hQ hsize
  unfold delivered at hnext
  dsimp only at hnext
  simp only [ensures_setSlots, ensures_clearStack]
  split
  next hall =>
    rw [if_pos hall] at hnext
    exact hnext
  next hsome =>
    rw [if_neg hsome] at hnext
    exact hnext

/-! ## After a failed call -/

/-- Everything is as it was before a call, but for slots of open upvalues: the frames, the top of the
stack with nothing above it, and the open upvalues. -/
structure Restores (m m' : Machine) : Prop where
  follows : m.Follows m.frames.size m.top m'
  frames : m'.frames = m.frames
  top : m'.top = m.top
  opened : m'.openUpvalues = m.openUpvalues

theorem Restores.refl (m : Machine) : m.Restores m := ⟨.here m m.top, rfl, rfl, rfl⟩

theorem Restores.trans {m'' : Machine} (h : m.Restores m') (h' : m'.Restores m'') :
    m.Restores m'' := by
  have hfollows := h'.follows
  rw [h.frames, h.top] at hfollows
  exact ⟨h.follows.trans hfollows, h'.frames.trans h.frames, h'.top.trans h.top,
    h'.opened.trans h.opened⟩

/-- Sorted lists with the same elements are the same. -/
theorem opened_ext {l l' : List (Nat × Ref)} (hl : l.Pairwise fun u v => v.1 < u.1)
    (hl' : l'.Pairwise fun u v => v.1 < u.1) (hmem : ∀ u, u ∈ l' ↔ u ∈ l) : l' = l := by
  have hne : ∀ u v : Nat × Ref, v.1 < u.1 → u ≠ v := by
    rintro u v hlt rfl
    exact Nat.lt_irrefl _ hlt
  have hperm : l'.Perm l := (List.perm_ext_iff_of_nodup (hl'.imp (hne _ _)) (hl.imp (hne _ _))).mpr hmem
  exact hperm.eq_of_pairwise (fun u v _ _ h h' => absurd (Nat.lt_trans h h') (Nat.lt_irrefl _)) hl' hl

/-- The first frames are those that were there before. -/
theorem Follows.outermost (hf : m₀.Follows m₀.frames.size limit m) :
    Outermost m₀.frames m.frames :=
  ⟨hf.count, fun i hi => (hf.frames i hi).symm⟩

theorem Follows.shrink (hf : m₀.Follows m₀.frames.size limit m) :
    m.frames.shrink m₀.frames.size = m₀.frames := by
  have hcount := hf.count
  apply Array.ext
  · rw [Array.size_shrink]
    omega
  · intro i hi hi'
    have heq := hf.frames i hi'
    rw [Array.getElem?_eq_getElem (by omega), Array.getElem?_eq_getElem hi'] at heq
    rw [Array.getElem_shrink]
    exact Option.some.inj heq

/-- The frames, the top and the open upvalues are those of before, if no more of them are left. -/
theorem Follows.restores (hf : m₀.Follows m₀.frames.size m₀.top m)
    (h₀ : OpenSound m₀.heap m₀.top m₀.frames m₀.openUpvalues)
    (hm : m.openUpvalues.Pairwise fun u v => v.1 < u.1) (hsize : m.frames.size = m₀.frames.size)
    (htop : m.top = m₀.top) (hbelow : ∀ u ∈ m.openUpvalues, u.1 < m₀.top) : m₀.Restores m := by
  refine ⟨hf, ?_, htop, opened_ext h₀.sorted hm fun u => ?_⟩
  · refine Array.ext_getElem? fun i => ?_
    by_cases hi : i < m₀.frames.size
    · exact hf.frames i hi
    · rw [Array.getElem?_eq_none (by omega), Array.getElem?_eq_none (by omega)]
  · by_cases hlt : u.1 < m₀.top
    · exact hf.opened u hlt
    · exact iff_of_false (fun hu => hlt (hbelow u hu)) fun hu => hlt (h₀.below u hu)

/-- The slots from an earlier top on are cleared. -/
theorem StackSound.lower {h : Heap} {slots top top' : Nat} {s : Array Value}
    (hs : StackSound h slots top s) (htop : top' ≤ s.size) :
    StackSound h slots top' (fillNil (min top s.size - top') top' s) := by
  refine hs.write (writes_fillNil h.has_nil _ _ _) htop fun j v hj hv => ?_
  by_cases hlt : j < top
  · exact fillNil_clears hj hlt hv
  · rw [fillNil_getElem?, if_neg (by omega)] at hv
    exact hs.clear j v (Nat.le_of_not_lt hlt) hv

/-- What a failed call left behind is dropped. -/
theorem ensures_unwind {code₀ : Nat → Prototype} {Q : Unit → Machine → Prop}
    (h₀ : Ready code₀ m₀) (hm : Ready code m) (hf : m₀.Follows m₀.frames.size m₀.top m)
    (hQ : ∀ m', Ready code m' → m₀.Restores m' → m.heap.Grows m'.heap → Q () m') :
    m.Ensures (unwind m₀.frames.size m₀.top) Q E := by
  simp only [unwind, ensures_bind]
  refine ensures_closeUpvalues hm.toSound fun heap opened hsound hcloses hmem => ?_
  simp only [ensures_modify, ensures_get, ensures_clearStack, ensures_setTop]
  rw [hf.shrink]
  have hfill := writes_fillNil m.heap.has_nil
    (min m.top m.stack.size - m₀.top) m₀.top m.stack
  have htop := Nat.le_trans h₀.stack.top_le hf.stack
  have hstack := hsound.stack.lower htop
  have hdropped : ∀ u ∈ opened, ∀ i f, m₀.frames.size ≤ i → m.frames[i]? = some f →
      u.1 < f.base := by
    intro u hu i f hi hif
    have hbelow := ((hmem u).mp hu).2
    have habove := hf.above i f hi hif
    have hbase := (hm.frames.each f (Array.mem_of_getElem? hif)).base
    omega
  have hbelow : ∀ u ∈ opened, u.1 < m₀.top := fun u hu => ((hmem u).mp hu).2
  refine hQ _ ⟨{ hsound with
    stack := hstack
    frames := ?_
    opened := (hsound.opened.outermost hf.outermost hdropped).withTop hbelow
    frameCount := Nat.le_trans hf.count hm.frameCount }, hm.idle⟩
    (Follows.restores ?_ h₀.opened hsound.opened.sorted rfl rfl hbelow) hcloses.grows
  · exact (hsound.frames.outermost hf.outermost h₀.frames.window).slots_le
      (Nat.le_of_eq hfill.size.symm) h₀.frames.window
  · refine { hf with
      stack := Nat.le_trans hf.stack (Nat.le_of_eq hfill.size.symm)
      count := Nat.le_refl _
      frames := fun _ _ => rfl
      above := (Follows.here m₀ m₀.top).above
      opened := fun u hu => ?_
      slots := fun i hi => ?_ }
    · rw [hmem u, and_iff_left hu]
      exact hf.opened u hu
    · exact (hf.slots i hi).imp_left (hfill.getD hi).trans

end Machine
end LuaMachine
