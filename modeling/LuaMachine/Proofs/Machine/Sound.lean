import LuaMachine.Proofs.Code.WellFormed
import LuaMachine.Proofs.Heap.Contents
import LuaMachine.Proofs.Machine.Ensures
/-! # Sound machines

The invariant of a machine: everything in use is in the heap, the frames' windows lie on the stack
one above the other, and the open upvalues are those of the running functions' registers.

* `NativeStep.Draws`: a native function uses no values but those that it was given.
* `Machine.StackSound`, `FramesSound`, `OpenSound`: the parts of the invariant.
* `Machine.Sound`, `Machine.Ready`: the invariant, also between two instructions.
* `Machine.Follows`: what a computation leaves alone below a frame and a slot.
-/
set_option autoImplicit false

namespace LuaMachine

/-- The value of a fault is given, if the fault carries one. -/
def Fault.Held (P : Value → Prop) : Fault → Prop
  | .script v _ => P v
  | _ => True

/-- The step uses only the given values and plain ones, and goes on in this way with the values
that a call gives. -/
inductive NativeStep.Draws : (Value → Prop) → NativeStep → Prop where
  | done {P : Value → Prop} {results : List Value} (h : ∀ v ∈ results, P v) :
      NativeStep.Draws P (.done results)
  | fail {P : Value → Prop} {fault : Fault} (h : fault.Held P) : NativeStep.Draws P (.fail fault)
  | call {P : Value → Prop} {callee : Value} {args : List Value}
      {next : List Value → NativeStep} (hcallee : P callee) (hargs : ∀ v ∈ args, P v)
      (hnext : ∀ (P' : Value → Prop) (results : List Value), (∀ v : Value, v.Plain → P' v) →
        (∀ v ∈ results, P' v) → NativeStep.Draws P' (next results)) :
      NativeStep.Draws P (.call callee args next)
  | protect {P : Value → Prop} {callee : Value} {args : List Value}
      {next : Bool → List Value → NativeStep} (hcallee : P callee) (hargs : ∀ v ∈ args, P v)
      (hnext : ∀ (P' : Value → Prop) (ok : Bool) (results : List Value),
        (∀ v : Value, v.Plain → P' v) → (∀ v ∈ results, P' v) →
        NativeStep.Draws P' (next ok results)) :
      NativeStep.Draws P (.protect callee args next)

/-- A function of the embedder that uses only the values it is given. -/
def HostFunction.Honest (f : HostFunction) : Prop :=
  ∀ (P : Value → Prop) (args : List Value), (∀ v : Value, v.Plain → P v) → (∀ v ∈ args, P v) →
    (f args).Draws P

/-- The slot behind the registers of a frame. -/
def Frame.window (f : Frame) : Nat := f.base + f.prototype.registers

namespace Machine

/-! ## The stack -/

structure StackSound (h : Heap) (slots top : Nat) (stack : Array Value) : Prop where
  has : ∀ v ∈ stack, h.Has v
  top_le : top ≤ stack.size
  size_le : stack.size ≤ slots
  clear : ∀ (i : Nat) (v : Value), top ≤ i → stack[i]? = some v → v = .nil

/-! ## Frames -/

structure FrameSound (h : Heap) (pools : Pools) (slots : Nat) (f : Frame) : Prop where
  closure : ∃ c, h.cells[f.closure]? = some (.closure c) ∧ c.id = f.id ∧ c.prototype = f.prototype
  constants : pools[f.id]? = some f.constants
  extra : ∀ v ∈ f.extra, h.Has v
  base : f.base = f.destination + 1
  stop : f.open' ≤ slots
  fits : f.window ≤ slots

/-- How the window of a frame lies to that of its caller: behind it if a native function stands
between the two, else behind one of its registers. -/
structure CalledBy (g f : Frame) : Prop where
  base : g.base ≤ f.destination
  native : f.toHost = true → g.window ≤ f.destination
  register : f.toHost = false → f.destination < g.window

structure FramesSound (h : Heap) (pools : Pools) (slots top : Nat) (frames : Array Frame) :
    Prop where
  each : ∀ f ∈ frames, FrameSound h pools slots f
  calls : ∀ (i : Nat) (g f : Frame), frames[i]? = some g → frames[i + 1]? = some f → CalledBy g f
  window : ∀ f, frames.back? = some f → f.window ≤ top

/-! ## Open upvalues -/

/-- Each open upvalue stands for a register of a running function. -/
structure OpenSound (h : Heap) (top : Nat) (frames : Array Frame) (opened : List (Nat × Ref)) :
    Prop where
  sorted : opened.Pairwise fun u v => v.1 < u.1
  cell : ∀ u ∈ opened, h.cells[u.2]? = some (.upvalue (.opened u.1))
  below : ∀ u ∈ opened, u.1 < top
  window : ∀ u ∈ opened, ∃ f ∈ frames, f.base ≤ u.1 ∧ u.1 < f.window
  native : ∀ u ∈ opened, ∀ f ∈ frames, f.toHost = true → u.1 ≠ f.destination

/-! ## The invariant -/

structure Sound (code : Nat → Prototype) (m : Machine) : Prop where
  heap : m.heap.Sound code m.programs m.openUpvalues m.pools
  stack : StackSound m.heap m.options.maxSlots m.top m.stack
  frames : FramesSound m.heap m.pools m.stack.size m.top m.frames
  opened : OpenSound m.heap m.top m.frames m.openUpvalues
  programs : ∀ n < m.programs, (code n).Runnable
  frameCount : m.frames.size ≤ m.options.maxFrames
  depth : m.nativeDepth ≤ m.options.maxNativeDepth
  globals : m.heap.Has (.table m.globals)
  memoryText : m.heap.Has (.str outOfMemoryText)
  filling : ∀ v ∈ m.filling, m.heap.Has v
  pinned : ∀ v ∈ m.pinned, m.heap.Has v
  hosts : ∀ f ∈ m.hosts, HostFunction.Honest f

/-- A sound machine that is not about to fill a pool of constants. -/
structure Ready (code : Nat → Prototype) (m : Machine) : Prop extends Sound code m where
  idle : m.filling = #[]

/-! ## What stays -/

/-- What a computation leaves alone that runs above the first `k` frames and from the slot `limit`
on: these frames, the open upvalues of the slots below `limit`, and these slots themselves, unless
they are written through an upvalue. -/
structure Follows (k limit : Nat) (m m' : Machine) : Prop where
  options : m'.options = m.options
  hosts : m'.hosts = m.hosts
  globals : m'.globals = m.globals
  depth : m'.nativeDepth = m.nativeDepth
  pinned : m'.pinned = m.pinned
  stack : m.stack.size ≤ m'.stack.size
  count : k ≤ m'.frames.size
  frames : ∀ i < k, m'.frames[i]? = m.frames[i]?
  above : ∀ i f, k ≤ i → m'.frames[i]? = some f → limit ≤ f.destination
  opened : ∀ u : Nat × Ref, u.1 < limit → (u ∈ m'.openUpvalues ↔ u ∈ m.openUpvalues)
  slots : ∀ i < limit,
    m'.stack.getD i .nil = m.stack.getD i .nil ∨ ∃ r, (i, r) ∈ m.openUpvalues

variable {k limit : Nat} {m m' m'' : Machine}

theorem Follows.refl (hcount : k ≤ m.frames.size)
    (habove : ∀ i f, k ≤ i → m.frames[i]? = some f → limit ≤ f.destination) : m.Follows k limit m where
  options := rfl
  hosts := rfl
  globals := rfl
  depth := rfl
  pinned := rfl
  stack := Nat.le_refl _
  count := hcount
  frames _ _ := rfl
  above := habove
  opened _ _ := Iff.rfl
  slots _ _ := .inl rfl

/-- Nothing runs yet above the frames there are. -/
theorem Follows.here (m : Machine) (limit : Nat) : m.Follows m.frames.size limit m := by
  refine .refl (Nat.le_refl _) fun i f hi hf => ?_
  rw [Array.getElem?_eq_none hi] at hf
  cases hf

theorem Follows.trans (h : m.Follows k limit m') (h' : m'.Follows k limit m'') :
    m.Follows k limit m'' where
  options := h'.options.trans h.options
  hosts := h'.hosts.trans h.hosts
  globals := h'.globals.trans h.globals
  depth := h'.depth.trans h.depth
  pinned := h'.pinned.trans h.pinned
  stack := Nat.le_trans h.stack h'.stack
  count := h'.count
  frames i hi := (h'.frames i hi).trans (h.frames i hi)
  above := h'.above
  opened u hu := (h'.opened u hu).trans (h.opened u hu)
  slots i hi := by
    rcases h'.slots i hi with hs' | ⟨r, hr⟩
    · exact (h.slots i hi).imp_left fun hs => hs'.trans hs
    · exact .inr ⟨r, (h.opened (i, r) hi).mp hr⟩

/-- What is left alone above an outer limit is left alone above an inner one too, if the frames
between the two lie above the outer limit. -/
theorem Follows.widen {k' limit' : Nat} (h : m.Follows k limit m') (hk : k' ≤ k)
    (hlimit : limit' ≤ limit) (habove : ∀ i f, k' ≤ i → m.frames[i]? = some f → limit' ≤ f.destination) :
    m.Follows k' limit' m' where
  options := h.options
  hosts := h.hosts
  globals := h.globals
  depth := h.depth
  pinned := h.pinned
  stack := h.stack
  count := Nat.le_trans hk h.count
  frames i hi := h.frames i (Nat.lt_of_lt_of_le hi hk)
  above i f hi hf := by
    by_cases hik : i < k
    · exact habove i f hi ((h.frames i hik).symm.trans hf)
    · exact Nat.le_trans hlimit (h.above i f (Nat.le_of_not_lt hik) hf)
  opened u hu := h.opened u (Nat.lt_of_lt_of_le hu hlimit)
  slots i hi := h.slots i (Nat.lt_of_lt_of_le hi hlimit)

end Machine
end LuaMachine
