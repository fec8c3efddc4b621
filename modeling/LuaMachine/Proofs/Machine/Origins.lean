import LuaMachine.Proofs.Flow.Functions
import LuaMachine.Proofs.Machine.Reached
/-! # Where code comes from

A machine runs compiled programs only: a closure is made of a program that has been compiled, or of a
function inside of one whose code is there already.

* `Prototype.Compiled`: a compiled program, or a function inside of one.
* `Machine.Authored`: all closures and all running functions have such code.
* `Machine.Reached.authored`: the machines of runs.
-/
set_option autoImplicit false

namespace LuaMachine

/-- A compiled program, or a function inside of one. -/
inductive Prototype.Compiled : Prototype → Prop where
  | program {text name : String} {p : Prototype} (h : compile text name = .ok p) : p.Compiled
  | nested {p q : Prototype} (hp : p.Compiled) (hq : q ∈ p.children) : q.Compiled

namespace Prototype.Compiled

variable {p : Prototype}

theorem everywhere (h : p.Compiled) : p.Everywhere Mindful := by
  induction h with
  | program h =>
    unfold compile at h
    split at h
    next program hparse => exact generate_mindful hparse h
    next => cases h
  | nested _ hq ih =>
    cases ih with
    | intro _ nested => exact nested _ hq

/-- A compiled function minds its variables. -/
theorem mindful (h : p.Compiled) : p.Mindful := by
  cases h.everywhere with
  | intro here _ => exact here

end Prototype.Compiled

namespace Machine

/-- All code is that of compiled programs. -/
def Authored (m : Machine) : Prop := ∀ q, m.Codes q → q.Compiled

/-- No code comes up that has not been compiled. -/
def Inherits (m m' : Machine) : Prop := m.Authored → m'.Authored

variable {m m' : Machine} {N : Fault → Prop}

instance : Durable Inherits := ⟨fun h ha q hq => ha q (h.codes q hq), fun h h' ha => h' (h ha)⟩

theorem inherits_code {q : Prototype} (hq : q.Compiled) (hcodes : ∀ p, m'.Codes p → m.Codes p ∨ p = q) :
    m.Inherits m' := fun ha p hp => (hcodes p hp).elim (ha p) fun heq => heq ▸ hq

/-- The place of a heap gets a closure with compiled code. -/
theorem inherits_heap {h : Heap} {q : Prototype} (hq : q.Compiled)
    (hcodes : ∀ (r : Ref) (c : Closure), h.cells[r]? = some (.closure c) →
      m.Codes c.prototype ∨ c.prototype = q) : m.Inherits { m with heap := h } := by
  refine inherits_code hq ?_
  rintro p (⟨r, c, hc, rfl⟩ | ⟨f, hf, rfl⟩)
  · exact hcodes r c hc
  · exact .inl (codes_frame hf)

theorem inherits_allocate {c : Closure} (hc : c.prototype.Compiled) :
    Lasts Inherits N (allocate (.closure c)) := by
  unfold allocate
  refine (lasts_collectIfDue _).bind fun _ m => inherits_heap hc fun r c' hc' => ?_
  rw [Heap.allocate_getElem?] at hc'
  split at hc'
  · cases hc'
    exact .inr rfl
  · exact .inl (codes_closure hc')

theorem inherits_setClosure {c : Closure} (hc : c.prototype.Compiled) (r : Ref) :
    Lasts Inherits N (modifyHeap fun h => h.setClosure r c) := by
  refine lasts_modify fun m => inherits_heap hc fun r' c' hc' => ?_
  have hc' : (m.heap.cells.setIfInBounds r (.closure c))[r']? = some (.closure c') := hc'
  rw [Array.getElem?_setIfInBounds] at hc'
  split at hc'
  · split at hc'
    · cases hc'
      exact .inr rfl
    · cases hc'
  · exact .inl (codes_closure hc')

theorem setUpvalue_prototype {c c' : Closure} {i : Nat} {u : Option Ref}
    (h : c.setUpvalue i u = .ok c') : c'.prototype = c.prototype := by
  unfold Closure.setUpvalue at h
  split at h
  · cases h
    rfl
  · cases h

/-- A compiled program, or a function of one, is made a closure. -/
theorem inherits_instantiate {p : Program} (hp : p.prototype.Compiled) (globals : Option Ref) :
    Endures Inherits (instantiate p globals) :=
  endures_instantiate p globals (inherits_allocate hp) fun c _ hc r =>
    inherits_setClosure (by rw [setUpvalue_prototype hc]; exact hp) r

theorem inherits_makeClosure {f : Frame} (i : Instruction) (hf : m.frames.back? = some f) :
    m.Ensures (makeClosure f i) (fun _ m' => m.Inherits m') fun _ m' => m.Inherits m' := by
  by_cases ha : m.Authored
  · have hcode := ha _ (codes_frame (mem_of_back? hf))
    exact (lasts_makeClosure (N := fun _ => True) f i (fun child hchild =>
      inherits_allocate (hcode.nested (Array.mem_of_getElem? hchild))) m).mono
        (fun _ _ h => h) fun _ _ h => h.1
  · exact .of_forall (fun _ _ h => absurd h ha) fun _ _ h => absurd h ha

instance : Enduring Inherits where
  makeClosure i hf := inherits_makeClosure i hf
  instantiate hp globals := inherits_instantiate (.program hp) globals

/-! ## Machines of embedders and of runs -/

variable {options : Options} {hosts : Array HostFunction} {p : Moment}

theorem Served.authored (h : Served options hosts m) : m.Authored := by
  induction h with
  | create =>
    rw [create_eq]
    refine (endures_prepare (R := Inherits)).after _ ?_
    rintro q (⟨r, c, hc, -⟩ | ⟨f, hf, -⟩)
    · cases hc
    · exact absurd hf (Array.not_mem_empty f)
  | @request m q _ hq ih =>
    by_cases hp : ∃ p globals, q = .instantiate p globals
    · obtain ⟨p, globals, rfl⟩ := hp
      obtain ⟨-, r, c, hc, -, hproto⟩ := hq
      have hcompiled : p.prototype.Compiled := hproto ▸ ih _ (codes_closure hc)
      exact (Endures.after ((inherits_instantiate hcompiled globals).map) m) ih
    · refine (q.endures_of (R := Inherits) fun p globals hq => ?_).after m ih
      exact absurd ⟨p, globals, hq⟩ hp

/-- All functions that run are those of compiled programs. -/
theorem Reached.authored (h : Reached options hosts p) : p.machine.Authored := by
  induction h with
  | begins fuel hm _ _ => exact hm.authored
  | attempts fuel hm _ _ => exact hm.authored
  | goes _ hbegins ih => exact hbegins.endures (R := Inherits) ih

theorem Authored.mindful (h : m.Authored) {f : Frame} (hf : f ∈ m.frames) :
    f.prototype.Mindful := (h _ (codes_frame hf)).mindful

end Machine
end LuaMachine
